import FaultIsolation.Proofs.RegisterFile
import FaultIsolation.Proofs.SingleRule

namespace FaultIsolation

/-- What may be left in a register that is written. All that is known of it is that the upper half
is clear where the opcode clears it. -/
def Opcode.MayLeave (op : Opcode) (r : Register) (v : BitVec 64) : Prop :=
  r.isDword = true → op.zeroExtends = true → Region.IsOffset v

inductive Stores (op : Opcode) : List Register → RegisterFile → RegisterFile → Prop where
  | nil (σ : RegisterFile) : Stores op [] σ σ
  | cons (r : Register) (rs : List Register) (v : BitVec 64) (σ τ : RegisterFile)
      (left : op.MayLeave r v) (more : Stores op rs (Function.update σ r.family v) τ) :
      Stores op (r :: rs) σ τ

namespace Instruction

def UpdatesPointer (i : Instruction) : Prop :=
  i.CopiesPointer ∨ i.AlignsStack ∨ ∃ f, (f = .rsp ∨ f = .rbp) ∧ i.Rebases f

/-- How an instruction may change the registers. The updates of a pointer are told exactly. Any
other instruction keeps the registers that it does not write. -/
inductive Executes (i : Instruction) (σ : RegisterFile) : RegisterFile → Prop where
  | copy (f f' : Family) (pointers : f = .rsp ∧ f' = .rbp ∨ f = .rbp ∧ f' = .rsp)
      (form : i.Spells "mov" [.register (.qword f), .register (.qword f')]) :
      Executes i σ (Function.update σ f (σ f'))
  | align (mask : Int) (form : i.AlignsStack) (masked : i.immediate? 1 = some mask) :
      Executes i σ (Function.update σ .rsp (σ .rsp &&& BitVec.ofInt 64 mask))
  | rebase (f : Family) (pointer : f = .rsp ∨ f = .rbp) (form : i.Rebases f) :
      Executes i σ (Function.update σ f (σ f + σ .r15))
  | other (op : Opcode) (τ : RegisterFile) (known : i.opcode? = some op)
      (plain : ¬i.UpdatesPointer) (stores : Stores op i.destinations σ τ) : Executes i σ τ

/-- What machine code can say. Of two registers that are exchanged both are lower halves or neither
is, and the mask for the stack pointer is a signed number of 32 bits. -/
structure Encodable (i : Instruction) : Prop where
  exchanged : ∀ r s, Text.lower i.mnemonic ∈ ["xchg", "xadd"] → i.register? 0 = some r →
    i.register? 1 = some s → r.isDword = s.isDword
  mask : ∀ m, i.AlignsStack → i.immediate? 1 = some m → -0x80000000 ≤ m

variable {i : Instruction} {op : Opcode}

/-- Only the exchanges write two operands. -/
theorem exchange_mnemonic (h : i.opcode? = some op) (hw : op.writes = .firstTwo) :
    Text.lower i.mnemonic ∈ ["xchg", "xadd"] := by
  have ht : ∀ op ∈ Opcode.table, op.writes = .firstTwo → op.mnemonic ∈ ["xchg", "xadd"] := by
    decide +kernel
  have hname : op.mnemonic = Text.lower i.mnemonic := by
    unfold opcode? Opcode.find? at h
    simpa using List.find?_some h
  rw [← hname]
  exact ht op (opcode_mem h) hw

theorem mem_destinations {r : Register} (ho : i.opcode? = some op) (hr : r ∈ i.destinations) :
    i.register? 0 = some r ∨ op.writes = .firstTwo ∧ i.register? 1 = some r := by
  rw [destinations_eq ho, List.mem_filterMap] at hr
  obtain ⟨n, hn, hr⟩ := hr
  cases hw : op.writes with
  | firstTwo =>
    simp only [hw, Writes.positions, List.mem_cons, List.not_mem_nil, or_false] at hn
    rcases hn with hn | hn
    · exact Or.inl (hn ▸ hr)
    · exact Or.inr ⟨rfl, hn ▸ hr⟩
  | _ =>
    left
    have hzero : n = 0 := by simp_all [Writes.positions]
    exact hzero ▸ hr

/-- The registers that an instruction writes are all lower halves, or none is. -/
theorem Encodable.same_size {r s : Register} (h : i.Encodable) (ho : i.opcode? = some op)
    (hr : r ∈ i.destinations) (hs : s ∈ i.destinations) : r.isDword = s.isDword := by
  rcases mem_destinations ho hr with hr | ⟨hw, hr⟩
  · rcases mem_destinations ho hs with hs | ⟨hw, hs⟩
    · rw [Option.some.inj (hr.symm.trans hs)]
    · exact h.exchanged r s (exchange_mnemonic ho hw) hr hs
  · rcases mem_destinations ho hs with hs | ⟨_, hs⟩
    · exact (h.exchanged s r (exchange_mnemonic ho hw) hs hr).symm
    · rw [Option.some.inj (hr.symm.trans hs)]

end Instruction

namespace Rule
variable {g : Region} {i : Instruction} {e : Effect} {op : Opcode} {r : Register}
  {rs : List Register} {c d w : Condition} {σ τ : RegisterFile} {v : BitVec 64}

/-- Something is known of a lower half whose upper half is cleared. -/
theorem after_write_extended (h : afterWrite op r = .ok w) (hn : r.isDword = true)
    (hz : op.zeroExtends = true) : w ≠ .default := by
  unfold afterWrite at h
  split at h <;> simp_all
  all_goals
    subst w
    simp

/-- One write. A zero-extended register is remembered from the write before only where this write
extends a register as well. -/
theorem write_meets (h : g.Meets c σ) (hw : afterWrite op r = .ok w) (hd : combine c w = .ok d)
    (hv : op.MayLeave r v)
    (known : ∀ f, c = .zeroExtended f → r.isDword = true ∧ op.zeroExtends = true) :
    g.Meets d (Function.update σ r.family v) := by
  have hextended := after_write_extended hw
  obtain ⟨htruncated, _⟩ := combine_ok hd
  cases after_write_ok hw with
  | truncation pointer narrow extended =>
    have hr : d = .truncated r.family := htruncated _ (Or.inr rfl)
    subst hr
    apply h.set_pointer pointer _ _ (Or.inr rfl)
    · intro p hp
      have hsame := htruncated p (Or.inl hp)
      simpa using hsame.symm
    · rw [if_pos rfl]
      exact hv narrow extended
  | extension free narrow extended =>
    cases c with
    | truncated f =>
      cases hd
      exact h.set_free free (by simp)
    | _ =>
      cases hd
      exact (h.of_covers rfl).set_extended free (hv narrow extended)
  | other free =>
    cases c with
    | zeroExtended f =>
      obtain ⟨narrow, extended⟩ := known f rfl
      exact absurd rfl (hextended narrow extended)
    | _ =>
      cases hd
      exact h.set_free free (by simp)

/-- A run of writes to registers of one size. -/
theorem stores_meet (h : g.Meets c σ)
    (hpost : rs.foldlM (fun c r => do combine c (← afterWrite op r)) c = .ok d)
    (stores : Stores op rs σ τ) (same : ∀ r ∈ rs, ∀ s ∈ rs, r.isDword = s.isDword)
    (known : ∀ f, c = .zeroExtended f → op.zeroExtends = true ∧ ∀ r ∈ rs, r.isDword = true) :
    g.Meets d τ := by
  -- What is known of a register lasts, because the rest of the writes extend theirs too.
  induction stores generalizing c with
  | nil σ =>
    cases hpost
    exact h
  | cons r rs v σ τ left more ih =>
    simp only [List.foldlM_cons, bind_ok] at hpost
    obtain ⟨mid, ⟨w, hw, hmid⟩, hrest⟩ := hpost
    have hmeets : g.Meets mid (Function.update σ r.family v) := by
      apply write_meets h hw hmid left
      intro f hf
      obtain ⟨hz, hn⟩ := known f hf
      exact ⟨hn r (by simp), hz⟩
    apply ih hmeets hrest
    · intro s hs t ht
      exact same s (by simp [hs]) t (by simp [ht])
    · intro f hf
      rcases (combine_ok hmid).2 with hc | hc
      · obtain ⟨hz, hn⟩ := known f (hc.symm.trans hf)
        refine ⟨hz, ?_⟩
        intro s hs
        exact hn s (by simp [hs])
      · subst hf
        cases hc
        cases after_write_ok hw with
        | extension free narrow extended =>
          refine ⟨extended, ?_⟩
          intro s hs
          rw [← same r (by simp) s (by simp [hs])]
          exact narrow

/-- The memory references of an instruction need nothing that may not be dropped. -/
theorem References.covers {ms : List Memory} (h : References ms c) : c.covers .default = true := by
  rcases h.needed with hc | ⟨_, _, f, _, hc⟩
  · rw [hc]
    rfl
  · rw [hc]
    rfl

theorem PointerUpdate.updates (h : PointerUpdate i c) : i.UpdatesPointer := by
  cases h with
  | copy form => exact Or.inl form
  | align form => exact Or.inr (Or.inl form)
  | rebase f pointer form => exact Or.inr (Or.inr ⟨f, pointer, form⟩)

/-- An instruction that updates no pointer writes its registers and does nothing else. -/
theorem stores_keep (h : single .bits64 i = .accept e) (hi : i.Encodable)
    (meets : g.Meets e.pre σ) (ho : i.opcode? = some op) (plain : ¬i.UpdatesPointer)
    (stores : Stores op i.destinations σ τ) : g.Meets e.post τ := by
  obtain ⟨row, hrow, _, ha⟩ := single_accepted h
  cases ho.symm.trans hrow
  cases ha with
  | branch _ _ isBranch =>
    rw [Instruction.destinations_eq ho, Instruction.branch_writes ho isBranch] at stores
    cases stores
    exact meets
  | flat narrow => cases narrow
  | update _ _ _ _ form =>
    exact absurd (pointer_update_some form).1.updates plain
  | access pre post rs _ _ _ _ needs writes leaves =>
    obtain ⟨_, rfl⟩ := written_ok ho writes
    have hdefault := meets.of_covers (precondition_ok needs).covers
    apply stores_meet hdefault leaves stores
    · intro r hr s hs
      exact hi.same_size ho hr hs
    · intro f hf
      cases hf

/-- Whatever an instruction does to the registers, what it leaves behind is true of them. -/
theorem executes_keep (h : single .bits64 i = .accept e) (hi : i.Encodable)
    (meets : g.Meets e.pre σ) (run : i.Executes σ τ) : g.Meets e.post τ := by
  cases run with
  | copy f f' pointers form =>
    have hcopy : i.CopiesPointer := by
      rcases pointers with ⟨rfl, rfl⟩ | ⟨rfl, rfl⟩
      · exact Or.inl form
      · exact Or.inr form
    cases single_update h (pointer_update_copy hcopy)
    have hf : f = .rsp ∨ f = .rbp := pointers.imp And.left And.left
    have hf' : f' = .rsp ∨ f' = .rbp := pointers.symm.imp And.right And.right
    apply meets.set_pointer hf (by simp) _ (Or.inl rfl)
    rw [if_neg (by simp)]
    exact meets.pointer hf' (by simp)
  | align mask form masked =>
    cases single_update h (pointer_update_align form)
    obtain ⟨m, hneg, hm⟩ := form.2.2
    cases Option.some.inj (hm.symm.trans masked)
    apply meets.set_pointer (Or.inl rfl) (by simp) _ (Or.inl rfl)
    rw [if_neg (by simp)]
    apply Region.holds_and _ (hi.mask mask form masked) hneg
    exact meets.pointer (Or.inl rfl) (by simp)
  | rebase f pointer form =>
    cases single_update h (pointer_update_rebase pointer form)
    apply meets.set_pointer pointer (by simp) _ (Or.inl rfl)
    rw [if_neg (by simp)]
    apply Region.holds_add _ meets.base
    have hoffset := meets.pointers f pointer
    rwa [if_pos rfl] at hoffset
  | other op τ known plain stores => exact stores_keep h hi meets known plain stores

end Rule

theorem stores_exist (op : Opcode) (rs : List Register) (σ : RegisterFile) :
    ∃ τ, Stores op rs σ τ := by
  induction rs generalizing σ with
  | nil => exact ⟨σ, .nil σ⟩
  | cons r rs ih =>
    obtain ⟨τ, hτ⟩ := ih (Function.update σ r.family 0)
    have hzero : op.MayLeave r 0 := by
      intro _ _
      decide
    exact ⟨τ, .cons r rs 0 σ τ hzero hτ⟩

/-- An instruction that the table knows can be executed. -/
theorem Instruction.executes_exist {i : Instruction} {op : Opcode} (h : i.opcode? = some op)
    (σ : RegisterFile) : ∃ τ, i.Executes σ τ := by
  by_cases hu : i.UpdatesPointer
  · rcases hu with (hc | hc) | ha | ⟨f, hf, hr⟩
    · exact ⟨_, .copy .rsp .rbp (by simp) hc⟩
    · exact ⟨_, .copy .rbp .rsp (by simp) hc⟩
    · obtain ⟨mask, _, hm⟩ := ha.2.2
      exact ⟨_, .align mask ha hm⟩
    · exact ⟨_, .rebase f hf hr⟩
  · obtain ⟨τ, hτ⟩ := stores_exist op i.destinations σ
    exact ⟨τ, .other op τ h hu hτ⟩

/-- An instruction that is accepted on its own takes the condition that it needs to the condition
that it leaves behind. It can be executed, and however that ends, if the one was true of the
registers before, the other is true of them after it. -/
theorem accepted_keeps_conditions {g : Region} {i : Instruction} {e : Effect} {σ : RegisterFile}
    (accepted : Rule.single .bits64 i = .accept e) (encodable : i.Encodable)
    (meets : g.Meets e.pre σ) :
    (∃ τ, i.Executes σ τ) ∧ ∀ τ, i.Executes σ τ → g.Meets e.post τ := by
  obtain ⟨op, ho, _⟩ := Rule.single_accepted accepted
  refine ⟨i.executes_exist ho σ, ?_⟩
  intro τ run
  exact Rule.executes_keep accepted encodable meets run

namespace Sample

def region : Region where
  base := 0x100000000
  aligned := rfl
  fits := by decide

def registers : RegisterFile
  | .r15 => 0x100000000
  | .rsp => 0x100001000
  | .rbp => 0x100002000
  | .rax => 0x700000007
  | _ => 0

theorem registers_meet : region.Meets .default registers := by
  refine ⟨rfl, ?_, by simp⟩
  intro f hf
  rcases hf with rfl | rfl <;> decide

def exchange : Instruction where
  address := 0
  length := 1
  mnemonic := "xchg"
  operands := [.register (.dword .rax), .register (.dword .rsp)]
  disassembly := "xchg eax, esp"

def exchanged : RegisterFile :=
  Function.update (Function.update registers .rax 0x1000) .rsp 7

end Sample

theorem accepted_keeps_conditions_exchange :
    Rule.single .bits64 Sample.exchange = .accept { post := .truncated .rsp } ∧
      Sample.exchange.Encodable ∧ Sample.region.Meets .default Sample.registers ∧
      Sample.exchange.Executes Sample.registers Sample.exchanged ∧
      Sample.region.Meets (.truncated .rsp) Sample.exchanged := by
  have accepted : Rule.single .bits64 Sample.exchange = .accept { post := .truncated .rsp } := by
    decide +kernel
  have encodable : Sample.exchange.Encodable := by
    refine ⟨?_, ?_⟩
    · intro r s _ hr hs
      cases hr
      cases hs
      rfl
    · intro m _ hm
      cases hm
  have meets := Sample.registers_meet
  have run : Sample.exchange.Executes Sample.registers Sample.exchanged := by
    have known : Sample.exchange.opcode? = some { mnemonic := "xchg", writes := .firstTwo } := by
      decide +kernel
    refine .other _ _ known ?_ ?_
    · simp [Instruction.UpdatesPointer, Instruction.CopiesPointer, Instruction.AlignsStack,
        Instruction.Rebases, Instruction.Spells, Sample.exchange]
    · rw [Instruction.destinations_eq known]
      refine .cons (.dword .rax) _ 0x1000 _ _ ?_ (.cons (.dword .rsp) _ 7 _ _ ?_ (.nil _))
      · intro _ _
        decide
      · intro _ _
        decide
  exact ⟨accepted, encodable, meets, run,
    (accepted_keeps_conditions accepted encodable meets).2 _ run⟩

end FaultIsolation
