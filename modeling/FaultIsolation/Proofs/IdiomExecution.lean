import FaultIsolation.Proofs.Addressing
import FaultIsolation.Proofs.IdiomRule
import FaultIsolation.Proofs.Mediation

namespace FaultIsolation

/-- The registers after a part of one was replaced. Replacing a lower half clears the upper half. -/
def Register.write (r : Register) (σ : RegisterFile) (v : BitVec 64) : RegisterFile :=
  let kept := if r.isDword then 0 else σ r.family &&& ~~~r.width.mask
  Function.update σ r.family (kept ||| v <<< r.width.low &&& r.width.mask)

def Memory.isWhole (m : Memory) : Bool :=
  m.base.all Register.isQword && m.index.all Register.isQword

namespace Instruction

/-- What an instruction computes, of those that the idioms are made of. A constant counts by as many
bits as the register has. -/
def result? (i : Instruction) (σ : RegisterFile) : Option (BitVec 64) :=
  match i.mnemonic, i.operands with
  | "and", [.register r, .immediate v] => some (r.read σ &&& BitVec.ofInt 64 v)
  | "add", [.register r, .register s] => some (r.read σ + s.read σ)
  | "mov", [.register _, .register s] => some (s.read σ)
  | "lea", [.register _, .memory m] =>
    if m.isWhole then some (BitVec.ofInt 64 (m.address σ)) else none
  | _, _ => none

def execute? (i : Instruction) (σ : RegisterFile) : Option RegisterFile :=
  (i.register? 0).bind fun r => (i.result? σ).map (r.write σ)

def executeAll? (code : List Instruction) (σ : RegisterFile) : Option RegisterFile :=
  code.foldlM (fun σ i => i.execute? σ) σ

end Instruction

section
variable {σ : RegisterFile} {f : Family} {v : BitVec 64}

/-- The mask of a lower half takes the remainder by 4 GiB. -/
theorem lower_half_to_nat (v : BitVec 64) :
    (v &&& Width.dword.mask).toNat = v.toNat % Region.span := by
  rw [BitVec.toNat_and]
  exact Nat.and_two_pow_sub_one_eq_mod v.toNat 32

theorem lower_half_offset (v : BitVec 64) : Region.IsOffset (v &&& Width.dword.mask) := by
  rw [Region.IsOffset, lower_half_to_nat]
  exact Nat.mod_lt _ (by decide)

@[simp] theorem Register.write_dword :
    (Register.dword f).write σ v = Function.update σ f (v &&& Width.dword.mask) := by
  simp [Register.write, Register.dword, Register.isDword, Width.low]

@[simp] theorem Register.write_qword : (Register.qword f).write σ v = Function.update σ f v := by
  have hall : v &&& Width.qword.mask = v := BitVec.and_allOnes
  have hnone : ~~~Width.qword.mask = 0 := rfl
  simp [Register.write, Register.qword, Register.isDword, Width.low, hall, hnone]

@[simp] theorem Register.read_qword : (Register.qword f).read σ = σ f :=
  Register.read_full rfl

@[simp] theorem Register.addend_qword : Register.addend σ (some (.qword f)) = (σ f).toNat :=
  Register.addend_full rfl

@[simp] theorem Register.read_dword : (Register.dword f).read σ = σ f &&& Width.dword.mask := by
  simp [Register.read, Register.dword, Width.low]

end

namespace Instruction
variable {i : Instruction} {r s : Register} {m : Memory} {ops : List Operand} {mnemonic : String}
  {σ : RegisterFile} {v : BitVec 64}

theorem Spells.execute (h : i.Spells mnemonic (.register r :: ops)) (hv : i.result? σ = some v) :
    i.execute? σ = some (r.write σ v) := by
  rw [execute?, h.first, hv]
  rfl

theorem Spells.result_and {mask : Int} (h : i.Spells "and" [.register r, .immediate mask])
    (σ : RegisterFile) : i.result? σ = some (r.read σ &&& BitVec.ofInt 64 mask) := by
  rw [result?, h.1, h.2]
  rfl

theorem Spells.result_add (h : i.Spells "add" [.register r, .register s]) (σ : RegisterFile) :
    i.result? σ = some (r.read σ + s.read σ) := by
  rw [result?, h.1, h.2]
  rfl

theorem Spells.result_mov (h : i.Spells "mov" [.register r, .register s]) (σ : RegisterFile) :
    i.result? σ = some (s.read σ) := by
  rw [result?, h.1, h.2]
  rfl

theorem Spells.result_lea (h : i.Spells "lea" [.register r, .memory m]) (hm : m.isWhole = true)
    (σ : RegisterFile) : i.result? σ = some (BitVec.ofInt 64 (m.address σ)) := by
  rw [result?, h.1, h.2]
  exact if_pos hm

end Instruction

namespace Rule
variable {i move load : Instruction} {f : Family} {g : Region} {code : List Instruction}
  {fs : List Family}

/-- A register that is rounded down holds the offset of a bundle, whatever it held. -/
theorem Rounds.execute (h : Rounds i f) (σ : RegisterFile) :
    ∃ v, i.execute? σ = some (Function.update σ f v) ∧ Region.IsOffset v ∧
      v.toNat % Bundle.size = 0 := by
  obtain ⟨mask, hmask, hs⟩ := h
  have hrun := hs.execute (hs.result_and σ)
  rw [Register.write_dword] at hrun
  refine ⟨_, hrun, lower_half_offset _, ?_⟩
  -- The mask ends in five zeros, and so does what it leaves.
  have hlow : (BitVec.ofInt 64 mask).toNat % Bundle.size = 0 := by
    rw [BitVec.toNat_ofInt, Bundle.size]
    omega
  have hand (a b : Nat) (hb : b % Bundle.size = 0) : (a &&& b) % Bundle.size = 0 := by
    have hmod : (a &&& b) % Bundle.size = (a % Bundle.size) &&& (b % Bundle.size) :=
      Nat.and_mod_two_pow (n := 5)
    rw [hmod, hb, Nat.and_zero]
  have hmasked := hand ((Register.dword f).read σ).toNat _ hlow
  rw [← BitVec.toNat_and] at hmasked
  rw [lower_half_to_nat, Nat.mod_mod_of_dvd _ (by decide)]
  exact hmasked

theorem rebases_execute (h : i.Rebases f) (σ : RegisterFile) :
    i.execute? σ = some (Function.update σ f (σ f + σ .r15)) := by
  simpa using Instruction.Spells.execute h (Instruction.Spells.result_add h σ)

/-- A pointer's lower half is copied to itself. -/
theorem truncates_execute
    (h : move.Spells "mov" [.register (.dword f), .register (.dword f)]) (σ : RegisterFile) :
    ∃ v, move.execute? σ = some (Function.update σ f v) ∧ Region.IsOffset v := by
  have hrun := h.execute (h.result_mov σ)
  rw [Register.write_dword] at hrun
  exact ⟨_, hrun, lower_half_offset _⟩

theorem loads_execute (h : load.Spells "lea" [.register (.qword f),
      .memory { base := some (.qword .r15), index := some (.qword f) }]) (σ : RegisterFile) :
    load.execute? σ = some (Function.update σ f (σ f + σ .r15)) := by
  have hrun := h.execute (h.result_lea rfl σ)
  rw [Register.write_qword] at hrun
  rw [hrun]
  congr 2
  apply BitVec.eq_of_toNat_eq
  simp only [Memory.address, Register.addend_qword, BitVec.toNat_ofInt, BitVec.toNat_add]
  omega

/-- The registers that are moved to the base point into the sandbox, and the others stay as they
are. -/
theorem Rebasing.execute (h : Rebasing code fs) (σ : RegisterFile)
    (hbase : (σ .r15).toNat = g.base) (hfree : .r15 ∉ fs) :
    ∃ τ, Instruction.executeAll? code σ = some τ ∧ (∀ f, f ∉ fs → τ f = σ f) ∧
      ∀ f ∈ fs, g.Holds (τ f) := by
  -- The base register is not among those that are moved, so it serves each in turn.
  induction h generalizing σ with
  | nil => exact ⟨σ, rfl, fun _ _ => rfl, by simp⟩
  | cons f move load code fs truncates adds rest ih =>
    obtain ⟨v, hmove, hv⟩ := truncates_execute truncates σ
    have hload := loads_execute adds (Function.update σ f v)
    have hne : (.r15 : Family) ≠ f := by
      rintro rfl
      simp at hfree
    rw [Function.update_self, Function.update_of_ne hne, Function.update_idem] at hload
    have hkept : Function.update σ f (v + σ .r15) .r15 = σ .r15 := Function.update_of_ne hne _ _
    obtain ⟨τ, hrun, hframe, hholds⟩ := ih (Function.update σ f (v + σ .r15))
      (by rw [hkept, hbase]) (fun hmem => hfree (List.mem_cons_of_mem f hmem))
    refine ⟨τ, ?_, ?_, ?_⟩
    · simp only [Instruction.executeAll?, List.foldlM_cons, hmove, hload, Option.bind_eq_bind,
        Option.bind_some]
      exact hrun
    · intro x hx
      rw [List.mem_cons, not_or] at hx
      rw [hframe x hx.2, Function.update_of_ne hx.1]
    · intro x hx
      by_cases hlater : x ∈ fs
      · exact hholds x hlater
      · have he : x = f := by simpa [hlater] using hx
        subst he
        rw [hframe x hlater, Function.update_self]
        exact Region.holds_add hv hbase

end Rule

/-- What is so when the last instruction of an idiom comes. The sandbox pointers are as before, and
the registers that the instruction relies on point into the sandbox. The target of a branch is the
start of a bundle, too. -/
structure Region.Confines (g : Region) (σ τ : RegisterFile) (last : Instruction) : Prop where
  kept : ∀ f, f.pointsIntoSandbox = true → τ f = σ f
  target : ∀ r, last.branchRegister? = some r →
    (r.read τ).toNat % Bundle.size = 0 ∧ g.Holds (r.read τ)
  strings : ∀ f ∈ Rule.stringPointers last.mnemonic, g.Holds (τ f)
  relies : (∃ r, last.branchRegister? = some r) ∨ Rule.stringPointers last.mnemonic ≠ []

namespace Rule
variable {g : Region} {σ : RegisterFile} {f : Family} {front : List Instruction}
  {mask rebase jump last : Instruction}

/-- The base is a bundle start, so adding it to the offset of one gives one. -/
theorem rebased_jump_confines (rounds : Rounds mask f) (adds : rebase.Rebases f)
    (goes : GoesThrough jump (.qword f)) (free : f.pointsIntoSandbox = false)
    (hbase : (σ .r15).toNat = g.base) :
    ∃ τ, Instruction.executeAll? [mask, rebase] σ = some τ ∧ g.Confines σ τ jump := by
  obtain ⟨v, hmask, hv, hround⟩ := rounds.execute σ
  have hadd := rebases_execute adds (Function.update σ f v)
  have hother {x : Family} (hx : x.pointsIntoSandbox = true) : x ≠ f := by
    rintro rfl
    simp [free] at hx
  rw [Function.update_self, Function.update_of_ne (hother rfl), Function.update_idem] at hadd
  have hholds := Region.holds_add hv hbase
  have haligned : (v + σ .r15).toNat % Bundle.size = 0 := by
    have hwhole := g.aligned
    rw [BitVec.toNat_add]
    simp only [Bundle.size, Region.span] at hround hwhole ⊢
    omega
  refine ⟨Function.update σ f (v + σ .r15), ?_, ?_, ?_, ?_, ?_⟩
  · simp [Instruction.executeAll?, hmask, hadd]
  · intro x hx
    exact Function.update_of_ne (hother hx) _ _
  · intro r hr
    cases (branch_register_iff.mpr goes).symm.trans hr
    simpa using And.intro haligned hholds
  · simp [branch_uses_no_string goes.1]
  · exact Or.inl ⟨_, branch_register_iff.mpr goes⟩

theorem string_confines {fs : List Family} (rebasing : Rebasing front fs)
    (uses : fs.Perm (stringPointers last.mnemonic)) (used : fs ≠ [])
    (hbase : (σ .r15).toNat = g.base) :
    ∃ τ, Instruction.executeAll? front σ = some τ ∧ g.Confines σ τ last := by
  have hpointers := string_pointers_ne uses used
  have hfree {x : Family} (hx : x.pointsIntoSandbox = true) : x ∉ fs := by
    intro hmem
    rcases string_pointer (uses.mem_iff.mp hmem) with rfl | rfl <;> cases hx
  obtain ⟨τ, hrun, hframe, hholds⟩ := rebasing.execute σ hbase (hfree rfl)
  refine ⟨τ, hrun, ?_, ?_, ?_, Or.inr hpointers⟩
  · intro x hx
    exact hframe x (hfree hx)
  · intro r hr
    have hgoes := branch_register_iff.mp hr
    exact absurd (branch_uses_no_string hgoes.1) hpointers
  · intro x hx
    exact hholds x (uses.mem_iff.mpr hx)

theorem masked_jump_confines (rounds : Rounds mask f) (goes : GoesThrough jump (.dword f))
    (free : f ≠ .rsp) (σ : RegisterFile) :
    ∃ τ r, mask.execute? σ = some τ ∧ jump.branchRegister? = some r ∧ r.isDword = true ∧
      (r.read τ).toNat % Bundle.size = 0 ∧ (Register.dword .rsp).read τ =
        (Register.dword .rsp).read σ := by
  obtain ⟨v, hmask, hv, hround⟩ := rounds.execute σ
  refine ⟨_, .dword f, hmask, branch_register_iff.mpr goes, rfl, ?_, ?_⟩
  · rw [Register.read_dword, Function.update_self, lower_half_to_nat, Nat.mod_eq_of_lt hv]
    exact hround
  · simp [Function.update_of_ne free.symm]

end Rule

/-- Whatever the registers hold, the instructions of an accepted idiom before its last one can be
executed, and then the last one stays in the sandbox. In 64-bit code, where the base register holds
the base of the sandbox, a branch goes to a bundle start in it and a string operation uses pointers
into it, while the sandbox pointers are as before. In 32-bit code the branch goes to a bundle start,
and the stack pointer is as before. -/
theorem idiom_confines (code : List Instruction) (σ : RegisterFile) :
    (∀ g : Region, Rule.idiom .bits64 code = .accept () → (σ .r15).toNat = g.base →
      ∃ front last τ, code = front ++ [last] ∧ Instruction.executeAll? front σ = some τ ∧
        g.Confines σ τ last) ∧
    (Rule.idiom .bits32 code = .accept () →
      ∃ mask jump τ r, code = [mask, jump] ∧ mask.execute? σ = some τ ∧
        jump.branchRegister? = some r ∧ r.isDword = true ∧
        (r.read τ).toNat % Bundle.size = 0 ∧
        (Register.dword .rsp).read τ = (Register.dword .rsp).read σ) := by
  constructor
  · intro g accepted base
    have hmatch : Rule.idiom .bits64 code ≠ .noMatch := by simp [accepted]
    obtain ⟨front, last, hcode, hguarded⟩ := Rule.idiom_shape hmatch
    cases hguarded with
    | rebased f mask rebase jump rounds adds goes free =>
      obtain ⟨τ, hrun, hconfines⟩ := Rule.rebased_jump_confines rounds adds goes free base
      exact ⟨_, _, τ, hcode, hrun, hconfines⟩
    | string _ _ fs rebasing uses used =>
      obtain ⟨τ, hrun, hconfines⟩ := Rule.string_confines rebasing uses used base
      exact ⟨_, _, τ, hcode, hrun, hconfines⟩
  · intro accepted
    have hmatch : Rule.idiom .bits32 code ≠ .noMatch := by simp [accepted]
    obtain ⟨front, last, hcode, hguarded⟩ := Rule.idiom_shape hmatch
    cases hguarded with
    | masked f mask jump rounds goes free =>
      obtain ⟨τ, r, hrun, hconfined⟩ := Rule.masked_jump_confines rounds goes free σ
      exact ⟨mask, last, τ, r, hcode, hrun, hconfined⟩

namespace Sample

/-- An indirect jump whose mask has bits beyond those of the register. -/
def wideMaskJump : List Instruction :=
  [{ roundTarget with operands := [.register (.dword .rax), .immediate 0x5ffffffe0] },
    rebaseTarget, jumpThrough]

def flatJump : List Instruction :=
  [roundTarget, { jumpThrough with operands := [.register (.dword .rax)] }]

end Sample

theorem idiom_confines_jump :
    Rule.idiom .bits64 Sample.wideMaskJump = .accept () ∧
      (Sample.registers .r15).toNat = Sample.region.base ∧
      Rule.idiom .bits32 Sample.flatJump = .accept () ∧
      (∃ front last τ, Sample.wideMaskJump = front ++ [last] ∧
        Instruction.executeAll? front Sample.registers = some τ ∧
        Sample.region.Confines Sample.registers τ last) ∧
      ∃ mask jump τ r, Sample.flatJump = [mask, jump] ∧
        mask.execute? Sample.registers = some τ ∧ jump.branchRegister? = some r ∧
        (r.read τ).toNat % Bundle.size = 0 := by
  have wide : Rule.idiom .bits64 Sample.wideMaskJump = .accept () := by decide +kernel
  have flat : Rule.idiom .bits32 Sample.flatJump = .accept () := by decide +kernel
  have base : (Sample.registers .r15).toNat = Sample.region.base := rfl
  obtain ⟨confines, _⟩ := idiom_confines Sample.wideMaskJump Sample.registers
  obtain ⟨_, rounds⟩ := idiom_confines Sample.flatJump Sample.registers
  obtain ⟨mask, jump, τ, r, hcode, hrun, hr, _, hround, _⟩ := rounds flat
  exact ⟨wide, base, flat, confines Sample.region wide base,
    mask, jump, τ, r, hcode, hrun, hr, hround⟩

end FaultIsolation
