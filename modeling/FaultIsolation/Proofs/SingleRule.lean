import FaultIsolation.Rule.Single
import FaultIsolation.Proofs.Operands

namespace FaultIsolation.Rule

@[simp] theorem bind_ok {α β : Type} {x : Except Violation α} {f : α → Except Violation β} {b : β} :
    (x >>= f) = .ok b ↔ ∃ a, x = .ok a ∧ f a = .ok b := by
  cases x <;> simp [bind, Except.bind]

@[simp] theorem of_except_accept {α : Type} {x : Except Violation α} {a : α} :
    Verdict.ofExcept x = .accept a ↔ x = .ok a := by
  cases x <;> simp [Verdict.ofExcept]

inductive Accepted (mode : Mode) (i : Instruction) (op : Opcode) : Effect → Prop where
  /-- A direct branch; a call returns to a bundle start. -/
  | branch (distance : Int) (target : Int)
      (isBranch : op.isBranch = true) (direct : i.operands = [.immediate distance])
      (goes : i.destination? = some target)
      (plain : i.prefixes.lock = false ∧ i.prefixes.rep = false)
      (returns : op.isCall = true → Bundle.starts i.stop = true) :
      Accepted mode i op { jump := some target }
  /-- Anything else in 32-bit code. -/
  | flat (narrow : mode = .bits32) (sequential : op.isBranch = false) : Accepted mode i op {}
  /-- An update of a sandbox pointer. -/
  | update (effect : Effect) (wide : mode = .bits64) (sequential : op.isBranch = false)
      (segment : i.prefixes.segment = false) (form : pointerUpdate? i = some effect) :
      Accepted mode i op effect
  /-- Anything else in 64-bit code. -/
  | access (pre post : Condition) (rs : List Register) (wide : mode = .bits64)
      (sequential : op.isBranch = false) (segment : i.prefixes.segment = false)
      (form : pointerUpdate? i = none)
      (needs : precondition (if op.dereferences then i.memories else []) = .ok pre)
      (writes : written op i = .ok rs) (leaves : postcondition op rs = .ok post) :
      Accepted mode i op { pre, post }

variable {mode : Mode} {i : Instruction} {op : Opcode} {e : Effect}

theorem branch_accepted (hb : op.isBranch = true) (h : branch op i = .accept e) :
    Accepted mode i op e := by
  unfold branch at h
  split at h
  · cases h
  · rename_i target hd
    obtain ⟨_, distance, ho⟩ := Instruction.destination_some hd
    split at h
    · cases h
    · rename_i hp
      split at h
      · cases h
      · rename_i hc
        cases h
        refine .branch distance target hb ho hd (by simpa using hp) ?_
        intro hcall
        simpa [hcall] using hc

theorem sequential_accepted (hb : op.isBranch = false) (h : sequential op i = .accept e) :
    Accepted .bits64 i op e := by
  unfold sequential at h
  split at h
  · cases h
  · rename_i hs
    have hs : i.prefixes.segment = false := by simpa using hs
    split at h
    · rename_i effect hu
      cases h
      exact .update e rfl hb hs hu
    · rename_i hu
      simp only [of_except_accept, bind_ok] at h
      obtain ⟨pre, hpre, rs, hrs, post, hpost, he⟩ := h
      cases he
      exact .access pre post rs rfl hb hs hu hpre hrs hpost

/-- An accepted instruction is in the table and allowed there. -/
theorem single_accepted (h : single mode i = .accept e) :
    ∃ op, i.opcode? = some op ∧ op.isAllowed = true ∧ Accepted mode i op e := by
  unfold single at h
  split at h
  · cases h
  · rename_i op ho
    split at h
    · cases h
    · rename_i ha
      have ha : op.isAllowed = true := by simp_all
      refine ⟨op, ho, ha, ?_⟩
      split at h
      · rename_i hb
        exact branch_accepted hb h
      · rename_i hb
        have hb : op.isBranch = false := by simpa using hb
        cases mode with
        | bits32 => cases h; exact .flat rfl hb
        | bits64 => exact sequential_accepted hb h

/-- A direct call returns to a bundle start. -/
theorem single_returns (h : single mode i = .accept e) (hc : i.isCall = true) :
    Bundle.starts i.stop = true := by
  obtain ⟨op, ho, _, ha⟩ := single_accepted h
  have hcall : op.isCall = true := by simpa [Instruction.isCall, ho] using hc
  have hbranch := Opcode.branch_of_call hcall
  cases ha with
  | branch _ _ _ _ _ _ returns => exact returns hcall
  | flat _ sequential => simp [hbranch] at sequential
  | update _ _ sequential => simp [hbranch] at sequential
  | access _ _ _ _ sequential => simp [hbranch] at sequential

/-- The memory references that stay in the sandbox, with the register that they need
zero-extended. -/
inductive Reference (m : Memory) : Option Family → Prop where
  | relative (base : Register) (based : m.base = some base) (family : base.family = .rip)
      (unindexed : m.index = none) : Reference m none
  | pointer (base : Register) (based : m.base = some base)
      (family : base.family.pointsIntoSandbox = true) (wide : base.isQword = true)
      (unindexed : m.index = none) : Reference m none
  | indexed (base index : Register) (based : m.base = some base)
      (family : base.family.pointsIntoSandbox = true) (wide : base.isQword = true)
      (indexed : m.index = some index) (wideIndex : index.isQword = true)
      (free : index.family.pointsIntoSandbox = false) : Reference m (some index.family)

theorem requirement_ok {m : Memory} {need : Option Family} (h : requirement m = .ok need) :
    Reference m need := by
  unfold requirement at h
  split at h
  · cases h
  · rename_i base hbase
    split at h
    case h_1 hf =>
      split at h
      · rename_i hi
        cases h
        exact .relative base hbase hf hi
      · cases h
    case h_5 => cases h
    -- The three sandbox pointers are treated alike.
    all_goals
      rename_i hf
      have hp : base.family.pointsIntoSandbox = true := by simp [hf, Family.pointsIntoSandbox]
      split at h
      · rename_i hq
        split at h
        · rename_i hi
          cases h
          exact .pointer base hbase hp hq hi
        · rename_i index hi
          split at h
          · cases h
          · rename_i hw
            split at h
            · cases h
            · rename_i hx
              cases h
              exact .indexed base index hbase hp hq hi (by simpa using hw) (by simpa using hx)
      · cases h

structure References (ms : List Memory) (c : Condition) : Prop where
  each : ∀ m ∈ ms, ∃ need, Reference m need ∧ ∀ f, need = some f → c = .zeroExtended f
  needed : c = .default ∨ ∃ m ∈ ms, ∃ f, Reference m (some f) ∧ c = .zeroExtended f

theorem require_ok {c d : Condition} {need : Option Family} (h : require c need = .ok d) :
    (∀ f, c = .zeroExtended f → d = .zeroExtended f) ∧
      (∀ f, need = some f → d = .zeroExtended f) ∧
      (d = c ∨ ∃ f, need = some f ∧ d = .zeroExtended f) := by
  cases need with
  | none => cases h; simp
  | some f =>
    simp only [require] at h
    split at h
    · rename_i hc
      cases h
      rcases hc with rfl | rfl <;> simp
    · cases h

theorem precondition_from {ms : List Memory} {c d : Condition}
    (h : ms.foldlM (fun c m => do require c (← requirement m)) c = .ok d) :
    (∀ f, c = .zeroExtended f → d = .zeroExtended f) ∧
      (∀ m ∈ ms, ∃ need, Reference m need ∧ ∀ f, need = some f → d = .zeroExtended f) ∧
      (d = c ∨ ∃ m ∈ ms, ∃ f, Reference m (some f) ∧ d = .zeroExtended f) := by
  -- The first part carries the induction: what one reference needs is still there at the end.
  induction ms generalizing c with
  | nil => cases h; simp
  | cons m ms ih =>
    simp only [List.foldlM_cons, bind_ok] at h
    obtain ⟨mid, ⟨need, hneed, hreq⟩, hrest⟩ := h
    have hm := requirement_ok hneed
    obtain ⟨hkeep, hgets, hfrom⟩ := require_ok hreq
    obtain ⟨hkeeps, heach, hfroms⟩ := ih hrest
    refine ⟨fun f hf => hkeeps f (hkeep f hf), ?_, ?_⟩
    · intro x hx
      rcases List.mem_cons.mp hx with rfl | hx
      · exact ⟨need, hm, fun f hf => hkeeps f (hgets f hf)⟩
      · exact heach x hx
    · rcases hfroms with rfl | ⟨x, hx, hr⟩
      · rcases hfrom with rfl | ⟨f, rfl, hd⟩
        · exact Or.inl rfl
        · exact Or.inr ⟨m, by simp, f, hm, hd⟩
      · exact Or.inr ⟨x, by simp [hx], hr⟩

theorem precondition_ok {ms : List Memory} {c : Condition} (h : precondition ms = .ok c) :
    References ms c :=
  have hfrom := precondition_from h
  ⟨hfrom.2.1, hfrom.2.2⟩

theorem written_ok {rs : List Register} (ho : i.opcode? = some op) (h : written op i = .ok rs) :
    op.writes ≠ .frame ∧ i.destinations = rs := by
  rw [Instruction.destinations_eq ho]
  unfold written at h
  cases hw : op.writes <;> simp only [hw] at h <;> cases h
  case firstOfSeveral =>
    by_cases hl : 2 ≤ i.operands.length <;>
      cases hr : i.register? 0 <;> simp [Writes.positions, hl, hr]
  case firstTwo =>
    cases hr : i.register? 0 <;> cases hs : i.register? 1 <;> simp [Writes.positions, hr, hs]
  case first => cases hr : i.register? 0 <;> simp [Writes.positions, hr]
  case nothing => simp [Writes.positions]

inductive Written (op : Opcode) (r : Register) : Condition → Prop where
  /-- A sandbox pointer other than the base is only ever truncated. -/
  | truncation (pointer : r.family = .rsp ∨ r.family = .rbp) (narrow : r.isDword = true)
      (extended : op.zeroExtends = true) : Written op r (.truncated r.family)
  | extension (free : r.family.pointsIntoSandbox = false) (narrow : r.isDword = true)
      (extended : op.zeroExtends = true) : Written op r (.zeroExtended r.family)
  | other (free : r.family.pointsIntoSandbox = false) : Written op r .default

theorem after_write_ok {r : Register} {c : Condition} (h : afterWrite op r = .ok c) :
    Written op r c := by
  unfold afterWrite at h
  split at h
  case h_1 => cases h
  case h_4 h15 hsp hbp =>
    have hfree : r.family.pointsIntoSandbox = false := by
      cases hf : r.family <;> simp_all [Family.pointsIntoSandbox]
    split at h
    · rename_i hz
      cases h
      simp only [Bool.and_eq_true] at hz
      exact .extension hfree hz.1 hz.2
    · cases h
      exact .other hfree
  all_goals
    rename_i hf
    split at h
    · rename_i hz
      cases h
      simp only [Bool.and_eq_true] at hz
      exact .truncation (by simp [hf]) hz.1 hz.2
    · split at h <;> cases h

theorem combine_ok {a b c : Condition} (h : combine a b = .ok c) :
    (∀ f, a = .truncated f ∨ b = .truncated f → c = .truncated f) ∧ (c = a ∨ c = b) := by
  cases a <;> cases b <;> simp only [combine] at h
  case truncated.truncated f g =>
    split at h
    · rename_i hfg
      cases h
      simp [hfg]
    · cases h
  all_goals
    cases h
    simp

theorem postcondition_from {rs : List Register} {c d : Condition}
    (h : rs.foldlM (fun c r => do combine c (← afterWrite op r)) c = .ok d) :
    (∀ f, c = .truncated f → d = .truncated f) ∧
      (∀ r ∈ rs, ∃ w, Written op r w ∧ ∀ f, w = .truncated f → d = .truncated f) ∧
      (d = c ∨ ∃ r ∈ rs, Written op r d) := by
  -- As for the references, except that only a truncation is sure to last.
  induction rs generalizing c with
  | nil => cases h; simp
  | cons r rs ih =>
    simp only [List.foldlM_cons, bind_ok] at h
    obtain ⟨mid, ⟨w, hw, hmid⟩, hrest⟩ := h
    have hr := after_write_ok hw
    obtain ⟨htrunc, hfrom⟩ := combine_ok hmid
    obtain ⟨hkeeps, heach, hfroms⟩ := ih hrest
    refine ⟨fun f hf => hkeeps f (htrunc f (Or.inl hf)), ?_, ?_⟩
    · intro x hx
      rcases List.mem_cons.mp hx with rfl | hx
      · exact ⟨w, hr, fun f hf => hkeeps f (htrunc f (Or.inr hf))⟩
      · exact heach x hx
    · rcases hfroms with rfl | ⟨x, hx, hd⟩
      · rcases hfrom with rfl | rfl
        · exact Or.inl rfl
        · exact Or.inr ⟨r, by simp, hr⟩
      · exact Or.inr ⟨x, by simp [hx], hd⟩

/-- Every write is allowed, a truncated pointer is not forgotten, and nothing is left behind that no
write left. -/
structure WrittenAll (op : Opcode) (rs : List Register) (c : Condition) : Prop where
  each : ∀ r ∈ rs, ∃ w, Written op r w ∧ ∀ f, w = .truncated f → c = .truncated f
  left : c = .default ∨ ∃ r ∈ rs, Written op r c

theorem postcondition_ok {rs : List Register} {c : Condition} (h : postcondition op rs = .ok c) :
    WrittenAll op rs c :=
  have hfrom := postcondition_from h
  ⟨hfrom.2.1, hfrom.2.2⟩

/-- The updates of a sandbox pointer, with what they need. None leaves anything behind. -/
inductive PointerUpdate (i : Instruction) : Condition → Prop where
  | copy (form : i.CopiesPointer) : PointerUpdate i .default
  | rebase (f : Family) (pointer : f = .rsp ∨ f = .rbp) (form : i.Rebases f) :
      PointerUpdate i (.truncated f)
  | align (form : i.AlignsStack) : PointerUpdate i .default

theorem pointer_update_some (h : pointerUpdate? i = some e) :
    PointerUpdate i e.pre ∧ e = { pre := e.pre } := by
  simp only [pointerUpdate?] at h
  split at h
  · rename_i hm
    cases h
    exact ⟨.copy (by simpa [Instruction.CopiesPointer, Instruction.is_pair_iff] using hm), rfl⟩
  · split at h
    · rename_i ha
      cases h
      exact ⟨.rebase .rsp (Or.inl rfl) (Instruction.is_pair_iff.mp ha), rfl⟩
    · split at h
      · rename_i ha
        cases h
        exact ⟨.rebase .rbp (Or.inr rfl) (Instruction.is_pair_iff.mp ha), rfl⟩
      · split at h
        · rename_i hn
          cases h
          simp only [Bool.and_eq_true, beq_iff_eq, Option.any_eq_true, decide_eq_true_eq] at hn
          obtain ⟨⟨hand, hreg⟩, mask, himm, hneg⟩ := hn
          exact ⟨.align ⟨hand, hreg, mask, hneg, himm⟩, rfl⟩
        · cases h

/-- Adding the base to a pointer is never judged as an ordinary write. -/
theorem pointer_update_rebase {f : Family} (hf : f = .rsp ∨ f = .rbp)
    (h : i.Rebases f) : pointerUpdate? i = some { pre := .truncated f } := by
  obtain ⟨hm, ho⟩ := h
  rcases hf with rfl | rfl <;> simp [pointerUpdate?, Instruction.isPair, hm, ho, Register.qword]

theorem pointer_update_copy (h : i.CopiesPointer) : pointerUpdate? i = some {} := by
  rcases h with ⟨hm, ho⟩ | ⟨hm, ho⟩ <;> simp [pointerUpdate?, Instruction.isPair, hm, ho]

theorem pointer_update_align (h : i.AlignsStack) : pointerUpdate? i = some {} := by
  obtain ⟨hm, hr, mask, hneg, hi⟩ := h
  simp [pointerUpdate?, Instruction.isPair, hm, hr, hi, hneg]

theorem PointerUpdate.first {c : Condition} (h : PointerUpdate i c) :
    ∃ r, i.register? 0 = some r := by
  cases h with
  | copy form => exact form.elim (fun form => ⟨_, form.first⟩) fun form => ⟨_, form.first⟩
  | rebase f _ form => exact ⟨_, form.first⟩
  | align form => exact ⟨_, form.2.1⟩

/-- An update is accepted with the effect of its form. -/
theorem single_update {effect : Effect} (h : single .bits64 i = .accept e)
    (hu : pointerUpdate? i = some effect) : e = effect := by
  obtain ⟨op, ho, _, ha⟩ := single_accepted h
  cases ha with
  | branch _ _ _ direct =>
    obtain ⟨r, hr⟩ := (pointer_update_some hu).1.first
    simp [Instruction.register_iff, direct] at hr
  | flat narrow => cases narrow
  | update _ _ _ _ form => exact Option.some.inj (form.symm.trans hu)
  | access _ _ _ _ _ _ form => simp [hu] at form

/-- Where the rebasing of a pointer is accepted, the pointer has to be truncated before. -/
theorem single_rebase {f : Family} (h : single .bits64 i = .accept e) (hf : f = .rsp ∨ f = .rbp)
    (hr : i.Rebases f) : e.pre = .truncated f := by
  rw [single_update h (pointer_update_rebase hf hr)]

theorem written_zero_extends {rs : List Register} {r : Register} (ho : i.opcode? = some op)
    (hrs : i.destinations = rs) (hr : r ∈ rs) (hd : r.isDword = true)
    (hz : op.zeroExtends = true) : i.ZeroExtends r.family := by
  rw [Register.eq_dword hd] at hr
  exact ⟨hrs ▸ hr, by simp [ho, hz]⟩

/-- What an accepted instruction leaves behind is about a register that it zero-extended. -/
theorem single_leaves (h : single mode i = .accept e) (hn : e.post ≠ .default) :
    ∃ f, i.ZeroExtends f ∧ (e.post = .truncated f ∨ e.post = .zeroExtended f) := by
  obtain ⟨op, ho, _, ha⟩ := single_accepted h
  cases ha with
  | branch => exact absurd rfl hn
  | flat => exact absurd rfl hn
  | update _ _ _ _ form =>
    rw [(pointer_update_some form).2] at hn
    exact absurd rfl hn
  | access pre post rs _ _ _ _ _ writes leaves =>
    rcases (postcondition_ok leaves).left with hdef | ⟨r, hr, hw⟩
    · exact absurd hdef hn
    · have hrs := (written_ok ho writes).2
      cases hw with
      | truncation _ hd hz =>
        exact ⟨r.family, written_zero_extends ho hrs hr hd hz, Or.inl rfl⟩
      | extension _ hd hz =>
        exact ⟨r.family, written_zero_extends ho hrs hr hd hz, Or.inr rfl⟩
      | other => exact absurd rfl hn

theorem single_segment (h : single .bits64 i = .accept e) (ho : i.opcode? = some op)
    (hb : op.isBranch = false) : i.prefixes.segment = false := by
  obtain ⟨row, hrow, _, ha⟩ := single_accepted h
  cases ho.symm.trans hrow
  cases ha with
  | branch _ _ isBranch => simp [hb] at isBranch
  | flat narrow => cases narrow
  | update _ _ _ segment => exact segment
  | access _ _ _ _ _ segment => exact segment

/-- The memory references of an accepted instruction stay in the sandbox. -/
theorem single_references (h : single .bits64 i = .accept e) (ho : i.opcode? = some op)
    (hd : op.dereferences = true) (hu : pointerUpdate? i = none) :
    References i.memories e.pre := by
  obtain ⟨row, hrow, _, ha⟩ := single_accepted h
  cases ho.symm.trans hrow
  cases ha with
  | branch _ _ _ direct =>
    -- A direct branch has no memory operand.
    have hnil : i.memories = [] := by simp [Instruction.memories, direct, Operand.memory?]
    rw [hnil]
    exact precondition_ok rfl
  | flat narrow => cases narrow
  | update _ _ _ _ form => simp [hu] at form
  | access _ _ _ _ _ _ _ needs _ _ =>
    rw [hd, if_pos rfl] at needs
    exact precondition_ok needs

inductive Needs (i : Instruction) (op : Opcode) : Condition → Prop where
  | rebase (f : Family) (pointer : f = .rsp ∨ f = .rbp) (form : i.Rebases f) :
      Needs i op (.truncated f)
  | access (m : Memory) (f : Family) (form : pointerUpdate? i = none)
      (dereferences : op.dereferences = true) (mem : m ∈ i.memories)
      (reference : Reference m (some f)) : Needs i op (.zeroExtended f)

theorem single_needs (h : single mode i = .accept e) (hn : e.pre ≠ .default) :
    ∃ op, i.opcode? = some op ∧ Needs i op e.pre := by
  obtain ⟨op, ho, _, ha⟩ := single_accepted h
  refine ⟨op, ho, ?_⟩
  cases ha with
  | branch => exact absurd rfl hn
  | flat => exact absurd rfl hn
  | update _ _ _ _ form =>
    have hu := (pointer_update_some form).1
    generalize e.pre = c at hn hu
    cases hu with
    | copy => exact absurd rfl hn
    | rebase f pointer form => exact .rebase f pointer form
    | align => exact absurd rfl hn
  | access pre post rs _ _ _ form needs _ _ =>
    rcases (precondition_ok needs).needed with hdef | ⟨m, hm, f, href, hpre⟩
    · exact absurd hdef hn
    · cases hd : op.dereferences with
      | false => simp [hd] at hm
      | true =>
        rw [hd, if_pos rfl] at hm
        dsimp only
        rw [hpre]
        exact .access m f form hd hm href

end FaultIsolation.Rule
