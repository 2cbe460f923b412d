import FaultIsolation.Proofs.Carrying

namespace FaultIsolation

namespace Rule
variable {i : Instruction} {e : Effect} {r : Register} {c : Condition} {f : Family}

theorem PointerUpdate.opcode (h : PointerUpdate i c) :
    ∃ op, i.opcode? = some op ∧ op.writes = .first := by
  have first {m : String} (hm : i.mnemonic = m)
      (ht : (Opcode.find? m).map Opcode.writes = some .first) :
      ∃ op, i.opcode? = some op ∧ op.writes = .first := by
    rw [Instruction.opcode?, hm]
    exact Option.map_eq_some_iff.mp ht
  cases h with
  | copy form => exact first (form.elim And.left And.left) (by decide +kernel)
  | rebase f _ form => exact first form.1 (by decide +kernel)
  | align form => exact first form.1 (by decide +kernel)

/-- An update writes a pointer that it keeps in the sandbox or moves back there. -/
theorem PointerUpdate.writes (h : PointerUpdate i c) (hr : r ∈ i.destinations) :
    (r.family = .rsp ∨ r.family = .rbp) ∧
      (i.CopiesPointer ∨ i.AlignsStack ∨ i.Rebases r.family) := by
  obtain ⟨op, ho, hw⟩ := h.opcode
  have one {s : Register} (hs : i.register? 0 = some s) : r = s := by
    rw [Instruction.destinations_first hs ho hw] at hr
    exact List.mem_singleton.mp hr
  cases h with
  | copy form =>
    refine ⟨?_, Or.inl form⟩
    rcases form with form | form
    · exact Or.inl (congrArg Register.family (one form.first))
    · exact Or.inr (congrArg Register.family (one form.first))
  | rebase f pointer form =>
    have hf := one form.first
    subst hf
    exact ⟨pointer, Or.inr (Or.inr form)⟩
  | align form => exact ⟨Or.inl (congrArg Register.family (one form.2.1)), Or.inr (Or.inl form)⟩

/-- An instruction that is accepted on its own writes a sandbox pointer only in an update or by
truncating it, which it then leaves to be rebased. -/
theorem single_pointer_write (h : single .bits64 i = .accept e) (hr : r ∈ i.destinations)
    (hp : r.family.pointsIntoSandbox = true) :
    (r.family = .rsp ∨ r.family = .rbp) ∧
      (i.CopiesPointer ∨ i.AlignsStack ∨ i.Rebases r.family ∨
        r = .dword r.family ∧ i.ZeroExtends r.family ∧ e.post = .truncated r.family) := by
  obtain ⟨op, ho, _, ha⟩ := single_accepted h
  cases ha with
  | branch _ _ isBranch =>
    rw [Instruction.destinations_eq ho, Instruction.branch_writes ho isBranch] at hr
    cases hr
  | flat narrow => cases narrow
  | update _ _ _ _ form =>
    obtain ⟨hf, hu⟩ := (pointer_update_some form).1.writes hr
    exact ⟨hf, hu.imp_right (Or.imp_right Or.inl)⟩
  | access pre post rs _ _ _ _ _ writes leaves =>
    have hrs := (written_ok ho writes).2
    obtain ⟨w, hw, hkeep⟩ := (postcondition_ok leaves).each r (hrs ▸ hr)
    cases hw with
    | truncation pointer narrow extended =>
      exact ⟨pointer, Or.inr (Or.inr (Or.inr ⟨Register.eq_dword narrow,
        written_zero_extends ho hrs (hrs ▸ hr) narrow extended, hkeep _ rfl⟩))⟩
    | extension free => simp [free] at hp
    | other free => simp [free] at hp

theorem single_no_frame (h : single .bits64 i = .accept e) :
    ∃ op, i.opcode? = some op ∧ op.writes ≠ .frame := by
  obtain ⟨op, ho, _, ha⟩ := single_accepted h
  cases ha with
  | branch _ _ isBranch => exact ⟨op, ho, by simp [Instruction.branch_writes ho isBranch]⟩
  | flat narrow => cases narrow
  | update _ _ _ _ form =>
    obtain ⟨row, hrow, hw⟩ := (pointer_update_some form).1.opcode
    exact ⟨row, hrow, by simp [hw]⟩
  | access _ _ rs _ _ _ _ _ writes _ => exact ⟨op, ho, (written_ok ho writes).1⟩

end Rule

section
variable {size : Nat} {code before after : List Instruction} {i : Instruction} {e : Effect}
  {f : Family} {r : Register}

/-- In 64-bit code no instruction of an idiom writes a sandbox pointer or builds a frame. -/
theorem Accepts.idiom_member {head : Instruction} {tail : List Instruction}
    (h : Accepts .bits64 size code) (hu : .idiom head tail ∈ sandboxUnits .bits64 code)
    (hi : i ∈ head :: tail) :
    (∀ r ∈ i.destinations, r.family.pointsIntoSandbox = false) ∧
      ∃ op, i.opcode? = some op ∧ op.writes ≠ .frame := by
  obtain ⟨front, last, hcode, hg⟩ := h.guarded hu
  rw [hcode, List.mem_append, List.mem_singleton] at hi
  rcases hi with hi | rfl
  · obtain ⟨r, ⟨⟨op, ho, _, _, hw⟩, hd⟩, hfree⟩ := hg.front hi
    exact ⟨by simpa [hd] using hfree rfl, op, ho, by simp [hw]⟩
  · obtain ⟨op, ho, hw, _⟩ := hg.last
    refine ⟨?_, op, ho, by simp [hw]⟩
    simp [Instruction.destinations_eq ho, hw, Writes.positions]

/-- A sandbox pointer is written by an instruction on its own. -/
theorem Accepts.pointer_write (h : Accepts .bits64 size code) (hi : i ∈ code)
    (hr : r ∈ i.destinations) (hp : r.family.pointsIntoSandbox = true) :
    ∃ e, .single i e ∈ sandboxUnits .bits64 code ∧ (r.family = .rsp ∨ r.family = .rbp) ∧
      (i.CopiesPointer ∨ i.AlignsStack ∨ i.Rebases r.family ∨
        r = .dword r.family ∧ i.ZeroExtends r.family ∧ e.post = .truncated r.family) := by
  rcases h.unit_of hi with ⟨e, hu⟩ | ⟨head, tail, hu, hm⟩
  · exact ⟨e, hu, Rule.single_pointer_write (h.single hu) hr hp⟩
  · -- The idioms keep to other registers.
    simp [(h.idiom_member hu hm).1 r hr] at hp

theorem Accepts.no_frame (h : Accepts .bits64 size code) (hi : i ∈ code) :
    ∃ op, i.opcode? = some op ∧ op.writes ≠ .frame := by
  rcases h.unit_of hi with ⟨e, hu⟩ | ⟨head, tail, hu, hm⟩
  · exact Rule.single_no_frame (h.single hu)
  · exact (h.idiom_member hu hm).2

/-- An instruction that rebases a pointer was accepted on its own and needs it truncated. -/
theorem Accepts.rebase_needs (h : Accepts .bits64 size code) (hi : i ∈ code)
    (hf : f = .rsp ∨ f = .rbp) (hr : i.Rebases f) :
    ∃ e, .single i e ∈ sandboxUnits .bits64 code ∧ e.pre = .truncated f := by
  have hd : i.destinations = [.qword f] :=
    (Rule.Prepares.of_spells { mnemonic := "add" } hr (by decide +kernel) rfl rfl rfl).writes
  have hp : f.pointsIntoSandbox = true :=
    Family.points_into_sandbox_iff.mpr (hf.imp_right Or.inl)
  obtain ⟨e, hu, _⟩ := h.pointer_write (r := .qword f) hi (by simp [hd]) hp
  exact ⟨e, hu, Rule.single_rebase (h.single hu) hf hr⟩

/-- A pointer that an instruction leaves truncated is rebased by the next one. -/
theorem Accepts.rebased_after (h : Accepts .bits64 size code) (tiles : Tiles 0 code size)
    (hu : .single i e ∈ sandboxUnits .bits64 code) (hc : code = before ++ i :: after)
    (hp : e.post = .truncated f) :
    ∃ j back, after = j :: back ∧ j.Rebases f ∧ Bundle.Holds i.address j.stop := by
  obtain ⟨j, e', back, hafter, hj, hpre, hbundle⟩ := h.needed_after tiles hu hc hp
  obtain ⟨op, _, hneeds⟩ := Rule.single_needs (h.single hj) (by simp [hpre])
  rw [hpre] at hneeds
  cases hneeds with
  | rebase _ _ form => exact ⟨j, back, hafter, form, hbundle⟩

/-- In accepted 64-bit code no instruction writes the base register or builds a stack frame. One
that writes the stack or frame pointer copies one to the other, aligns the stack, rebases the
pointer, or truncates it, and then the next instruction, in the same bundle, rebases it. A pointer
is rebased only where the instruction before, in the same bundle, truncated it. -/
theorem sandbox_pointer_discipline (tiles : Tiles 0 code size)
    (accepted : Accepts .bits64 size code) (place : code = before ++ i :: after) :
    (∀ r ∈ i.destinations, r.family ≠ .r15) ∧ Text.lower i.mnemonic ∉ ["leave", "enter"] ∧
      (∀ r ∈ i.destinations, r.family = .rsp ∨ r.family = .rbp →
        i.CopiesPointer ∨ i.AlignsStack ∨ i.Rebases r.family ∨
          r = .dword r.family ∧ i.ZeroExtends r.family ∧
            ∃ j back, after = j :: back ∧ j.Rebases r.family ∧ Bundle.Holds i.address j.stop) ∧
      ∀ f, f = .rsp ∨ f = .rbp → i.Rebases f →
        ∃ front j, before = front ++ [j] ∧ j.ZeroExtends f ∧ Bundle.Holds j.address i.stop := by
  have hi : i ∈ code := by simp [place]
  refine ⟨?_, ?_, ?_, ?_⟩
  · intro r hr h15
    have hp : r.family.pointsIntoSandbox = true := by simp [h15, Family.pointsIntoSandbox]
    obtain ⟨_, _, hf, _⟩ := accepted.pointer_write hi hr hp
    simp [h15] at hf
  · intro hm
    obtain ⟨op, ho, hw⟩ := accepted.no_frame hi
    exact hw (Instruction.frame_writes ho hm)
  · intro r hr hf
    have hp : r.family.pointsIntoSandbox = true :=
      Family.points_into_sandbox_iff.mpr (hf.imp_right Or.inl)
    obtain ⟨e, hu, _, h | h | h | ⟨hd, hz, hpost⟩⟩ := accepted.pointer_write hi hr hp
    · exact Or.inl h
    · exact Or.inr (Or.inl h)
    · exact Or.inr (Or.inr (Or.inl h))
    · have hnext := accepted.rebased_after tiles hu place hpost
      exact Or.inr (Or.inr (Or.inr ⟨hd, hz, hnext⟩))
  · intro f hf hr
    obtain ⟨e, hu, hpre⟩ := accepted.rebase_needs hi hf hr
    obtain ⟨front, j, _, hb, _, hbundle, hz⟩ :=
      accepted.extended_before tiles hu place (Or.inl hpre)
    exact ⟨front, j, hb, hz, hbundle⟩

theorem sandbox_pointer_discipline_truncate :
    Tiles 0 Sample.bundle 32 ∧ Accepts .bits64 32 Sample.bundle ∧
      ∃ j back, Sample.bundle.drop 3 = j :: back ∧ j.Rebases .rsp ∧
        Bundle.Holds Sample.truncate.address j.stop := by
  have tiles : Tiles 0 Sample.bundle 32 := by decide
  have accepted : Accepts .bits64 32 Sample.bundle := by decide +kernel
  have place : Sample.bundle =
    Sample.bundle.take 2 ++ Sample.truncate :: Sample.bundle.drop 3 := rfl
  refine ⟨tiles, accepted, ?_⟩
  obtain ⟨_, _, writes, _⟩ := sandbox_pointer_discipline tiles accepted place
  rcases writes (.dword .rsp) (by decide +kernel) (Or.inl rfl) with h | h | h | ⟨_, _, h⟩
  · rcases h with ⟨h, _⟩ | ⟨h, _⟩ <;> simp [Sample.truncate] at h
  · simp [Instruction.AlignsStack, Sample.truncate] at h
  · simp [Instruction.Rebases, Instruction.Spells, Sample.truncate] at h
  · exact h

end

end FaultIsolation
