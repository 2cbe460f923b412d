import FaultIsolation.Proofs.Relocation

namespace FaultIsolation.Rule

/-- How the verdict of 64-bit code, which comes second, can differ from that of 32-bit code. -/
inductive Tightens : Verdict Effect → Verdict Effect → Prop where
  | unknown : Tightens .noMatch .noMatch
  | refused (cause : Violation) : Tightens (.violation cause) (.violation cause)
  /-- Conditions are added, and the jump stays. -/
  | conditioned (e : Effect) : Tightens (.accept { jump := e.jump }) (.accept e)
  /-- Only an instruction that does not jump is refused in one mode alone. -/
  | restricted (cause : Violation) : Tightens (.accept {}) (.violation cause)

variable {i : Instruction} {op : Opcode}

/-- A branch is judged without regard to the mode. -/
theorem branch_tightens (op : Opcode) (i : Instruction) : Tightens (branch op i) (branch op i) := by
  unfold branch
  split
  · exact .unknown
  · rename_i target _
    split
    · exact .unknown
    · split
      · exact .refused _
      · exact .conditioned { jump := some target }

theorem of_except_known {α : Type} (x : Except Violation α) : Verdict.ofExcept x ≠ .noMatch := by
  cases x <;> simp [Verdict.ofExcept]

/-- The further rules of 64-bit code know every instruction that they are asked about. -/
theorem sequential_known : sequential op i ≠ .noMatch := by
  unfold sequential
  split
  · simp
  · split
    · simp
    · exact of_except_known _

theorem sequential_tightens (hb : op.isBranch = false) :
    Tightens (.accept {}) (sequential op i) := by
  cases hs : sequential op i with
  | noMatch => exact absurd hs sequential_known
  | violation cause => exact .restricted cause
  | accept e =>
    have hjump := sequential_no_jump hs hb
    have h := Tightens.conditioned e
    rw [hjump] at h
    exact h

theorem single_tightens (i : Instruction) : Tightens (single .bits32 i) (single .bits64 i) := by
  unfold single
  cases i.opcode? with
  | none => exact .unknown
  | some op =>
    dsimp only
    split
    · exact .unknown
    · split
      · exact branch_tightens op i
      · rename_i hb
        exact sequential_tightens (by simpa using hb)

/-- The two modes know the same instructions. What 64-bit code accepts 32-bit code accepts without
conditions, and the jump is the same. What 32-bit code refuses 64-bit code refuses for the same
cause, and what it refuses beyond that does not jump. -/
theorem modes_recognize_alike (i : Instruction) :
    (single .bits32 i = .noMatch ↔ single .bits64 i = .noMatch) ∧
      (∀ e, single .bits64 i = .accept e → single .bits32 i = .accept { jump := e.jump }) ∧
      (∀ cause, single .bits32 i = .violation cause → single .bits64 i = .violation cause) ∧
      ∀ cause, single .bits64 i = .violation cause →
        single .bits32 i = .violation cause ∨ single .bits32 i = .accept {} := by
  have h := single_tightens i
  generalize single .bits32 i = flat at h ⊢
  generalize single .bits64 i = wide at h ⊢
  cases h with
  | unknown => simp
  | refused cause => simp
  | conditioned e => simp
  | restricted cause => simp

end FaultIsolation.Rule
