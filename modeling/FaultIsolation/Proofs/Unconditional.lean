import FaultIsolation.Proofs.ExactVerdict

namespace FaultIsolation

/-- An instruction of 32-bit code needs nothing and leaves nothing behind. -/
theorem Rule.single_flat {i : Instruction} {e : Effect} (h : single .bits32 i = .accept e) :
    e.pre = .default ∧ e.post = .default := by
  obtain ⟨op, _, _, ha⟩ := single_accepted h
  cases ha with
  | branch => exact ⟨rfl, rfl⟩
  | flat => exact ⟨rfl, rfl⟩
  | update _ wide => cases wide
  | access _ _ _ wide => cases wide

namespace Scan
variable {p : Policy} {u : CodeUnit} {c : Condition} {code : List Instruction} {ss : List Step}

theorem Recognized.flat (h : Recognized (.sandbox .bits32) u) :
    u.effect.pre = .default ∧ u.effect.post = .default := by
  cases h with
  | idiom head tail several whole => exact ⟨rfl, rfl⟩
  | single insn effect alone => exact Rule.single_flat alone

/-- One step of a scan of 32-bit code, with windows of any length. -/
theorem flat_step (hp : p.carry = Policy.bits32.carry) (i : Instruction)
    (rest : List Instruction) :
    (step p (.sandbox .bits32) .default i rest).outcome.broken? = none ∧
      (step p (.sandbox .bits32) .default i rest).outcome.next = .default := by
  rw [step_outcome]
  cases hv : recognize (.sandbox .bits32) i (beginnings (rest.take (p.longest - 1))) with
  | accept u =>
    obtain ⟨hknown, _⟩ := recognize_accept (fun t ht => (mem_beginnings.mp ht).1) hv
    obtain ⟨hpre, hpost⟩ := hknown.flat
    simp [conclude, settle, hp, hpre, hpost, Policy.bits32]
  | noMatch => exact ⟨rfl, rfl⟩
  | violation cause => exact ⟨rfl, rfl⟩

/-- The condition of a scan of 32-bit code is the ordinary one before and after each step. -/
theorem Run.flat (hp : p.carry = Policy.bits32.carry)
    (h : Run p (.sandbox .bits32) c code ss) (hc : c = .default) :
    ∀ s ∈ ss, s.current = .default ∧ s.outcome.broken? = none ∧ s.outcome.next = .default := by
  induction h with
  | done c => simp
  | halt c i rest breaks =>
    subst c
    exact absurd (flat_step hp i rest).1 breaks
  | onward c i rest later ss goesOn takes tail ih =>
    subst c
    obtain ⟨_, hnext⟩ := flat_step hp i rest
    intro s hs
    rcases List.mem_cons.mp hs with he | hs
    · rw [he]
      exact ⟨step_current rest, goesOn, hnext⟩
    · exact ih hnext s hs

end Scan

/-- A scan under the rules of the sandbox comes to an end. -/
theorem sandbox_unbroken (mode : Mode) (code : List Instruction) :
    ∀ s ∈ sandboxSteps mode code, s.outcome.broken? = none := by
  have hrun := Scan.run_steps mode.policy (.sandbox mode) .default code
  cases mode with
  | bits32 =>
    intro s hs
    exact (hrun.flat rfl rfl s hs).2.1
  | bits64 =>
    apply Scan.run_unbroken _ hrun
    intro c stop pre post a
    change (Policy.upTo 5).carry c stop pre post ≠ .broken a
    exact Policy.up_to_unbroken

end FaultIsolation
