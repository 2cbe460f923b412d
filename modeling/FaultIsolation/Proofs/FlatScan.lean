import FaultIsolation.Proofs.Inquiry

namespace FaultIsolation

/-- The policy for 32-bit code with windows of up to `longest` instructions. The sandbox itself asks
about windows of two. -/
def Policy.flatUpTo (longest : Nat) : Policy :=
  { Policy.bits32 with longest }

def flatSteps (longest : Nat) (code : List Instruction) : List Step :=
  Scan.steps (.flatUpTo longest) (.sandbox .bits32) code

namespace Scan
variable {p : Policy} {r : Rules} {c held : Condition} {n stop : Nat} {pre post : Condition}
  {answer : Carry} {code : List Instruction} {qs : List Query} {ss : List Step}

theorem windows_no_carry (ns : List Nat) :
    .carry held stop pre post answer ∉ ns.map (askWindow r code) := by
  intro h
  obtain ⟨m, _, hm⟩ := List.mem_map.mp h
  cases hm

/-- The policy is asked about an idiom, which needs nothing, or about an instruction that the rules
accept, and under the condition that holds. -/
theorem Inquiry.carry_asked (h : Inquiry p r c code qs n)
    (asked : .carry held stop pre post answer ∈ qs) :
    held = c ∧ answer = p.carry c stop pre post ∧
      (pre = .default ∧ post = .default ∨
        ∃ i e, r.single i = .accept e ∧ pre = e.pre ∧ post = e.post) := by
  cases h with
  | refusal => exact absurd asked (windows_no_carry _)
  | idiom longer shorter m last lengths passed accepted ends =>
    rcases List.mem_append.mp asked with asked | asked
    · exact absurd asked (windows_no_carry _)
    · cases List.mem_singleton.mp asked
      exact ⟨rfl, rfl, Or.inl ⟨rfl, rfl⟩⟩
  | rejection i first passed refused =>
    rcases List.mem_append.mp asked with asked | asked
    · exact absurd asked (windows_no_carry _)
    · cases List.mem_singleton.mp asked
  | single i e first passed accepted =>
    rcases List.mem_append.mp asked with asked | asked
    · exact absurd asked (windows_no_carry _)
    · rcases List.mem_cons.mp asked with asked | asked
      · cases asked
      · cases List.mem_singleton.mp asked
        exact ⟨rfl, rfl, Or.inr ⟨i, e, accepted, rfl, rfl⟩⟩

/-- What a scan of 32-bit code asks the policy is always the same. -/
theorem Run.flat_carry (hp : p.carry = Policy.bits32.carry)
    (h : Run p (.sandbox .bits32) .default code ss)
    (asked : .carry held stop pre post answer ∈ queries ss) :
    pre = .default ∧ post = .default ∧ held = .default ∧ answer = .next .default := by
  obtain ⟨s, hs, hq⟩ := List.mem_flatMap.mp asked
  have hcurrent := (h.flat hp rfl s hs).1
  obtain ⟨before, after, hss⟩ := List.append_of_mem hs
  obtain ⟨i, rest, _, rfl⟩ := h.step_at hss
  rw [step_current] at hcurrent
  obtain ⟨rfl, rfl, hunit⟩ := (step_inquiry p _ _ i rest).carry_asked hq
  have hflat : pre = .default ∧ post = .default := by
    rcases hunit with hflat | ⟨j, e, alone, rfl, rfl⟩
    · exact hflat
    · exact Rule.single_flat alone
  obtain ⟨rfl, rfl⟩ := hflat
  refine ⟨rfl, rfl, hcurrent, ?_⟩
  rw [hcurrent, hp]
  rfl

end Scan

/-- Whatever the code is and however long the windows may be, a scan of it as 32-bit code breaks no
assertion. The ordinary condition holds before and after each step. Each time the policy is asked,
it is about a unit that needs nothing and leaves nothing behind, and the ordinary condition holds
and goes on to hold. So the steps take all of the code, and there is a report on it. -/
theorem flat_scan_reports (longest : Nat) (code : List Instruction) :
    (∀ s ∈ flatSteps longest code, s.current = .default ∧ s.outcome.next = .default) ∧
      (∀ held stop pre post answer,
        .carry held stop pre post answer ∈ Scan.queries (flatSteps longest code) →
          pre = .default ∧ post = .default ∧ held = .default ∧ answer = .next .default) ∧
      Scan.broken? (flatSteps longest code) = none ∧
      (flatSteps longest code).flatMap Step.members = code ∧
      (Inspection.scanned (flatSteps longest code)).report =
        .ok ⟨Scan.diagnostics (flatSteps longest code)⟩ := by
  have hrun := Scan.run_steps (.flatUpTo longest) (.sandbox .bits32) .default code
  have hcarry : (Policy.flatUpTo longest).carry = Policy.bits32.carry := rfl
  have hflat := hrun.flat hcarry rfl
  have hunbroken : Scan.broken? (flatSteps longest code) = none := by
    apply List.findSome?_eq_none_iff.mpr
    intro s hs
    exact (hflat s hs).2.1
  refine ⟨?_, ?_, hunbroken, ?_, report_of_unbroken hunbroken⟩
  · intro s hs
    exact ⟨(hflat s hs).1, (hflat s hs).2.2⟩
  · intro held stop pre post answer asked
    exact hrun.flat_carry hcarry asked
  · exact (hrun.account fun s hs => (hflat s hs).2.1).1

end FaultIsolation
