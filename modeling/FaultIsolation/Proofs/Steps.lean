import FaultIsolation.Scan
import Mathlib.Data.List.Infix

namespace FaultIsolation

namespace Diagnostic

def isCrossing : Diagnostic → Bool
  | .idiomCrossesBundle _ | .instructionCrossesBundle _ => true
  | _ => false

def isRejection : Diagnostic → Bool
  | .unrecognized _ _ | .violation _ _ => true
  | _ => false

end Diagnostic

namespace CodeUnit

section
variable (i : Instruction) (tail : List Instruction) (e : Effect)

@[simp] theorem head_idiom : (idiom i tail).head = i := rfl

@[simp] theorem tail_idiom : (idiom i tail).tail = tail := rfl

@[simp] theorem members_idiom : (idiom i tail).members = i :: tail := rfl

@[simp] theorem members_single : (single i e).members = [i] := rfl

@[simp] theorem effect_single : (single i e).effect = e := rfl

@[simp] theorem start_single : (single i e).start = i.address := rfl

@[simp] theorem stop_single : (single i e).stop = i.stop := rfl

end

theorem crossing_cases (u : CodeUnit) :
    u.crossing = [] ∨ ∃ x, u.crossing = [x] ∧ x.isCrossing = true ∧ x.offset = u.start := by
  unfold crossing
  split
  · right
    cases u with
    | idiom head tail => exact ⟨_, rfl, rfl, rfl⟩
    | single insn effect => exact ⟨_, rfl, rfl, rfl⟩
  · exact Or.inl rfl

theorem mem_crossing {u : CodeUnit} {x : Diagnostic} (h : x ∈ u.crossing) :
    x.isCrossing = true := by
  rcases u.crossing_cases with hnone | ⟨y, hy, hcross, _⟩
  · simp [hnone] at h
  · rw [hy, List.mem_singleton] at h
    rw [h, hcross]

end CodeUnit

namespace Outcome

section
variable (u : CodeUnit) (next : Condition)

@[simp] theorem head_accepted : (accepted u next).head = u.head := rfl

@[simp] theorem tail_accepted : (accepted u next).tail = u.tail := rfl

@[simp] theorem next_accepted : (accepted u next).next = next := rfl

@[simp] theorem diagnostics_accepted : (accepted u next).diagnostics = u.crossing := rfl

@[simp] theorem broken_accepted : (accepted u next).broken? = none := rfl

end

/-- A step says of a unit that it lies in two bundles, or it rejects an instruction. -/
theorem mem_diagnostics {o : Outcome} {x : Diagnostic} (h : x ∈ o.diagnostics) :
    x.isCrossing = true ∨ x.isRejection = true := by
  cases o with
  | accepted u next => exact Or.inl (CodeUnit.mem_crossing h)
  | broken u assertion => exact Or.inl (CodeUnit.mem_crossing h)
  | unmet u cause =>
    rcases List.mem_append.mp h with h | h
    · exact Or.inl (CodeUnit.mem_crossing h)
    · right
      rw [List.mem_singleton.mp h]
      rfl
  | refused insn cause =>
    right
    rw [List.mem_singleton.mp h]
    rfl
  | unrecognized insn =>
    right
    rw [List.mem_singleton.mp h]
    rfl

theorem diagnostic_no_jump {o : Outcome} {source : Nat} {d : Int} :
    .jumpIntoInstruction source d ∉ o.diagnostics := by
  intro h
  have hkind := mem_diagnostics h
  simp [Diagnostic.isCrossing, Diagnostic.isRejection] at hkind

end Outcome

namespace Scan

/-- What the rules find at an instruction, in the windows with the lists and then alone. -/
def recognize (r : Rules) (i : Instruction) : List (List Instruction) → Verdict CodeUnit
  | [] =>
    match r.single i with
    | .accept effect => .accept (.single i effect)
    | .violation cause => .violation cause
    | .noMatch => .noMatch
  | tail :: shorter =>
    match r.window (i :: tail) with
    | .accept () => .accept (.idiom i tail)
    | .violation cause => .violation cause
    | .noMatch => recognize r i shorter

def conclude (p : Policy) (current : Condition) (i : Instruction) : Verdict CodeUnit → Outcome
  | .accept u => (settle p current u).outcome
  | .violation cause => .refused i cause
  | .noMatch => .unrecognized i

inductive Recognized (r : Rules) : CodeUnit → Prop where
  | idiom (head : Instruction) (tail : List Instruction) (several : tail ≠ [])
      (whole : r.window (head :: tail) = .accept ()) : Recognized r (.idiom head tail)
  | single (insn : Instruction) (effect : Effect) (alone : r.single insn = .accept effect) :
      Recognized r (.single insn effect)

section
variable {p : Policy} {r : Rules} {current : Condition} {i : Instruction}

theorem ask_single_outcome :
    (askSingle p r current i).outcome = conclude p current i (recognize r i []) := by
  unfold askSingle recognize
  cases r.single i <;> rfl

theorem ask_windows_outcome (tails : List (List Instruction)) :
    (askWindows p r current i tails).outcome = conclude p current i (recognize r i tails) := by
  induction tails with
  | nil => exact ask_single_outcome
  | cons tail shorter ih =>
    unfold askWindows recognize
    cases r.window (i :: tail) with
    | accept u => rfl
    | violation cause => rfl
    | noMatch => exact ih

theorem step_outcome (rest : List Instruction) :
    (step p r current i rest).outcome =
      conclude p current i (recognize r i (beginnings (rest.take (p.longest - 1)))) :=
  ask_windows_outcome _

@[simp] theorem ask_windows_current (tails : List (List Instruction)) :
    (askWindows p r current i tails).current = current := by
  induction tails with
  | nil =>
    unfold askWindows askSingle
    cases r.single i <;> rfl
  | cons tail shorter ih =>
    unfold askWindows
    cases r.window (i :: tail) with
    | accept u => rfl
    | violation cause => rfl
    | noMatch => exact ih

@[simp] theorem step_current (rest : List Instruction) :
    (step p r current i rest).current = current :=
  ask_windows_current _

@[simp] theorem mem_beginnings {code tail : List Instruction} :
    tail ∈ beginnings code ↔ tail ≠ [] ∧ tail <+: code := by
  induction code generalizing tail with
  | nil => simp [beginnings]
  | cons i rest ih =>
    cases tail with
    | nil => simp [beginnings]
    | cons j tail =>
      simp only [beginnings, List.mem_append, List.mem_map, List.mem_singleton, ih, ne_eq,
        List.cons.injEq, reduceCtorEq, not_false_eq_true, true_and, List.cons_prefix_cons]
      constructor
      · rintro (⟨t, ⟨_, ht⟩, rfl, rfl⟩ | ⟨rfl, rfl⟩)
        · exact ⟨rfl, ht⟩
        · exact ⟨rfl, List.nil_prefix⟩
      · rintro ⟨rfl, ht⟩
        by_cases hn : tail = []
        · exact Or.inr ⟨rfl, hn⟩
        · exact Or.inl ⟨tail, ⟨hn, ht⟩, rfl, rfl⟩

theorem recognize_accept {tails : List (List Instruction)} {u : CodeUnit}
    (hn : ∀ t ∈ tails, t ≠ []) (h : recognize r i tails = .accept u) :
    Recognized r u ∧ u.head = i ∧ (u.tail = [] ∨ u.tail ∈ tails) := by
  induction tails with
  | nil =>
    unfold recognize at h
    split at h
    · rename_i effect hs
      cases h
      exact ⟨.single i effect hs, rfl, Or.inl rfl⟩
    · cases h
    · cases h
  | cons tail shorter ih =>
    unfold recognize at h
    split at h
    · rename_i hw
      cases h
      exact ⟨.idiom i tail (hn tail (by simp)) hw, rfl, Or.inr (by simp)⟩
    · cases h
    · obtain ⟨hu, hi, ht⟩ := ih (fun t ht => hn t (by simp [ht])) h
      exact ⟨hu, hi, ht.imp_right (List.mem_cons_of_mem tail)⟩

@[simp] theorem step_head {rest : List Instruction} :
    (step p r current i rest).outcome.head = i := by
  rw [step_outcome]
  cases hv : recognize r i (beginnings (rest.take (p.longest - 1))) with
  | accept u =>
    have hu := (recognize_accept (fun t ht => (mem_beginnings.mp ht).1) hv).2.1
    simp only [conclude, settle]
    split <;> exact hu
  | noMatch => rfl
  | violation cause => rfl

@[simp] theorem step_members {rest : List Instruction} :
    (step p r current i rest).members = i :: (step p r current i rest).outcome.tail := by
  rw [Step.members, step_head]

/-- An accepted step took a unit that the rules accept, that stands at the front of the code and
that the policy lets pass. -/
theorem step_accepted {rest : List Instruction} {u : CodeUnit} {next : Condition}
    (h : (step p r current i rest).outcome = .accepted u next) :
    Recognized r u ∧ u.head = i ∧ u.tail <+: rest ∧
      p.carry current u.stop u.effect.pre u.effect.post = .next next := by
  rw [step_outcome] at h
  generalize hv : recognize r i (beginnings (rest.take (p.longest - 1))) = v at h
  cases v with
  | accept v =>
    obtain ⟨hr, hi, ht⟩ := recognize_accept (fun t ht => (mem_beginnings.mp ht).1) hv
    simp only [conclude, settle] at h
    split at h
    · rename_i hc
      cases h
      refine ⟨hr, hi, ?_, hc⟩
      rcases ht with ht | ht
      · rw [ht]
        exact List.nil_prefix
      · exact (mem_beginnings.mp ht).2.trans (List.take_prefix _ _)
    · cases h
    · cases h
  | noMatch => cases h
  | violation cause => cases h

/-- An accepted step takes the members of its unit from the front of the code. -/
theorem step_takes {rest later : List Instruction} {u : CodeUnit} {next : Condition}
    (h : (step p r current i rest).outcome = .accepted u next)
    (takes : (step p r current i rest).outcome.tail ++ later = rest) :
    i :: rest = u.members ++ later := by
  rw [h, Outcome.tail_accepted] at takes
  rw [CodeUnit.members, (step_accepted h).2.1, List.cons_append, takes]

theorem step_tail (p : Policy) (r : Rules) (current : Condition) (i : Instruction)
    (rest : List Instruction) : (step p r current i rest).outcome.tail <+: rest := by
  cases h : (step p r current i rest).outcome with
  | accepted u next => exact (step_accepted h).2.2.1
  | _ => exact List.nil_prefix

end

/-- What a scan does from a condition on: it takes steps until the code is used up or an assertion
is broken. -/
inductive Run (p : Policy) (r : Rules) : Condition → List Instruction → List Step → Prop where
  | done (current : Condition) : Run p r current [] []
  | halt (current : Condition) (i : Instruction) (rest : List Instruction)
      (breaks : (step p r current i rest).outcome.broken? ≠ none) :
      Run p r current (i :: rest) [step p r current i rest]
  | onward (current : Condition) (i : Instruction) (rest later : List Instruction) (ss : List Step)
      (goesOn : (step p r current i rest).outcome.broken? = none)
      (takes : (step p r current i rest).outcome.tail ++ later = rest)
      (tail : Run p r (step p r current i rest).outcome.next later ss) :
      Run p r current (i :: rest) (step p r current i rest :: ss)

theorem steps_after_drop (take : Condition → Instruction → List Instruction → Step) (skip : Nat)
    (current : Condition) (code : List Instruction) :
    stepsAfter take skip current code = stepsAfter take 0 current (code.drop skip) := by
  induction code generalizing skip with
  | nil => cases skip <;> simp [stepsAfter]
  | cons i rest ih =>
    cases skip with
    | zero => rfl
    | succ skip => simpa [stepsAfter] using ih skip

/-- The steps of a scan are a run. -/
theorem run_steps (p : Policy) (r : Rules) (current : Condition) (code : List Instruction) :
    Run p r current code (stepsAfter (step p r) 0 current code) := by
  -- A step takes at least one instruction, so the code that is left gets shorter.
  induction hn : code.length using Nat.strongRecOn generalizing current code with
  | ind n ih =>
    cases code with
    | nil => exact .done current
    | cons i rest =>
      rw [stepsAfter]
      cases hb : (step p r current i rest).outcome.broken? with
      | some assertion => exact .halt current i rest (by simp [hb])
      | none =>
        have hl := List.prefix_append_drop (step_tail p r current i rest)
        have hlen := congrArg List.length hl
        simp only [List.length_append, List.length_cons] at hlen hn
        rw [steps_after_drop]
        exact .onward current i rest _ _ hb hl.symm (ih _ (by omega) _ _ rfl)

end Scan

end FaultIsolation
