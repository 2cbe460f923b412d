import FaultIsolation.Proofs.Acceptance

namespace FaultIsolation.Scan

def IsWindow (longest : Nat) (code : List Instruction) (n : Nat) : Prop :=
  2 ≤ n ∧ n ≤ min longest code.length

/-- The unit at the front of the code. -/
inductive Leads (r : Rules) (longest : Nat) (code : List Instruction) : CodeUnit → Prop where
  | idiom (n : Nat) (head : Instruction) (tail : List Instruction)
      (window : IsWindow longest code n) (members : code.take n = head :: tail)
      (whole : r.window (code.take n) = .accept ())
      (greatest : ∀ m, IsWindow longest code m → n < m → r.window (code.take m) = .noMatch) :
      Leads r longest code (.idiom head tail)
  | single (insn : Instruction) (effect : Effect) (first : code.head? = some insn)
      (passed : ∀ m, IsWindow longest code m → r.window (code.take m) = .noMatch)
      (alone : r.single insn = .accept effect) : Leads r longest code (.single insn effect)

/-- The code is cut into units from one condition to another. Each unit lies in one bundle and is
let pass. -/
inductive Cut (r : Rules) (longest : Nat) (passes : Condition → CodeUnit → Condition → Prop) :
    Condition → List Instruction → List CodeUnit → Condition → Prop where
  | nil (c : Condition) : Cut r longest passes c [] [] c
  | cons (c next d : Condition) (u : CodeUnit) (rest : List Instruction) (us : List CodeUnit)
      (leads : Leads r longest (u.members ++ rest) u) (whole : Bundle.Holds u.start u.stop)
      (passed : passes c u next) (more : Cut r longest passes next rest us d) :
      Cut r longest passes c (u.members ++ rest) (u :: us) d

def Lets (p : Policy) (c : Condition) (u : CodeUnit) (next : Condition) : Prop :=
  p.carry c u.stop u.effect.pre u.effect.post = .next next

section
variable {p : Policy} {r : Rules} {longest n m : Nat} {code rest : List Instruction}
  {i : Instruction} {u : CodeUnit} {c next d : Condition} {us : List CodeUnit}

theorem is_window_succ (h : n + 2 ≤ code.length) :
    IsWindow (n + 2) code m ↔ IsWindow (n + 1) code m ∨ m = n + 2 := by
  unfold IsWindow
  omega

theorem Leads.congr {longest' : Nat}
    (h : ∀ m, IsWindow longest code m ↔ IsWindow longest' code m) (hu : Leads r longest code u) :
    Leads r longest' code u := by
  cases hu with
  | idiom n head tail window members whole greatest =>
    exact .idiom n head tail ((h n).mp window) members whole fun m hm => greatest m ((h m).mpr hm)
  | single insn effect first passed alone =>
    exact .single insn effect first (fun m hm => passed m ((h m).mpr hm)) alone

theorem beginnings_take_succ (h : n < code.length) :
    beginnings (code.take (n + 1)) = code.take (n + 1) :: beginnings (code.take n) := by
  induction code generalizing n with
  | nil => simp at h
  | cons i rest ih =>
    cases n with
    | zero => simp [beginnings]
    | succ n =>
      have hn : n < rest.length := by simpa using h
      rw [List.take_succ_cons, beginnings, ih hn, List.map_cons, List.cons_append,
        List.take_succ_cons, beginnings]

/-- Where the longest window decides, no other unit leads. -/
theorem Leads.of_longest (hn : n + 2 ≤ code.length)
    (hw : r.window (code.take (n + 2)) ≠ .noMatch) (h : Leads r (n + 2) code u) :
    ∃ head tail, u = .idiom head tail ∧ code.take (n + 2) = head :: tail ∧
      r.window (code.take (n + 2)) = .accept () := by
  have hlongest : IsWindow (n + 2) code (n + 2) := (is_window_succ hn).mpr (Or.inr rfl)
  cases h with
  | idiom m head tail window members whole greatest =>
    have hm : m = n + 2 := by
      by_contra hne
      have hlt : m < n + 2 := by
        unfold IsWindow at window
        omega
      exact hw (greatest (n + 2) hlongest hlt)
    subst hm
    exact ⟨head, tail, rfl, members, whole⟩
  | single insn effect first passed alone => exact absurd (passed (n + 2) hlongest) hw

/-- Where the longest window is passed over, it might as well not be asked about. -/
theorem Leads.passed_over_iff (hn : n + 2 ≤ code.length)
    (hw : r.window (code.take (n + 2)) = .noMatch) :
    Leads r (n + 2) code u ↔ Leads r (n + 1) code u := by
  have hlongest {m : Nat} := is_window_succ (m := m) hn
  constructor
  · intro h
    cases h with
    | idiom m head tail window members whole greatest =>
      rcases hlongest.mp window with window | rfl
      · refine .idiom m head tail window members whole fun k hk => ?_
        exact greatest k (hlongest.mpr (.inl hk))
      · simp [whole] at hw
    | single insn effect first passed alone =>
      exact .single insn effect first (fun k hk => passed k (hlongest.mpr (.inl hk))) alone
  · intro h
    cases h with
    | idiom m head tail window members whole greatest =>
      refine .idiom m head tail (hlongest.mpr (.inl window)) members whole fun k hk hlt => ?_
      rcases hlongest.mp hk with hk | rfl
      · exact greatest k hk hlt
      · exact hw
    | single insn effect first passed alone =>
      refine .single insn effect first (fun k hk => ?_) alone
      rcases hlongest.mp hk with hk | rfl
      · exact passed k hk
      · exact hw

/-- What the rules find at an instruction, in the windows of up to `n` further ones. -/
theorem recognize_iff (hn : n ≤ rest.length) :
    recognize r i (beginnings (rest.take n)) = .accept u ↔ Leads r (n + 1) (i :: rest) u := by
  induction n with
  | zero =>
    have hnone (m : Nat) : ¬IsWindow (0 + 1) (i :: rest) m := by
      unfold IsWindow
      omega
    rw [List.take_zero, beginnings, recognize]
    constructor
    · intro h
      cases hs : r.single i with
      | accept effect =>
        simp only [hs, Verdict.accept.injEq] at h
        subst h
        exact .single i effect rfl (fun m hm => absurd hm (hnone m)) hs
      | noMatch => simp [hs] at h
      | violation cause => simp [hs] at h
    · intro h
      cases h with
      | idiom m head tail window => exact absurd window (hnone m)
      | single insn effect first passed alone =>
        cases first
        simp [alone]
  | succ n ih =>
    have hlen : n + 2 ≤ (i :: rest).length := by simpa using hn
    rw [beginnings_take_succ (by omega), recognize]
    cases hw : r.window (i :: rest.take (n + 1)) with
    | accept v =>
      constructor
      · intro h
        cases h
        have hlongest : IsWindow (n + 2) (i :: rest) (n + 2) := (is_window_succ hlen).mpr (.inr rfl)
        refine .idiom (n + 2) i _ hlongest rfl hw fun m hm hlt => ?_
        unfold IsWindow at hm
        omega
      · intro h
        obtain ⟨head, tail, rfl, hmembers, _⟩ := h.of_longest hlen (by simp [hw])
        cases hmembers
        rfl
    | noMatch => exact (ih (by omega)).trans (Leads.passed_over_iff hlen hw).symm
    | violation cause =>
      constructor
      · intro h
        cases h
      · intro h
        obtain ⟨_, _, _, _, haccept⟩ := h.of_longest hlen (by simp [hw])
        simp [hw] at haccept

theorem settle_accepted_iff {v : CodeUnit} :
    (settle p c v).outcome = .accepted u next ↔ v = u ∧ Lets p c u next := by
  unfold Lets
  constructor
  · intro h
    simp only [settle] at h
    split at h
    · rename_i hc
      cases h
      exact ⟨rfl, hc⟩
    · cases h
    · cases h
  · rintro ⟨rfl, hc⟩
    simp [settle, hc]

/-- A step accepts just the unit that leads, if the policy lets it pass. -/
theorem step_accepted_iff :
    (step p r c i rest).outcome = .accepted u next ↔
      Leads r p.longest (i :: rest) u ∧ Lets p c u next := by
  have hwindows : recognize r i (beginnings (rest.take (p.longest - 1))) = .accept u ↔
      Leads r p.longest (i :: rest) u := by
    rw [List.take_eq_take_min, recognize_iff (Nat.min_le_right _ _)]
    have hsame (m : Nat) : IsWindow (min (p.longest - 1) rest.length + 1) (i :: rest) m ↔
        IsWindow p.longest (i :: rest) m := by
      simp only [IsWindow, List.length_cons]
      omega
    exact ⟨Leads.congr hsame, Leads.congr fun m => (hsame m).symm⟩
  rw [step_outcome, ← hwindows]
  cases recognize r i (beginnings (rest.take (p.longest - 1))) with
  | accept v =>
    simp only [Verdict.accept.injEq]
    constructor
    · intro h
      obtain ⟨rfl, hc⟩ := settle_accepted_iff.mp h
      exact ⟨rfl, hc⟩
    · rintro ⟨rfl, hc⟩
      exact settle_accepted_iff.mpr ⟨rfl, hc⟩
  | noMatch => simp [conclude]
  | violation cause => simp [conclude]

theorem steps_after_accepted
    (h : (step p r c u.head (u.tail ++ rest)).outcome = .accepted u next) :
    stepsAfter (step p r) 0 c (u.members ++ rest) =
      step p r c u.head (u.tail ++ rest) :: stepsAfter (step p r) 0 next rest := by
  rw [CodeUnit.members, List.cons_append, stepsAfter, steps_after_drop]
  simp [h]

theorem crossing_eq_nil (h : Bundle.Holds u.start u.stop) : u.crossing = [] := by
  simp [CodeUnit.crossing, Bundle.not_crossed_of_holds h]

/-- Where the code is cut into units, the scan takes just these. -/
theorem Cut.steps (h : Cut r p.longest (Lets p) c code us d) :
    Clean (stepsAfter (step p r) 0 c code) ∧ units (stepsAfter (step p r) 0 c code) = us ∧
      final c (stepsAfter (step p r) 0 c code) = d := by
  induction h with
  | nil c => exact ⟨by simp [Clean, stepsAfter], rfl, rfl⟩
  | cons c next d u rest us leads whole passed more ih =>
    obtain ⟨hclean, hunits, hfinal⟩ := ih
    have ho : (step p r c u.head (u.tail ++ rest)).outcome = .accepted u next :=
      step_accepted_iff.mpr ⟨leads, passed⟩
    rw [steps_after_accepted ho]
    refine ⟨clean_cons.mpr ⟨?_, hclean⟩, ?_, ?_⟩
    · simp [ho, crossing_eq_nil whole]
    · rw [units_cons ho, hunits]
    · simp [ho, hfinal]

/-- A clean run cuts the code into the units that it took. -/
theorem Run.cut {ss : List Step} (h : Run p r c code ss) (clean : Clean ss) :
    Cut r p.longest (Lets p) c code (units ss) (final c ss) := by
  induction h with
  | done c => exact .nil c
  | halt c i rest breaks => exact absurd (clean _ (by simp)).1 breaks
  | onward c i rest later ss goesOn takes tail ih =>
    obtain ⟨hfirst, hlater⟩ := clean_cons.mp clean
    obtain ⟨u, next, ho, hwhole⟩ := outcome_clean goesOn hfirst.2
    obtain ⟨hleads, hlets⟩ := step_accepted_iff.mp ho
    have hmore := ih hlater
    have htakes := step_takes ho takes
    rw [ho] at hmore
    rw [units_cons ho, final_cons, ho]
    rw [htakes] at hleads ⊢
    exact .cons c next _ u later _ hleads (Bundle.holds_of_not_crossed hwhole) hlets hmore

/-- A scan is clean exactly if the code can be cut into units, and these are the units it takes. -/
theorem clean_iff_cut :
    Clean (stepsAfter (step p r) 0 c code) ↔ ∃ us d, Cut r p.longest (Lets p) c code us d := by
  constructor
  · intro clean
    exact ⟨_, _, (run_steps p r c code).cut clean⟩
  · rintro ⟨us, d, hcut⟩
    exact hcut.steps.1

end

end FaultIsolation.Scan
