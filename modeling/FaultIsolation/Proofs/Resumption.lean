import FaultIsolation.Proofs.RelocatedReport

namespace FaultIsolation

def Diagnostic.isStray : Diagnostic → Bool
  | .jumpIntoInstruction _ _ => true
  | _ => false

/-- What a step reports is about its own instructions, not about where they jump. -/
theorem Outcome.diagnostic_not_stray {o : Outcome} {x : Diagnostic} (h : x ∈ o.diagnostics) :
    x.isStray = false := by
  cases x with
  | jumpIntoInstruction source d => exact absurd h Outcome.diagnostic_no_jump
  | _ => rfl

/-- A step that rejects an instruction takes no other, and the scan goes on from the ordinary
condition. -/
theorem Outcome.of_rejection {o : Outcome} {x : Diagnostic} (h : x ∈ o.diagnostics)
    (hx : x.isRejection = true) : o.broken? = none ∧ o.tail = [] ∧ o.next = .default := by
  cases o with
  | accepted u next => simp [CodeUnit.crossing_rejects_none h] at hx
  | broken u assertion => simp [CodeUnit.crossing_rejects_none h] at hx
  | unmet u cause => exact ⟨rfl, rfl, rfl⟩
  | refused insn cause => exact ⟨rfl, rfl, rfl⟩
  | unrecognized insn => exact ⟨rfl, rfl, rfl⟩

namespace Scan

/-- How many instructions the steps took. It is the place in the code where the next step begins. -/
def taken (ss : List Step) : Nat :=
  (ss.flatMap Step.members).length

variable {p : Policy} {r : Rules} {c : Condition} {code : List Instruction} {s : Step}
  {ss before after : List Step}

@[simp] theorem final_concat (c : Condition) (before : List Step) (s : Step) :
    final c (before ++ [s]) = s.outcome.next := by
  rw [final, List.foldl_append]
  rfl

@[simp] theorem taken_append (before after : List Step) :
    taken (before ++ after) = taken before + taken after := by
  simp [taken]

@[simp] theorem taken_nil : taken [] = 0 := rfl

@[simp] theorem taken_cons (s : Step) (ss : List Step) :
    taken (s :: ss) = s.members.length + taken ss := by
  simp [taken]

/-- The code at the place where the next step begins. -/
theorem drop_taken {rest : List Instruction} (h : code = before.flatMap Step.members ++ rest) :
    code.drop (taken before) = rest := by
  rw [h, taken, List.drop_left]

/-- Steps that break no assertion leave the rest of the code to a run of its own. -/
theorem Run.resume (h : Run p r c code ss) (hss : ss = before ++ after)
    (unbroken : ∀ t ∈ before, t.outcome.broken? = none) :
    ∃ rest, code = before.flatMap Step.members ++ rest ∧ Run p r (final c before) rest after := by
  induction h generalizing before with
  | done c =>
    obtain ⟨rfl, rfl⟩ := List.append_eq_nil_iff.mp hss.symm
    exact ⟨[], rfl, .done c⟩
  | halt c i rest breaks =>
    cases before with
    | nil =>
      subst hss
      exact ⟨i :: rest, rfl, .halt c i rest breaks⟩
    | cons t before =>
      obtain ⟨rfl, _⟩ := List.cons.inj hss
      exact absurd (unbroken _ (by simp)) breaks
  | onward c i rest later ss goesOn takes tail ih =>
    cases before with
    | nil =>
      subst hss
      exact ⟨i :: rest, rfl, .onward c i rest later ss goesOn takes tail⟩
    | cons t before =>
      obtain ⟨rfl, hmore⟩ := List.cons.inj hss
      obtain ⟨last, hlater, hrun⟩ := ih hmore fun t ht => unbroken t (by simp [ht])
      refine ⟨last, ?_, hrun⟩
      rw [List.flatMap_cons, List.append_assoc, ← hlater, step_members, List.cons_append, takes]

/-- Only the last step of a run can break an assertion. -/
theorem Run.unbroken_before (h : Run p r c code ss) (hss : ss = before ++ s :: after) :
    ∀ t ∈ before, t.outcome.broken? = none := by
  induction h generalizing before with
  | done c => simp at hss
  | halt c i rest breaks =>
    cases before with
    | nil => simp
    | cons t before => simp at hss
  | onward c i rest later ss goesOn takes tail ih =>
    cases before with
    | nil => simp
    | cons t before =>
      obtain ⟨rfl, hmore⟩ := List.cons.inj hss
      exact List.forall_mem_cons.mpr ⟨goesOn, ih hmore⟩

/-- Each step of a run is the one that is due where the steps before it ended. -/
theorem Run.step_at (h : Run p r c code ss) (hss : ss = before ++ s :: after) :
    ∃ i rest, code = before.flatMap Step.members ++ i :: rest ∧
      s = step p r (final c before) i rest := by
  obtain ⟨rest, hcode, hrun⟩ := h.resume hss (h.unbroken_before hss)
  cases hrun with
  | halt _ i rest => exact ⟨i, rest, hcode, rfl⟩
  | onward _ i rest => exact ⟨i, rest, hcode, rfl⟩

/-- Steps that break no assertion and leave an instruction over are followed by the step there. -/
theorem Run.next_step {i : Instruction} (h : Run p r c code (before ++ after))
    (unbroken : ∀ t ∈ before, t.outcome.broken? = none) (hi : code[taken before]? = some i) :
    ∃ rest later, after = step p r (final c before) i rest :: later := by
  obtain ⟨rest, hcode, hrun⟩ := h.resume rfl unbroken
  have hhead : rest.head? = some i := by
    rw [← drop_taken hcode, List.head?_drop, hi]
  cases hrun with
  | done => cases hhead
  | halt _ j rest =>
    cases hhead
    exact ⟨rest, [], rfl⟩
  | onward _ j rest later ss =>
    cases hhead
    exact ⟨rest, ss, rfl⟩

/-- There is one run through the code. -/
theorem Run.eq_steps (h : Run p r c code ss) : ss = stepsAfter (step p r) 0 c code := by
  induction h with
  | done c => rfl
  | halt c i rest breaks =>
    obtain ⟨assertion, hb⟩ := Option.ne_none_iff_exists'.mp breaks
    simp [stepsAfter, hb]
  | onward c i rest later ss goesOn takes tail ih =>
    have hlater : rest.drop (step p r c i rest).outcome.tail.length = later := by
      have hdrop := congrArg (List.drop (step p r c i rest).outcome.tail.length) takes
      rw [← hdrop, List.drop_left]
    simp only [stepsAfter, goesOn, steps_after_drop _ _ _ rest, hlater, ← ih]

/-- After a rejection the steps are those of a scan that begins with the next instruction. -/
theorem Run.afresh {x : Diagnostic} (h : Run p r c code ss) (hss : ss = before ++ s :: after)
    (hx : x ∈ s.outcome.diagnostics) (rejects : x.isRejection = true) :
    code[taken before]? = some s.outcome.head ∧
      after = steps p r (code.drop (taken before + 1)) := by
  obtain ⟨hbroken, htail, hnext⟩ := Outcome.of_rejection hx rejects
  have hmembers : s.members = [s.outcome.head] := by rw [Step.members, htail]
  have hsplit : ss = (before ++ [s]) ++ after := by simp [hss]
  obtain ⟨rest, hcode, hrun⟩ := h.resume hsplit (by
    intro t ht
    rcases List.mem_append.mp ht with ht | ht
    · exact h.unbroken_before hss t ht
    · rw [List.mem_singleton.mp ht, hbroken])
  rw [final_concat, hnext] at hrun
  have hdrop := drop_taken hcode
  simp only [taken_append, taken_cons, taken_nil, hmembers, List.length_singleton] at hdrop
  constructor
  · simp [hcode, hmembers, taken]
  · rw [hdrop]
    exact hrun.eq_steps

/-- What is reported apart from stray jumps are the findings of the steps. -/
theorem diagnostics_filter (ss : List Step) :
    (diagnostics ss).filter (!·.isStray) = ss.flatMap (·.outcome.diagnostics) := by
  have hfound : (ss.flatMap (·.outcome.diagnostics)).filter (!·.isStray) =
      ss.flatMap (·.outcome.diagnostics) := by
    apply List.filter_eq_self.mpr
    intro x hx
    obtain ⟨s, _, hx⟩ := List.mem_flatMap.mp hx
    simp [Outcome.diagnostic_not_stray hx]
  have hstray : (strayJumps ss).filter (!·.isStray) = [] := by
    apply List.filter_eq_nil_iff.mpr
    intro x hx
    obtain ⟨source, d, rfl, _⟩ := mem_stray_jumps hx
    simp [Diagnostic.isStray]
  rw [diagnostics, List.filter_append, hfound, hstray, List.append_nil]

end Scan

/-- Where a step rejects an instruction, the scan goes on with the next one as a fresh scan does,
whatever the rules and the policy are and whether the step had looked at the instruction or at a
window. So apart from stray jumps the report is what was found up to there, followed by the report
on the rest of the code. -/
theorem rejection_starts_afresh {p : Policy} {r : Rules} {code : List Instruction}
    {before after : List Step} {s : Step} {x : Diagnostic}
    (unbroken : Scan.broken? (Scan.steps p r code) = none)
    (here : Scan.steps p r code = before ++ s :: after) (found : x ∈ s.outcome.diagnostics)
    (rejects : x.isRejection = true) :
    code[Scan.taken before]? = some s.outcome.head ∧
      after = Scan.steps p r (code.drop (Scan.taken before + 1)) ∧
      ∃ whole fresh, (Inspection.scanned (Scan.steps p r code)).report = .ok ⟨whole⟩ ∧
        (Inspection.scanned (Scan.steps p r (code.drop (Scan.taken before + 1)))).report =
          .ok ⟨fresh⟩ ∧
        after.flatMap (·.outcome.diagnostics) = fresh.filter (!·.isStray) ∧
        whole.filter (!·.isStray) =
          (before ++ [s]).flatMap (·.outcome.diagnostics) ++ fresh.filter (!·.isStray) := by
  have hrun := Scan.run_steps p r .default code
  obtain ⟨hhead, hafter⟩ := hrun.afresh here found rejects
  have hunbroken : Scan.broken? after = none := by
    apply List.findSome?_eq_none_iff.mpr
    intro t ht
    exact List.findSome?_eq_none_iff.mp unbroken t (by simp [here, ht])
  refine ⟨hhead, hafter, Scan.diagnostics (Scan.steps p r code), Scan.diagnostics after, ?_, ?_, ?_,
    ?_⟩
  · exact report_of_unbroken unbroken
  · rw [← hafter]
    exact report_of_unbroken hunbroken
  · rw [Scan.diagnostics_filter]
  · rw [Scan.diagnostics_filter, Scan.diagnostics_filter, here, ← List.flatMap_append,
      List.append_assoc, List.singleton_append]

theorem rejection_starts_afresh_idiom :
    ∃ before s after, sandboxSteps .bits64 Sample.unmetIdiom = before ++ s :: after ∧
      s.outcome = .unmet (.idiom Sample.roundTarget [Sample.rebaseTarget, Sample.jumpThrough])
        (.unmet (.truncated .rsp) .default) ∧
      Scan.broken? (sandboxSteps .bits64 Sample.unmetIdiom) = none ∧
      after = sandboxSteps .bits64 [Sample.rebaseTarget, Sample.jumpThrough] := by
  have unbroken : Scan.broken? (sandboxSteps .bits64 Sample.unmetIdiom) = none := by
    decide +kernel
  have second : ((sandboxSteps .bits64 Sample.unmetIdiom).drop 1).head?.map Step.outcome =
      some (.unmet (.idiom Sample.roundTarget [Sample.rebaseTarget, Sample.jumpThrough])
        (.unmet (.truncated .rsp) .default)) := by
    decide +kernel
  have place : Scan.taken ((sandboxSteps .bits64 Sample.unmetIdiom).take 1) = 1 := by
    decide +kernel
  obtain ⟨s, hhead, houtcome⟩ := Option.map_eq_some_iff.mp second
  obtain ⟨after, hafter⟩ := List.head?_eq_some_iff.mp hhead
  have here : sandboxSteps .bits64 Sample.unmetIdiom =
      (sandboxSteps .bits64 Sample.unmetIdiom).take 1 ++ s :: after := by
    rw [← hafter, List.take_append_drop]
  have found : .violation Sample.roundTarget.address (.unmet (.truncated .rsp) .default) ∈
      s.outcome.diagnostics := by
    rw [houtcome]
    decide +kernel
  obtain ⟨_, fresh, _⟩ := rejection_starts_afresh unbroken here found rfl
  rw [place] at fresh
  exact ⟨_, s, after, here, houtcome, unbroken, fresh⟩

end FaultIsolation
