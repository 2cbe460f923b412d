import FaultIsolation.Proofs.Resumption

namespace FaultIsolation

/-- The conditions that the rules for 64-bit code leave behind. -/
inductive Condition.Arises : Condition → Prop where
  | ordinary : Arises .default
  | extended (f : Family) (free : f ≠ .rsp ∧ f ≠ .rbp ∧ f ≠ .r15) : Arises (.zeroExtended f)
  | pending (f : Family) (pointer : f = .rsp ∨ f = .rbp) : Arises (.truncated f)

namespace Rule
variable {mode : Mode} {i : Instruction} {op : Opcode} {e : Effect} {f : Family}

theorem Written.arises {r : Register} {c : Condition} (h : Written op r c) : c.Arises := by
  cases h with
  | truncation pointer narrow extended => exact .pending r.family pointer
  | extension free narrow extended =>
    have hfree : ¬(r.family = .rsp ∨ r.family = .rbp ∨ r.family = .r15) := by
      rw [← Family.points_into_sandbox_iff, free]
      simp
    simp only [not_or] at hfree
    exact .extended r.family hfree
  | other free => exact .ordinary

theorem single_arises (h : single mode i = .accept e) : e.post.Arises := by
  obtain ⟨op, _, _, ha⟩ := single_accepted h
  cases ha with
  | branch => exact .ordinary
  | flat => exact .ordinary
  | update _ _ _ _ form =>
    rw [(pointer_update_some form).2]
    exact .ordinary
  | access pre post rs _ _ _ _ _ _ leaves =>
    rcases (postcondition_ok leaves).left with hdefault | ⟨r, _, hwritten⟩
    · rw [hdefault]
      exact .ordinary
    · exact hwritten.arises

theorem rebase_opcode (h : i.Rebases f) : i.opcode? = some { mnemonic := "add" } :=
  h.opcode.trans (by decide +kernel)

/-- The instruction that moves a pointer back is accepted, if it has no segment override. -/
theorem rebase_accepted (hf : f = .rsp ∨ f = .rbp) (hr : i.Rebases f)
    (hs : i.prefixes.segment = false) : single .bits64 i = .accept { pre := .truncated f } := by
  have hsystem : i.operands.any Operand.isSystem = false := by
    rw [hr.2]
    rfl
  have hsequential : sequential { mnemonic := "add" } i = .accept { pre := .truncated f } := by
    simp [sequential, hs, pointer_update_rebase hf hr]
  simp only [single, rebase_opcode hr, hsystem]
  exact hsequential

/-- Such an instruction begins no idiom, since those leave the sandbox pointers alone. -/
theorem rebase_no_idiom {tail : List Instruction} (hf : f = .rsp ∨ f = .rbp) (hr : i.Rebases f)
    (htail : tail ≠ []) : idiom .bits64 (i :: tail) = .noMatch := by
  by_contra hmatch
  obtain ⟨front, last, hwindow, hguarded⟩ := idiom_shape hmatch
  cases front with
  | nil =>
    obtain ⟨_, rfl⟩ := List.cons.inj hwindow
    exact htail rfl
  | cons j front =>
    obtain ⟨rfl, _⟩ := List.cons.inj hwindow
    obtain ⟨r, hprepares, hfree⟩ := hguarded.front List.mem_cons_self
    have hwrites : i.destinations = [.qword f] :=
      Instruction.destinations_first hr.first (rebase_opcode hr) rfl
    have hfamily : r = .qword f := by simpa [hwrites] using hprepares.writes.symm
    have hpointer : f.pointsIntoSandbox = true :=
      Family.points_into_sandbox_iff.mpr (hf.imp_right Or.inl)
    simpa [hfamily, hpointer] using hfree rfl

end Rule

namespace Scan
variable {c next : Condition} {code rest : List Instruction} {i : Instruction} {f : Family}
  {u : CodeUnit} {ss before after : List Step}

/-- One step. -/
theorem step_arises (c : Condition) (i : Instruction) (rest : List Instruction) :
    (step .bits64 (.sandbox .bits64) c i rest).outcome.next.Arises := by
  cases ho : (step .bits64 (.sandbox .bits64) c i rest).outcome with
  | accepted u next =>
    obtain ⟨hknown, _, _, hcarry⟩ := step_accepted ho
    rcases (Policy.bits64_next hcarry).2 with ⟨_, _, hdefault⟩ | ⟨_, hpost⟩
    · rw [hdefault]
      exact .ordinary
    · rw [hpost]
      cases hknown with
      | idiom head tail several whole => exact .ordinary
      | single insn effect alone =>
        have alone : Rule.single .bits64 insn = .accept effect := alone
        exact Rule.single_arises alone
  | _ => exact .ordinary

/-- The condition between two steps. -/
theorem Run.arises (h : Run .bits64 (.sandbox .bits64) c code ss) (hc : c.Arises)
    (hss : ss = before ++ after) : (final c before).Arises := by
  rcases List.eq_nil_or_concat before with rfl | ⟨front, s, rfl⟩
  · exact hc
  · rw [List.concat_eq_append] at hss ⊢
    rw [List.append_assoc, List.singleton_append] at hss
    obtain ⟨i, rest, _, rfl⟩ := h.step_at hss
    simpa using step_arises _ i rest

/-- What passes where a pointer has yet to be moved back moves it back. -/
theorem step_pending (h : (step .bits64 (.sandbox .bits64) (.truncated f) i rest).outcome =
    .accepted u next) : i.Rebases f ∧ i.prefixes.segment = false := by
  obtain ⟨hknown, rfl, _, hcarry⟩ := step_accepted h
  have hpre := Condition.eq_of_truncated_covers (Policy.bits64_next hcarry).1
  cases hknown with
  | idiom head tail several whole => cases hpre
  | single insn effect alone =>
    have alone : Rule.single .bits64 insn = .accept effect := alone
    have hpre : effect.pre = .truncated f := hpre
    obtain ⟨op, hopcode, hneeds⟩ := Rule.single_needs alone (by simp [hpre])
    rw [hpre] at hneeds
    cases hneeds with
    | rebase _ _ form =>
      refine ⟨form, Rule.single_segment alone hopcode ?_⟩
      cases hopcode.symm.trans (Rule.rebase_opcode form)
      rfl

/-- It passes, and then the ordinary condition holds. -/
theorem step_rebase (hf : f = .rsp ∨ f = .rbp) (hr : i.Rebases f)
    (hs : i.prefixes.segment = false) (rest : List Instruction) :
    (step .bits64 (.sandbox .bits64) (.truncated f) i rest).outcome =
      .accepted (.single i { pre := .truncated f }) .default := by
  apply step_accepted_iff.mpr
  constructor
  · apply Leads.single i _ rfl _ (Rule.rebase_accepted hf hr hs)
    intro n hn
    obtain ⟨hseveral, hinside⟩ := hn
    obtain ⟨k, rfl⟩ := Nat.exists_eq_add_of_le' hseveral
    apply Rule.rebase_no_idiom hf hr
    cases rest with
    | nil => simp at hinside
    | cons j rest => simp
  · simp [Lets, Policy.bits64, Condition.covers]

end Scan

/-- Whatever the code is, a scan of it as 64-bit code comes to three kinds of conditions only: the
ordinary one, a zero-extended register that is no sandbox pointer, and a truncated stack or frame
pointer. Where a pointer is truncated, the next step accepts its instruction exactly if it adds the
base to that pointer and has no segment override, and then the ordinary condition holds. -/
theorem reachable_conditions {code : List Instruction} {before after : List Step}
    (reached : sandboxSteps .bits64 code = before ++ after) :
    (Scan.final .default before).Arises ∧
      ∀ f i, Scan.final .default before = .truncated f → code[Scan.taken before]? = some i →
        ∃ s later, after = s :: later ∧ s.outcome.head = i ∧
          ((s.outcome.unit?.isSome = true ∧ ∀ x ∈ s.outcome.diagnostics, x.isRejection = false) ↔
            i.Rebases f ∧ i.prefixes.segment = false) ∧
          (i.Rebases f → i.prefixes.segment = false →
            Scan.final .default (before ++ [s]) = .default) := by
  have hrun := Scan.run_steps .bits64 (.sandbox .bits64) .default code
  have harises := hrun.arises .ordinary reached
  refine ⟨harises, ?_⟩
  intro f i htruncated hi
  have hpointer : f = .rsp ∨ f = .rbp := by
    rw [htruncated] at harises
    cases harises with
    | pending _ pointer => exact pointer
  have hunbroken : ∀ s ∈ before, s.outcome.broken? = none := by
    intro s hs
    exact sandbox_unbroken .bits64 code s (by simp [reached, hs])
  change Scan.stepsAfter (Scan.step .bits64 (.sandbox .bits64)) 0 .default code = _ at reached
  rw [reached] at hrun
  obtain ⟨rest, later, hnext⟩ := hrun.next_step hunbroken hi
  rw [htruncated] at hnext
  refine ⟨_, later, hnext, Scan.step_head, ⟨?_, ?_⟩, ?_⟩
  · rintro ⟨haccepted, _⟩
    obtain ⟨u, hunit⟩ := Option.isSome_iff_exists.mp haccepted
    obtain ⟨next, houtcome⟩ := Outcome.unit_some hunit
    exact Scan.step_pending houtcome
  · rintro ⟨hrebases, hsegment⟩
    rw [Scan.step_rebase hpointer hrebases hsegment rest]
    exact ⟨rfl, fun x hx => CodeUnit.crossing_rejects_none hx⟩
  · intro hrebases hsegment
    simp [Scan.step_rebase hpointer hrebases hsegment rest]

theorem reachable_conditions_rebase :
    Scan.final .default ((sandboxSteps .bits64 Sample.bundle).take 3) = .truncated .rsp ∧
      ∃ s later, (sandboxSteps .bits64 Sample.bundle).drop 3 = s :: later ∧
        s.outcome.head = Sample.rebase ∧ s.outcome.unit?.isSome = true ∧
        Scan.final .default ((sandboxSteps .bits64 Sample.bundle).take 3 ++ [s]) = .default := by
  have reached := (List.take_append_drop 3 (sandboxSteps .bits64 Sample.bundle)).symm
  have truncated : Scan.final .default ((sandboxSteps .bits64 Sample.bundle).take 3) =
      .truncated .rsp := by
    decide +kernel
  have place : Sample.bundle[Scan.taken ((sandboxSteps .bits64 Sample.bundle).take 3)]? =
      some Sample.rebase := by
    decide +kernel
  obtain ⟨_, next⟩ := reachable_conditions reached
  obtain ⟨s, later, hlater, hhead, accepted, ordinary⟩ := next .rsp Sample.rebase truncated place
  have rebases : Sample.rebase.Rebases .rsp := ⟨rfl, rfl⟩
  exact ⟨truncated, s, later, hlater, hhead, (accepted.mpr ⟨rebases, rfl⟩).1,
    ordinary rebases rfl⟩

end FaultIsolation
