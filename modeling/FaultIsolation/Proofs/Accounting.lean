import FaultIsolation.Proofs.Carrying
import FaultIsolation.Proofs.Seam

namespace FaultIsolation

inductive Step.Accounts (p : Policy) (r : Rules) (s : Step) : Prop where
  /-- It accepts an instruction on its own, or a window. -/
  | accepts (u : CodeUnit) (accepted : s.outcome.unit? = some u) (takes : s.members = u.members)
      (known : Scan.Recognized r u)
      (size : u.members.length = 1 ∨ 2 ≤ u.members.length ∧ u.members.length ≤ p.longest)
      (silent : ∀ d ∈ s.outcome.diagnostics, d.isRejection = false) : Accounts p r s
  /-- It rejects one instruction and says so once. -/
  | rejects (i : Instruction) (d : Diagnostic) (unaccepted : s.outcome.unit? = none)
      (takes : s.members = [i]) (once : s.outcome.diagnostics.filter Diagnostic.isRejection = [d])
      (place : d.offset = i.address) : Accounts p r s

theorem CodeUnit.crossing_rejects_none {u : CodeUnit} {d : Diagnostic} (h : d ∈ u.crossing) :
    d.isRejection = false := by
  have hcross := mem_crossing h
  cases d <;> simp_all [Diagnostic.isCrossing, Diagnostic.isRejection]

theorem CodeUnit.crossing_filter (u : CodeUnit) :
    u.crossing.filter Diagnostic.isRejection = [] := by
  apply List.filter_eq_nil_iff.mpr
  intro d hd
  simp [crossing_rejects_none hd]

/-- Whatever is not accepted is one instruction, and it is rejected once. -/
theorem Outcome.unaccepted {o : Outcome} (hb : o.broken? = none) (hu : o.unit? = none) :
    o.tail = [] ∧ ∃ d, o.diagnostics.filter Diagnostic.isRejection = [d] ∧
      d.offset = o.head.address := by
  cases o with
  | accepted u next => cases hu
  | unmet u cause =>
    refine ⟨rfl, .violation u.start cause, ?_, rfl⟩
    rw [Outcome.diagnostics, List.filter_append, u.crossing_filter]
    rfl
  | refused insn cause => exact ⟨rfl, _, rfl, rfl⟩
  | unrecognized insn => exact ⟨rfl, _, rfl, rfl⟩
  | broken u assertion => cases hb

namespace Scan
variable {p : Policy} {r : Rules} {c : Condition} {i : Instruction} {s : Step}
  {code rest : List Instruction} {ss : List Step}

theorem Leads.size {u : CodeUnit} {longest : Nat} (h : Leads r longest code u) :
    u.members.length = 1 ∨ 2 ≤ u.members.length ∧ u.members.length ≤ longest := by
  cases h with
  | idiom n head tail window members whole greatest =>
    right
    have hlength := congrArg List.length members
    unfold IsWindow at window
    rw [List.length_take] at hlength
    simp only [CodeUnit.members_idiom]
    omega
  | single insn effect first passed alone => exact Or.inl rfl

/-- One step. -/
theorem step_accounts (h : (step p r c i rest).outcome.broken? = none) :
    (step p r c i rest).Accounts p r := by
  cases hu : (step p r c i rest).outcome.unit? with
  | some u =>
    obtain ⟨next, ho⟩ := Outcome.unit_some hu
    have hleads := (step_accepted_iff.mp ho).1
    refine .accepts u hu ?_ hleads.recognized hleads.size ?_
    · simp [Step.members, CodeUnit.members, ho]
    · rw [ho]
      intro d hd
      exact CodeUnit.crossing_rejects_none hd
  | none =>
    obtain ⟨htail, d, hd, hplace⟩ := Outcome.unaccepted h hu
    refine .rejects i d hu ?_ hd ?_
    · simp [htail]
    · simp [hplace]

/-- A run takes the instructions in order and leaves none out. -/
theorem Run.account (h : Run p r c code ss) (unbroken : ∀ s ∈ ss, s.outcome.broken? = none) :
    ss.flatMap Step.members = code ∧ ∀ s ∈ ss, s.Accounts p r := by
  induction h with
  | done c => simp
  | halt c i rest breaks => exact absurd (unbroken _ (by simp)) breaks
  | onward c i rest later ss goesOn takes tail ih =>
    obtain ⟨hcode, heach⟩ := ih fun s hs => unbroken s (by simp [hs])
    constructor
    · simp [hcode, takes]
    · intro s hs
      rcases List.mem_cons.mp hs with he | hs
      · rw [he]
        exact step_accounts goesOn
      · exact heach s hs

/-- The rejections of a step and the instructions that it accepts make up what it takes. -/
theorem Accounts.balance (h : s.Accounts p r) :
    s.outcome.diagnostics.countP Diagnostic.isRejection +
      (s.outcome.unit?.toList.flatMap CodeUnit.members).length = s.members.length := by
  cases h with
  | accepts u accepted takes known size silent =>
    have hnone : s.outcome.diagnostics.countP Diagnostic.isRejection = 0 := by
      apply List.countP_eq_zero.mpr
      intro d hd
      simp [silent d hd]
    rw [hnone, accepted, takes]
    simp
  | rejects i d unaccepted takes once place =>
    rw [List.countP_eq_length_filter, once, unaccepted, takes]
    rfl

theorem run_balance (h : ∀ s ∈ ss, s.Accounts p r) :
    (ss.flatMap (·.outcome.diagnostics)).countP Diagnostic.isRejection +
      ((units ss).flatMap CodeUnit.members).length = (ss.flatMap Step.members).length := by
  induction ss with
  | nil => rfl
  | cons s ss ih =>
    have hrest := ih fun t ht => h t (by simp [ht])
    have hfirst := Accounts.balance (h s (by simp))
    have hunits : units (s :: ss) = s.outcome.unit?.toList ++ units ss := by
      cases hu : s.outcome.unit? <;> simp [units, hu]
    rw [hunits]
    simp only [List.flatMap_cons, List.flatMap_append, List.countP_append, List.length_append]
    omega

theorem stray_jumps_reject_none : (strayJumps ss).countP Diagnostic.isRejection = 0 := by
  apply List.countP_eq_zero.mpr
  intro d hd
  obtain ⟨source, destination, rfl, _⟩ := mem_stray_jumps hd
  simp [Diagnostic.isRejection]

end Scan

/-- A scan that breaks no assertion ends in a report, whatever the rules and the policy are. Its
steps cut the code into consecutive parts. Each step accepts its part, which is one instruction or a
window of the lengths that are asked about, and rejects nothing in it; or it takes one instruction
and rejects it once, at its address. So the rejections and the lengths of the accepted parts add up
to the length of the code. -/
theorem instructions_accounted_once {p : Policy} {r : Rules} {code : List Instruction}
    (unbroken : Scan.broken? (Scan.steps p r code) = none) :
    (Inspection.scanned (Scan.steps p r code)).report =
        .ok ⟨Scan.diagnostics (Scan.steps p r code)⟩ ∧
      (Scan.steps p r code).flatMap Step.members = code ∧
      (∀ s ∈ Scan.steps p r code, s.Accounts p r) ∧
      (Scan.diagnostics (Scan.steps p r code)).countP Diagnostic.isRejection +
        ((Scan.units (Scan.steps p r code)).flatMap CodeUnit.members).length = code.length := by
  have hrun := Scan.run_steps p r .default code
  obtain ⟨hcode, heach⟩ := hrun.account (List.findSome?_eq_none_iff.mp unbroken)
  have hbalance := Scan.run_balance heach
  refine ⟨report_of_unbroken unbroken, hcode, heach, ?_⟩
  rw [Scan.diagnostics, List.countP_append, Scan.stray_jumps_reject_none, Nat.add_zero]
  exact hbalance.trans (congrArg List.length hcode)

namespace Sample

/-- An idiom where the stack pointer has yet to be moved back. -/
def unmetIdiom : List Instruction :=
  [truncate, roundTarget, rebaseTarget, jumpThrough]

end Sample

theorem instructions_accounted_once_unmet :
    Scan.broken? (sandboxSteps .bits64 Sample.unmetIdiom) = none ∧
      Scan.units (sandboxSteps .bits64 Sample.unmetIdiom) =
        [.single Sample.truncate { post := .truncated .rsp }, .single Sample.rebaseTarget {}] ∧
      (Scan.diagnostics (sandboxSteps .bits64 Sample.unmetIdiom)).countP
        Diagnostic.isRejection = 2 := by
  have unbroken : Scan.broken? (sandboxSteps .bits64 Sample.unmetIdiom) = none := by
    decide +kernel
  have accepted : Scan.units (sandboxSteps .bits64 Sample.unmetIdiom) =
      [.single Sample.truncate { post := .truncated .rsp }, .single Sample.rebaseTarget {}] := by
    decide +kernel
  obtain ⟨_, _, _, balance⟩ := instructions_accounted_once unbroken
  have htaken : ((Scan.units (sandboxSteps .bits64 Sample.unmetIdiom)).flatMap
      CodeUnit.members).length = 2 := by
    rw [accepted]
    rfl
  have htotal : Sample.unmetIdiom.length = 4 := rfl
  refine ⟨unbroken, accepted, ?_⟩
  rw [sandboxSteps] at htaken ⊢
  omega

end FaultIsolation
