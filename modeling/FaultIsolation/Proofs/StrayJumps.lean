import FaultIsolation.Proofs.Resumption

namespace FaultIsolation

namespace Scan
variable {ss : List Step} {source : Nat} {d : Int}

/-- The jump that counts at `source` goes to where none may land. -/
structure Strays (ss : List Step) (source : Nat) (d : Int) : Prop where
  last : LastJump (units ss) source d
  unaligned : d % Bundle.size ≠ 0
  missed : ∀ s ∈ ss, (s.start : Int) ≠ d

def strays (ss : List Step) : List (Nat × Int) :=
  (jumps ss).filter fun j => !lands (Std.TreeSet.ofList (starts ss)) j.2

theorem stray_jumps_eq_map (ss : List Step) :
    strayJumps ss = (strays ss).map fun j => .jumpIntoInstruction j.1 j.2 := by
  rw [strays, ← List.filterMap_eq_map, List.filterMap_filter]
  apply List.filterMap_congr
  intro j _
  cases lands (Std.TreeSet.ofList (starts ss)) j.2 <;> rfl

theorem mem_strays_iff : (source, d) ∈ strays ss ↔ Strays ss source d := by
  have hlands : lands (Std.TreeSet.ofList (starts ss)) d = false ↔
      d % Bundle.size ≠ 0 ∧ ∀ s ∈ ss, (s.start : Int) ≠ d := by
    rw [← Bool.not_eq_true, lands_iff, starts]
    simp
  rw [strays, List.mem_filter, mem_jumps_iff, Bool.not_eq_true', hlands]
  constructor
  · rintro ⟨hlast, hunaligned, hmissed⟩
    exact ⟨hlast, hunaligned, hmissed⟩
  · rintro ⟨hlast, hunaligned, hmissed⟩
    exact ⟨hlast, hunaligned, hmissed⟩

theorem strays_ascending : (strays ss).Pairwise fun a b => a.1 < b.1 :=
  jumps_ascending.filter _

/-- The jump that counts was made by an instruction that a step accepted. -/
theorem LastJump.step (h : LastJump (units ss) source d) :
    ∃ s ∈ ss, s.start = source ∧ ∃ i e next, s.outcome = .accepted (.single i e) next ∧
      e.jump = some d := by
  obtain ⟨xs, i, e, ys, hunits, haddress, hjump, _⟩ := h
  have hmem : .single i e ∈ units ss := by simp [hunits]
  obtain ⟨s, hs, next, houtcome⟩ := unit_step hmem
  exact ⟨s, hs, (Step.start_eq houtcome).trans haddress, i, e, next, houtcome, hjump⟩

end Scan

/-- A scan that breaks no assertion reports its stray jumps after everything else and by strictly
ascending source, whatever the rules and the policy are. They are exactly those of the last accepted
instruction that jumps, among the ones at each address, whose destination is neither a bundle start
nor a place where the scan stopped. So nothing is reported of a place where every instruction was
rejected. -/
theorem stray_jumps_exact {p : Policy} {r : Rules} {code : List Instruction}
    (unbroken : Scan.broken? (Scan.steps p r code) = none) :
    ∃ found, ∃ strays : List (Nat × Int), (Inspection.scanned (Scan.steps p r code)).report =
        .ok ⟨found ++ strays.map fun j => .jumpIntoInstruction j.1 j.2⟩ ∧
      found = (Scan.steps p r code).flatMap (·.outcome.diagnostics) ∧
      (∀ x ∈ found, x.isStray = false) ∧
      strays.Pairwise (fun a b => a.1 < b.1) ∧
      (∀ source d, (source, d) ∈ strays ↔ Scan.Strays (Scan.steps p r code) source d) ∧
      ∀ source d, (∀ s ∈ Scan.steps p r code, s.start = source → s.outcome.unit? = none) →
        (source, d) ∉ strays := by
  refine ⟨_, Scan.strays (Scan.steps p r code), ?_, rfl, ?_, Scan.strays_ascending, ?_, ?_⟩
  · rw [report_of_unbroken unbroken, Scan.diagnostics, Scan.stray_jumps_eq_map]
  · intro x hx
    obtain ⟨s, _, hx⟩ := List.mem_flatMap.mp hx
    exact Outcome.diagnostic_not_stray hx
  · intro source d
    exact Scan.mem_strays_iff
  · intro source d hrejected hstray
    obtain ⟨s, hs, hstart, i, e, next, houtcome, _⟩ := (Scan.mem_strays_iff.mp hstray).last.step
    have hnone := hrejected s hs hstart
    rw [houtcome] at hnone
    cases hnone

namespace Sample

/-- Jumps out of order. The one from 9 is rejected, because the stack pointer has yet to be moved
back, and of the two from 12 the second goes to the system call. -/
def jumpyCode : List Instruction :=
  [jumpFrom 20 3, jumpFrom 0 (-12), systemCall 2, truncate, jumpFrom 9 (-6), jumpFrom 12 (-11),
    jumpFrom 12 (-12)]

end Sample

theorem stray_jumps_exact_repeated :
    Scan.broken? (sandboxSteps .bits64 Sample.jumpyCode) = none ∧
      Scan.diagnostics (sandboxSteps .bits64 Sample.jumpyCode) =
        [.unrecognized 2 "syscall", .violation 9 (.unmet (.truncated .rsp) .default),
          .jumpIntoInstruction 0 (-10), .jumpIntoInstruction 20 25] ∧
      ∀ source d, Scan.Strays (sandboxSteps .bits64 Sample.jumpyCode) source d ↔
        (source, d) ∈ [(0, -10), (20, 25)] := by
  have unbroken : Scan.broken? (sandboxSteps .bits64 Sample.jumpyCode) = none := by
    decide +kernel
  have reported : Scan.diagnostics (sandboxSteps .bits64 Sample.jumpyCode) =
      [.unrecognized 2 "syscall", .violation 9 (.unmet (.truncated .rsp) .default),
        .jumpIntoInstruction 0 (-10), .jumpIntoInstruction 20 25] := by
    decide +kernel
  have steps : (sandboxSteps .bits64 Sample.jumpyCode).flatMap (·.outcome.diagnostics) =
      [.unrecognized 2 "syscall", .violation 9 (.unmet (.truncated .rsp) .default)] := by
    decide +kernel
  refine ⟨unbroken, reported, ?_⟩
  obtain ⟨found, strays, hreport, hfound, _, _, hexact, _⟩ := stray_jumps_exact unbroken
  change (Inspection.scanned (sandboxSteps .bits64 Sample.jumpyCode)).report = _ at hreport
  rw [scanned_report, reported, hfound.trans steps] at hreport
  have jumps : [.jumpIntoInstruction 0 (-10), .jumpIntoInstruction 20 25] =
      strays.map fun j => Diagnostic.jumpIntoInstruction j.1 j.2 := by
    simpa using hreport
  intro source d
  have member : (source, d) ∈ strays ↔ .jumpIntoInstruction source d ∈
      strays.map fun j => Diagnostic.jumpIntoInstruction j.1 j.2 := by
    simp
  have stray := hexact source d
  rw [member, ← jumps] at stray
  exact stray.symm.trans (by simp)

end FaultIsolation
