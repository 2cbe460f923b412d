import FaultIsolation.Proofs.ReportShape
import Mathlib.Data.List.Sort

namespace FaultIsolation

def Word.IsSigned (d : Int) : Prop :=
  -0x8000000000000000 ≤ d ∧ d < 0x8000000000000000

instance (d : Int) : Decidable (Word.IsSigned d) :=
  inferInstanceAs (Decidable (_ ∧ _))

theorem Word.signed_eq_self {d : Int} (h : Word.IsSigned d) : Word.signed d = d := by
  simp only [Word.IsSigned, Word.signed, Int.bmod, Word.count] at h ⊢
  omega

namespace Diagnostic
variable {k : Nat} {x : Diagnostic}

/-- The same fault in code that lies `k` bytes further on. The destination of a jump moves as a
number. -/
def moved (k : Nat) : Diagnostic → Diagnostic
  | .jumpIntoInstruction offset destination => .jumpIntoInstruction (offset + k) (destination + k)
  | x => x.shift k

@[simp] theorem moved_message : (x.moved k).message = x.message := by
  cases x <;> rfl

theorem moved_offset (h : x.isFatal = false) : (x.moved k).offset = x.offset + k := by
  cases x with
  | unalignedSize size => cases h
  | undecodable offset error => cases h
  | _ => rfl

theorem moved_eq_shift (h : ∀ source d, x ≠ .jumpIntoInstruction source d) :
    x.moved k = x.shift k := by
  cases x with
  | jumpIntoInstruction source d => exact absurd rfl (h source d)
  | _ => rfl

end Diagnostic

/-- Only a branch jumps, and it jumps to its destination. -/
theorem Rule.single_jump {mode : Mode} {i : Instruction} {e : Effect} {d : Int}
    (h : single mode i = .accept e) (hj : e.jump = some d) : i.destination? = some d := by
  obtain ⟨op, _, _, ha⟩ := single_accepted h
  cases ha with
  | branch _ target _ _ goes => exact goes.trans hj
  | flat => cases hj
  | update _ _ _ _ form =>
    rw [(pointer_update_some form).2] at hj
    cases hj
  | access => cases hj

namespace Scan
variable {p : Policy} {r : Rules} {c : Condition} {code : List Instruction} {ss ts : List Step}
  {u : CodeUnit} {k source : Nat} {d : Int}

/-- The units of a run consist of instructions of the code. -/
theorem Run.unit_known (h : Run p r c code ss) (unbroken : ∀ s ∈ ss, s.outcome.broken? = none)
    (hu : u ∈ units ss) : Recognized r u ∧ ∀ i ∈ u.members, i ∈ code := by
  obtain ⟨hcode, heach⟩ := h.account unbroken
  obtain ⟨s, hs, hunit⟩ := List.mem_filterMap.mp hu
  cases heach s hs with
  | accepts v accepted takes known size silent =>
    cases Option.some.inj (accepted.symm.trans hunit)
    refine ⟨known, ?_⟩
    intro i hi
    rw [← hcode]
    exact List.mem_flatMap.mpr ⟨s, hs, takes ▸ hi⟩
  | rejects i d unaccepted => simp [unaccepted] at hunit

/-- What is remembered of the jumps are branches of the code. -/
theorem sandbox_jump_branch {mode : Mode} (h : (source, d) ∈ jumps (sandboxSteps mode code)) :
    ∃ i ∈ code, i.destination? = some d := by
  obtain ⟨xs, i, e, ys, hsplit, _, hj, _⟩ := mem_jumps_iff.mp h
  have hunit : .single i e ∈ units (sandboxSteps mode code) := by simp [hsplit]
  have hrun := run_steps mode.policy (.sandbox mode) .default code
  obtain ⟨hknown, hmem⟩ := hrun.unit_known (sandbox_unbroken mode code) hunit
  cases hknown with
  | single _ _ alone => exact ⟨i, hmem i List.mem_cons_self, Rule.single_jump alone hj⟩

/-- The jumps that are remembered move along, as words. -/
theorem Moved.jumps_eq (h : Moved k ss ts) :
    jumps ts = (jumps ss).map fun j => (j.1 + k, Word.signed (j.2 + k)) := by
  -- Both lists ascend by source, so they are equal if they have the same members.
  have hirrefl : Std.Irrefl fun a b : Nat × Int => a.1 < b.1 := ⟨fun a => Nat.lt_irrefl a.1⟩
  have hantisymm : Std.Antisymm fun a b : Nat × Int => a.1 < b.1 :=
    ⟨fun a b hab hba => absurd hab (Nat.lt_asymm hba)⟩
  apply List.Pairwise.eq_of_mem_iff jumps_ascending
  · apply List.Pairwise.map _ _ jumps_ascending
    intro a b hab
    exact Nat.add_lt_add_right hab k
  · rintro ⟨source, d⟩
    rw [mem_jumps_iff, h.units_eq, last_jump_shift_iff, List.mem_map]
    constructor
    · rintro ⟨place, e, hlast, rfl, rfl⟩
      exact ⟨(place, e), mem_jumps_iff.mpr hlast, rfl⟩
    · rintro ⟨⟨place, e⟩, hmem, he⟩
      cases he
      exact ⟨place, e, mem_jumps_iff.mp hmem, rfl, rfl⟩

/-- A moved jump lands exactly if it landed before, at a negative destination too. -/
theorem Moved.lands_eq (h : Moved k ss ts) (hk : Bundle.starts k = true) (d : Int) :
    lands (Std.TreeSet.ofList (starts ts)) (d + k) = lands (Std.TreeSet.ofList (starts ss)) d := by
  have hk := Bundle.starts_iff.mp hk
  apply Bool.eq_iff_iff.mpr
  rw [lands_iff, lands_iff, h.starts_eq]
  apply or_congr
  · simp only [Bundle.size] at hk ⊢
    omega
  · simp only [List.mem_map, exists_exists_and_eq_and, Int.natCast_add, Int.add_left_inj]

theorem Moved.stray_jumps_eq (h : Moved k ss ts) (hk : Bundle.starts k = true)
    (fits : ∀ j ∈ jumps ss, Word.IsSigned (j.2 + k)) :
    strayJumps ts = (strayJumps ss).map (·.moved k) := by
  unfold strayJumps
  rw [h.jumps_eq, List.filterMap_map, List.map_filterMap]
  apply List.filterMap_congr
  intro j hj
  simp only [Function.comp_apply, Word.signed_eq_self (fits j hj), h.lands_eq hk]
  split <;> rfl

theorem Moved.diagnostics_eq (h : Moved k ss ts) (hk : Bundle.starts k = true)
    (fits : ∀ j ∈ jumps ss, Word.IsSigned (j.2 + k)) :
    diagnostics ts = (diagnostics ss).map (·.moved k) := by
  have hfound : (ss.flatMap (·.outcome.diagnostics)).map (·.shift k) =
      (ss.flatMap (·.outcome.diagnostics)).map (·.moved k) := by
    apply List.map_congr_left
    intro x hx
    obtain ⟨s, _, hx⟩ := List.mem_flatMap.mp hx
    rw [Diagnostic.moved_eq_shift]
    rintro source d rfl
    exact Outcome.diagnostic_no_jump hx
  rw [diagnostics, h.found_eq hk, hfound, h.stray_jumps_eq hk fits, ← List.map_append]
  rfl

theorem diagnostics_nonfatal {x : Diagnostic} (h : x ∈ diagnostics ss) : x.isFatal = false := by
  rcases List.mem_append.mp h with h | h
  · obtain ⟨s, _, hx⟩ := List.mem_flatMap.mp h
    exact Outcome.diagnostic_nonfatal hx
  · obtain ⟨source, d, rfl, _⟩ := mem_stray_jumps h
    rfl

end Scan

@[simp] theorem scanned_report (mode : Mode) (code : List Instruction) :
    (Inspection.scanned (sandboxSteps mode code)).report =
      .ok ⟨Scan.diagnostics (sandboxSteps mode code)⟩ := by
  have hunbroken : Scan.broken? (sandboxSteps mode code) = none :=
    List.findSome?_eq_none_iff.mpr (sandbox_unbroken mode code)
  exact report_of_unbroken hunbroken

/-- Code that is moved by `k` bundles gets the diagnostics that it got before, in the same order and
with the same texts, each moved by as many bytes. Its instructions may lie anywhere; only the
destinations of its branches, once moved, have to be signed words. -/
theorem relocation_invariance (mode : Mode) (k : Nat) (code : List Instruction)
    (fits : ∀ i ∈ code, ∀ d, i.destination? = some d →
      Word.IsSigned (d + (Bundle.size * k : Nat))) :
    ∃ ds, (Inspection.scanned (sandboxSteps mode code)).report = .ok ⟨ds⟩ ∧
      (Inspection.scanned (sandboxSteps mode (code.map (·.shift (Bundle.size * k))))).report =
        .ok ⟨ds.map (·.moved (Bundle.size * k))⟩ ∧
      ∀ x ∈ ds, (x.moved (Bundle.size * k)).offset = x.offset + Bundle.size * k ∧
        (x.moved (Bundle.size * k)).message = x.message := by
  have hk : Bundle.starts (Bundle.size * k) = true := by simp
  have hmoved := Scan.sandbox_steps_shift mode hk code
  refine ⟨_, scanned_report mode code, ?_, ?_⟩
  · rw [scanned_report, hmoved.diagnostics_eq hk]
    rintro ⟨source, d⟩ hj
    obtain ⟨i, hi, hd⟩ := Scan.sandbox_jump_branch hj
    exact fits i hi d hd
  · intro x hx
    exact ⟨Diagnostic.moved_offset (Scan.diagnostics_nonfatal hx), Diagnostic.moved_message⟩

namespace Sample

/-- A jump to before the code, a system call, and a store that lies in two bundles and whose index
nothing has bounded. -/
def outwardCode : List Instruction :=
  [jumpFrom 0 (-12), systemCall 2, { store with address := 30 }]

end Sample

theorem relocation_invariance_outward :
    (∀ i ∈ Sample.outwardCode, ∀ d ∈ i.destination?, Word.IsSigned (d + (Bundle.size * 1 : Nat))) ∧
      Scan.diagnostics (sandboxSteps .bits64 Sample.outwardCode) =
        [.unrecognized 2 "syscall", .instructionCrossesBundle 30,
          .violation 30 (.unmet .default (.zeroExtended .rax)), .jumpIntoInstruction 0 (-10)] ∧
      (Inspection.scanned (sandboxSteps .bits64 (Sample.outwardCode.map (·.shift 32)))).report =
        .ok ⟨[.unrecognized 34 "syscall", .instructionCrossesBundle 62,
          .violation 62 (.unmet .default (.zeroExtended .rax)), .jumpIntoInstruction 32 22]⟩ := by
  have fits : ∀ i ∈ Sample.outwardCode, ∀ d ∈ i.destination?,
      Word.IsSigned (d + (Bundle.size * 1 : Nat)) := by decide +kernel
  have before : Scan.diagnostics (sandboxSteps .bits64 Sample.outwardCode) =
      [.unrecognized 2 "syscall", .instructionCrossesBundle 30,
        .violation 30 (.unmet .default (.zeroExtended .rax)), .jumpIntoInstruction 0 (-10)] := by
    decide +kernel
  obtain ⟨ds, hreport, hmoved, _⟩ := relocation_invariance .bits64 1 Sample.outwardCode fits
  rw [scanned_report, before] at hreport
  cases hreport
  exact ⟨fits, before, hmoved⟩

end FaultIsolation
