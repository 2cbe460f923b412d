import FaultIsolation.Proofs.Carrying
import FaultIsolation.Proofs.Landing
import FaultIsolation.Proofs.Mediation

namespace FaultIsolation

/-- In neither mode is anything carried over the end of a bundle. -/
theorem Mode.next_at_bundle {mode : Mode} {c d pre post : Condition} {stop : Nat}
    (h : mode.policy.carry c stop pre post = .next d) (hs : Bundle.starts stop = true) :
    d = .default := by
  cases mode with
  | bits32 =>
    simp only [Mode.policy, Policy.bits32] at h
    split at h
    · cases h
    · split at h
      · cases h
      · rename_i hc
        cases h
        simpa using hc
  | bits64 =>
    rcases (Policy.bits64_next h).2 with ⟨_, _, hd⟩ | ⟨hn, _⟩
    · exact hd
    · simp [hs] at hn

namespace Scan

/-- What a clean run through whole instructions keeps: where a bundle starts, the condition is the
ordinary one. -/
theorem Run.at_bundle_start {mode : Mode} {r : Rules} {c : Condition} {code : List Instruction}
    {ss : List Step} {start stop : Nat} (h : Run mode.policy r c code ss) (clean : Clean ss)
    (tiles : Tiles start code stop) (hc : Bundle.starts start = true → c = .default) :
    (∀ s ∈ ss, Bundle.starts s.start = true → s.current = .default) ∧
      (Bundle.starts stop = true → final c ss = .default) := by
  induction h generalizing start with
  | done c =>
    have he : start = stop := tiles
    exact ⟨by simp, fun hs => hc (he ▸ hs)⟩
  | halt c i rest breaks => exact absurd (clean _ (by simp)).1 breaks
  | onward c i rest later ss goesOn takes tail ih =>
    obtain ⟨hfirst, hlater⟩ := clean_cons.mp clean
    obtain ⟨u, next, ho, _⟩ := outcome_clean goesOn hfirst.2
    obtain ⟨_, _, _, hcarry⟩ := step_accepted ho
    -- The step took a unit, and the rest of the code begins where the unit stops.
    rw [step_takes ho takes] at tiles
    rw [ho] at ih
    obtain ⟨hstart, _, hrest⟩ := unit_tiles tiles
    obtain ⟨hsteps, hfinal⟩ := ih hlater hrest (Mode.next_at_bundle hcarry)
    constructor
    · intro s hs hbundle
      rcases List.mem_cons.mp hs with rfl | hs
      · have he : (step mode.policy r c i rest).start = start := (Step.start_eq ho).trans hstart
        simpa using hc (he ▸ hbundle)
      · exact hsteps s hs hbundle
    · intro hs
      simpa [ho] using hfinal hs

end Scan

section
variable {mode : Mode} {size : Nat} {code : List Instruction} {i : Instruction}

/-- A call returns to a bundle start, whether it stands alone or at the end of an idiom. -/
theorem Accepts.call_returns (h : Accepts mode size code) (hi : i ∈ code)
    (hc : i.isCall = true) : Bundle.starts i.stop = true := by
  rcases h.unit_of hi with ⟨e, hu⟩ | ⟨head, tail, hu, hm⟩
  · exact Rule.single_returns (h.single hu) hc
  · obtain ⟨front, last, hcode, hg⟩ := h.guarded hu
    rw [hcode, List.mem_append, List.mem_singleton] at hm
    rcases hm with hm | rfl
    · -- The instructions before the last are no branches.
      obtain ⟨r, ⟨⟨op, ho, _, hb, _⟩, _⟩, _⟩ := hg.front hm
      have hcall : op.isCall = true := by simpa [Instruction.isCall, ho] using hc
      simp [Opcode.branch_of_call hcall] at hb
    · cases (h.recognized hu).1 with
      | idiom _ _ _ whole => exact Rule.idiom_returns whole (by simp [hcode]) hc

/-- Each bundle of accepted code begins with a unit that the scan came to under the ordinary
condition. The scan ends under that condition too, and every call returns to a bundle start. -/
theorem bundle_start_landing (tiles : Tiles 0 code size) (accepted : Accepts mode size code) :
    (∀ n < size, n % Bundle.size = 0 → ∃ s ∈ sandboxSteps mode code, ∃ u next,
      s.outcome = .accepted u next ∧ u.start = n ∧ s.current = .default) ∧
    (∀ s ∈ sandboxSteps mode code, s.start % Bundle.size = 0 → s.current = .default) ∧
    Scan.final .default (sandboxSteps mode code) = .default ∧
    ∀ i ∈ code, i.isCall = true → i.stop % Bundle.size = 0 := by
  obtain ⟨hsize, hclean, _⟩ := accepts_iff.mp accepted
  have hrun := Scan.run_steps mode.policy (.sandbox mode) .default code
  obtain ⟨hsteps, hfinal⟩ := hrun.at_bundle_start hclean tiles (fun _ => rfl)
  have hcurrent (s : Step) (hs : s ∈ sandboxSteps mode code) (hn : s.start % Bundle.size = 0) :
      s.current = .default := hsteps s hs (Bundle.starts_iff.mpr hn)
  refine ⟨?_, hcurrent, hfinal hsize, ?_⟩
  · intro n hn hbundle
    obtain ⟨u, hu, rfl⟩ := accepted.bundle_start tiles (Bundle.starts_iff.mpr hbundle) hn
    obtain ⟨s, hs, next, ho⟩ := Scan.unit_step hu
    exact ⟨s, hs, u, next, ho, rfl, hcurrent s hs (Step.start_eq ho ▸ hbundle)⟩
  · intro i hi hc
    exact Bundle.starts_iff.mp (accepted.call_returns hi hc)

namespace Sample

def callThrough : Instruction where
  address := 30
  length := 2
  mnemonic := "call"
  operands := [.register (.qword .rax)]
  disassembly := "call rax"

def callDirect : Instruction where
  address := 59
  length := 5
  mnemonic := "call"
  operands := [.immediate (-64)]
  disassembly := "call $-0x40"

/-- Two bundles that end with calls, the first of them the end of an idiom. -/
def callBundles : List Instruction :=
  [0, 8, 16].map (nop · 8) ++
  [{ roundTarget with address := 24 }, { rebaseTarget with address := 27 }, callThrough,
    { extend with address := 32 }] ++ [34, 42, 50].map (nop · 8) ++ [nop 58 1, callDirect]

end Sample

theorem bundle_start_landing_calls :
    Tiles 0 Sample.callBundles 64 ∧ Accepts .bits64 64 Sample.callBundles ∧
      (∃ s ∈ sandboxSteps .bits64 Sample.callBundles, ∃ u next,
        s.outcome = .accepted u next ∧ u.start = 32 ∧ s.current = .default) ∧
      Scan.final .default (sandboxSteps .bits64 Sample.callBundles) = .default ∧
      Sample.callThrough.stop % Bundle.size = 0 ∧ Sample.callDirect.stop % Bundle.size = 0 := by
  have tiles : Tiles 0 Sample.callBundles 64 := by decide
  have accepted : Accepts .bits64 64 Sample.callBundles := by decide +kernel
  obtain ⟨begins, _, ends, returns⟩ := bundle_start_landing tiles accepted
  exact ⟨tiles, accepted, begins 32 (by decide) (by decide), ends,
    returns Sample.callThrough (by decide) (by decide +kernel),
    returns Sample.callDirect (by decide) (by decide +kernel)⟩

end

end FaultIsolation
