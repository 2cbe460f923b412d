import FaultIsolation.Report
import FaultIsolation.Proofs.IdiomRule
import FaultIsolation.Proofs.Layout
import FaultIsolation.Proofs.Steps

namespace FaultIsolation

def Outcome.unit? : Outcome → Option CodeUnit
  | .accepted u _ => some u
  | _ => none

@[simp] theorem Outcome.unit_accepted (u : CodeUnit) (next : Condition) :
    (accepted u next).unit? = some u := rfl

theorem Outcome.unit_some {o : Outcome} {u : CodeUnit} (h : o.unit? = some u) :
    ∃ next, o = .accepted u next := by
  cases o with
  | accepted v next =>
    cases h
    exact ⟨next, rfl⟩
  | _ => cases h

theorem Step.start_eq {s : Step} {u : CodeUnit} {next : Condition}
    (h : s.outcome = .accepted u next) : s.start = u.start := by
  simp [Step.start, CodeUnit.start, h]

theorem CodeUnit.stop_eq {u : CodeUnit} {front : List Instruction} {i : Instruction}
    (h : u.members = front ++ [i]) : u.stop = i.stop := by
  have hlast := congrArg List.getLast? h
  simp only [CodeUnit.members, List.getLast?_cons, List.getLast?_append, List.getLast?_nil,
    Option.getD_none, Option.some_or, Option.some.injEq] at hlast
  rw [CodeUnit.stop, hlast]

namespace Scan

def units (ss : List Step) : List CodeUnit :=
  ss.filterMap (·.outcome.unit?)

def final (c : Condition) (ss : List Step) : Condition :=
  ss.foldl (fun _ s => s.outcome.next) c

def Clean (ss : List Step) : Prop :=
  ∀ s ∈ ss, s.outcome.broken? = none ∧ s.outcome.diagnostics = []

/-- Units that may follow each other from one condition to another: the rules accept each, it lies
in one bundle, and the policy lets it pass under the condition that the one before it left. -/
inductive Chain (p : Policy) (r : Rules) : Condition → List CodeUnit → Condition → Prop where
  | nil (c : Condition) : Chain p r c [] c
  | cons (c next d : Condition) (u : CodeUnit) (us : List CodeUnit) (known : Recognized r u)
      (whole : Bundle.crossed u.start u.stop = false)
      (carried : p.carry c u.stop u.effect.pre u.effect.post = .next next)
      (rest : Chain p r next us d) : Chain p r c (u :: us) d

section
variable {p : Policy} {r : Rules} {c d : Condition} {us vs : List CodeUnit} {u : CodeUnit}

theorem Chain.split (h : Chain p r c (us ++ vs) d) :
    ∃ mid, Chain p r c us mid ∧ Chain p r mid vs d := by
  induction us generalizing c with
  | nil => exact ⟨c, .nil c, h⟩
  | cons u us ih =>
    cases h with
    | cons _ next _ _ _ known whole carried rest =>
      obtain ⟨mid, hl, hr⟩ := ih rest
      exact ⟨mid, .cons c next mid u us known whole carried hl, hr⟩

theorem Chain.mem (h : Chain p r c us d) (hu : u ∈ us) :
    Recognized r u ∧ Bundle.crossed u.start u.stop = false := by
  obtain ⟨front, back, rfl⟩ := List.append_of_mem hu
  obtain ⟨mid, _, hr⟩ := h.split
  cases hr with
  | cons _ _ _ _ _ known whole _ _ => exact ⟨known, whole⟩

theorem crossing_nil (h : u.crossing = []) : Bundle.crossed u.start u.stop = false := by
  unfold CodeUnit.crossing at h
  split at h
  · cases u <;> cases h
  · rename_i hc
    simpa using hc

/-- A step that ends neither in an assertion nor in a diagnostic accepts a unit in one bundle. -/
theorem outcome_clean {o : Outcome} (hb : o.broken? = none) (hd : o.diagnostics = []) :
    ∃ u next, o = .accepted u next ∧ Bundle.crossed u.start u.stop = false := by
  cases o with
  | accepted u next => exact ⟨u, next, rfl, crossing_nil hd⟩
  | unmet u cause => simp [Outcome.diagnostics] at hd
  | refused insn cause => cases hd
  | unrecognized insn => cases hd
  | broken u assertion => cases hb

@[simp] theorem final_cons {s : Step} {ss : List Step} :
    final c (s :: ss) = final s.outcome.next ss := rfl

@[simp] theorem clean_cons {s : Step} {ss : List Step} :
    Clean (s :: ss) ↔ (s.outcome.broken? = none ∧ s.outcome.diagnostics = []) ∧ Clean ss :=
  List.forall_mem_cons

theorem clean_iff {ss : List Step} :
    Clean ss ↔ broken? ss = none ∧ ss.flatMap (·.outcome.diagnostics) = [] := by
  rw [broken?, List.findSome?_eq_none_iff, List.flatMap_eq_nil_iff]
  exact forall₂_and

theorem units_cons {s : Step} {ss : List Step} {next : Condition}
    (h : s.outcome = .accepted u next) : units (s :: ss) = u :: units ss := by
  simp [units, h]

theorem unit_step {ss : List Step} (hu : u ∈ units ss) :
    ∃ s ∈ ss, ∃ next, s.outcome = .accepted u next := by
  obtain ⟨s, hs, hunit⟩ := List.mem_filterMap.mp hu
  exact ⟨s, hs, Outcome.unit_some hunit⟩

/-- A clean run is a chain of units that make up the code. -/
theorem Run.chain {code : List Instruction} {ss : List Step} (h : Run p r c code ss)
    (clean : Clean ss) :
    (∃ d, Chain p r c (units ss) d) ∧ (units ss).flatMap CodeUnit.members = code := by
  induction h with
  | done c => exact ⟨⟨c, .nil c⟩, rfl⟩
  | halt c i rest breaks => exact absurd (clean _ (by simp)).1 breaks
  | onward c i rest later ss goesOn takes tail ih =>
    obtain ⟨hfirst, hlater⟩ := clean_cons.mp clean
    obtain ⟨⟨d, hchain⟩, hcode⟩ := ih hlater
    -- The first step is clean as well, so it took a unit, and the run goes on after that unit.
    obtain ⟨u, next, ho, hwhole⟩ := outcome_clean goesOn hfirst.2
    obtain ⟨hknown, _, _, hcarry⟩ := step_accepted ho
    have htakes := step_takes ho takes
    rw [ho] at hchain
    rw [units_cons ho]
    refine ⟨⟨d, .cons c next d u _ hknown hwhole hcarry hchain⟩, ?_⟩
    rw [List.flatMap_cons, hcode, htakes]

end

/-- An instruction of the units' code belongs to one of them. -/
theorem unit_at {us : List CodeUnit} {before after : List Instruction} {i : Instruction}
    (h : us.flatMap CodeUnit.members = before ++ i :: after) :
    ∃ xs u ys l r, us = xs ++ u :: ys ∧ u.members = l ++ i :: r ∧
      before = xs.flatMap CodeUnit.members ++ l ∧ after = r ++ ys.flatMap CodeUnit.members := by
  induction us generalizing before with
  | nil => simp at h
  | cons u us ih =>
    -- Either the first unit ends before the instruction, possibly just before it, or it holds it.
    rw [List.flatMap_cons, List.append_eq_append_iff] at h
    rcases h with ⟨b, rfl, hrest⟩ | ⟨m, hmembers, hrest⟩
    · obtain ⟨xs, v, ys, l, r, rfl, hm, rfl, rfl⟩ := ih hrest
      exact ⟨u :: xs, v, ys, l, r, rfl, hm, by simp, rfl⟩
    · cases m with
      | nil =>
        obtain ⟨xs, v, ys, l, r, rfl, hm, hl, rfl⟩ := @ih [] hrest.symm
        refine ⟨u :: xs, v, ys, l, r, rfl, hm, ?_, rfl⟩
        simp only [List.append_nil] at hmembers
        simp [← hmembers, List.append_assoc, ← hl]
      | cons j r =>
        simp only [List.cons_append, List.cons.injEq] at hrest
        obtain ⟨rfl, rfl⟩ := hrest
        exact ⟨[], u, us, before, r, rfl, hmembers, by simp, rfl⟩

end Scan

def Accepts (mode : Mode) (size : Nat) (code : List Instruction) : Prop :=
  (Inspection.ofChunk mode.policy (.sandbox mode) size (.ok code)).report = .ok ⟨[]⟩

instance (mode : Mode) (size : Nat) (code : List Instruction) :
    Decidable (Accepts mode size code) :=
  match h : (Inspection.ofChunk mode.policy (.sandbox mode) size (.ok code)).report with
  | .error _ => .isFalse (by simp [Accepts, h])
  | .ok r =>
    if hr : r = ⟨[]⟩ then .isTrue (by simp [Accepts, h, hr])
    else .isFalse (by simp [Accepts, h, hr])

def sandboxSteps (mode : Mode) (code : List Instruction) : List Step :=
  Scan.steps mode.policy (.sandbox mode) code

def sandboxUnits (mode : Mode) (code : List Instruction) : List CodeUnit :=
  Scan.units (Scan.steps mode.policy (.sandbox mode) code)

variable {mode : Mode} {size : Nat} {code before after : List Instruction} {i : Instruction}
  {e : Effect}

theorem report_of_unbroken {ss : List Step} (h : Scan.broken? ss = none) :
    (Inspection.scanned ss).report = .ok ⟨Scan.diagnostics ss⟩ := by
  simp [Inspection.report, h]

/-- A chunk of whole bundles gets the report of its scan, unless an assertion is broken. -/
theorem report_eq_iff {p : Policy} {r : Rules} {report : Report} (hs : Bundle.starts size = true) :
    (Inspection.ofChunk p r size (.ok code)).report = .ok report ↔
      Scan.broken? (Scan.steps p r code) = none ∧
        ⟨Scan.diagnostics (Scan.steps p r code)⟩ = report := by
  simp only [Inspection.ofChunk, hs, Bool.not_true, Bool.false_eq_true, ↓reduceIte,
    Inspection.report]
  cases hb : Scan.broken? (Scan.steps p r code) with
  | some assertion => simp
  | none => simp

/-- Nothing is reported on a chunk of whole bundles whose steps are clean and whose jumps land. -/
theorem report_nil_iff {p : Policy} {r : Rules} :
    (Inspection.ofChunk p r size (.ok code)).report = .ok ⟨[]⟩ ↔ Bundle.starts size = true ∧
      Scan.Clean (Scan.steps p r code) ∧ Scan.strayJumps (Scan.steps p r code) = [] := by
  cases hs : Bundle.starts size with
  | false => simp [Inspection.ofChunk, hs, Inspection.report]
  | true =>
    rw [report_eq_iff hs, Scan.clean_iff, and_assoc, ← List.append_eq_nil_iff, ← Scan.diagnostics]
    simp

theorem accepts_iff : Accepts mode size code ↔ Bundle.starts size = true ∧
    Scan.Clean (Scan.steps mode.policy (.sandbox mode) code) ∧
      Scan.strayJumps (Scan.steps mode.policy (.sandbox mode) code) = [] :=
  report_nil_iff

/-- Accepted code is cut into a chain of units. -/
theorem Accepts.chain (h : Accepts mode size code) :
    (∃ d, Scan.Chain mode.policy (.sandbox mode) .default (sandboxUnits mode code) d) ∧
      (sandboxUnits mode code).flatMap CodeUnit.members = code :=
  (Scan.run_steps mode.policy (.sandbox mode) .default code).chain (accepts_iff.mp h).2.1

theorem Accepts.recognized {u : CodeUnit} (h : Accepts mode size code)
    (hu : u ∈ sandboxUnits mode code) :
    Scan.Recognized (.sandbox mode) u ∧ Bundle.Holds u.start u.stop := by
  obtain ⟨⟨d, hchain⟩, _⟩ := h.chain
  obtain ⟨hknown, hwhole⟩ := hchain.mem hu
  exact ⟨hknown, Bundle.holds_of_not_crossed hwhole⟩

theorem Accepts.single (h : Accepts mode size code)
    (hu : .single i e ∈ sandboxUnits mode code) : Rule.single mode i = .accept e := by
  cases (h.recognized hu).1 with
  | single _ _ alone => exact alone

theorem Accepts.guarded {head : Instruction} {tail : List Instruction} (h : Accepts mode size code)
    (hu : .idiom head tail ∈ sandboxUnits mode code) :
    ∃ front last, head :: tail = front ++ [last] ∧ Rule.Guarded mode front last := by
  cases (h.recognized hu).1 with
  | idiom _ _ _ whole =>
    have hw : Rule.idiom mode (head :: tail) = .accept () := whole
    apply Rule.idiom_shape
    simp [hw]

theorem Accepts.mem_code {u : CodeUnit} (h : Accepts mode size code)
    (hu : u ∈ sandboxUnits mode code) (hi : i ∈ u.members) : i ∈ code := by
  rw [← h.chain.2]
  exact List.mem_flatMap.mpr ⟨u, hu, hi⟩

/-- An instruction that was accepted on its own has its place among the units. -/
theorem Accepts.place (h : Accepts mode size code) (tiles : Tiles 0 code size)
    (hu : .single i e ∈ sandboxUnits mode code) (hc : code = before ++ i :: after) :
    ∃ xs ys, sandboxUnits mode code = xs ++ .single i e :: ys ∧
      before = xs.flatMap CodeUnit.members ∧ after = ys.flatMap CodeUnit.members := by
  obtain ⟨xs, ys, hxs⟩ := List.append_of_mem hu
  have hcode := h.chain.2
  rw [hxs, List.flatMap_append, List.flatMap_cons] at hcode
  have he := hc.symm.trans hcode.symm
  obtain ⟨hb, ha⟩ := (hc ▸ tiles).place_unique he
  exact ⟨xs, ys, hxs, hb, ha⟩

theorem Accepts.unit_of (h : Accepts mode size code) (hi : i ∈ code) :
    (∃ e, .single i e ∈ sandboxUnits mode code) ∨
      ∃ head tail, .idiom head tail ∈ sandboxUnits mode code ∧ i ∈ head :: tail := by
  rw [← h.chain.2] at hi
  obtain ⟨u, hu, hm⟩ := List.mem_flatMap.mp hi
  cases u with
  | single insn e =>
    have he : i = insn := by simpa using hm
    exact Or.inl ⟨e, he ▸ hu⟩
  | idiom head tail => exact Or.inr ⟨head, tail, hu, hm⟩

namespace Sample

def nop (address length : Nat) : Instruction where
  address := address
  length := length
  mnemonic := "nop"
  disassembly := "nop"

def jumpFrom (address : Nat) (distance : Int) : Instruction where
  address := address
  length := 2
  mnemonic := "jmp"
  operands := [.immediate distance]
  disassembly := "jmp"

def systemCall (address : Nat) : Instruction where
  address := address
  length := 2
  mnemonic := "syscall"
  disassembly := "syscall"

end Sample

end FaultIsolation
