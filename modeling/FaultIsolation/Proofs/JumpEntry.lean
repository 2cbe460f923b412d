import FaultIsolation.Proofs.Carrying
import FaultIsolation.Proofs.Landing

namespace FaultIsolation

def Instruction.IndexesMemory (i : Instruction) : Prop :=
  Rule.pointerUpdate? i = none ∧ i.opcode?.any Opcode.dereferences = true ∧
    ∃ m ∈ i.memories, m.index ≠ none

/-- The unit is an instruction that relies on the one before it: an access through an index, or the
rebasing of a pointer. -/
def CodeUnit.Dependent (u : CodeUnit) : Prop :=
  ∃ i e, u = .single i e ∧ (i.IndexesMemory ∨ i.Rebases .rsp ∨ i.Rebases .rbp)

section
variable {size : Nat} {code : List Instruction} {i b : Instruction} {e : Effect} {u : CodeUnit}

theorem Condition.default_covers_iff {c : Condition} :
    Condition.default.covers c = true ↔ c = .default := by
  cases c <;> simp [Condition.covers]

theorem Rule.indexed_needs (h : Rule.single .bits64 i = .accept e) (hi : i.IndexesMemory) :
    e.pre ≠ .default := by
  obtain ⟨hform, hderef, m, hm, hindex⟩ := hi
  obtain ⟨op, ho, hd⟩ := (Option.any_eq_true _ _).mp hderef
  obtain ⟨need, href, hneed⟩ := (Rule.single_references h ho hd hform).each m hm
  cases href with
  | relative _ _ _ unindexed => exact absurd unindexed hindex
  | pointer _ _ _ _ unindexed => exact absurd unindexed hindex
  | indexed _ index => simp [hneed _ rfl]

/-- The units that need something beyond the ordinary are the dependent ones. -/
theorem Accepts.dependent_iff (h : Accepts .bits64 size code)
    (hu : u ∈ sandboxUnits .bits64 code) : u.Dependent ↔ u.effect.pre ≠ .default := by
  constructor
  · rintro ⟨i, e, rfl, hi | hi | hi⟩
    · exact Rule.indexed_needs (h.single hu) hi
    · simp [Rule.single_rebase (h.single hu) (Or.inl rfl) hi]
    · simp [Rule.single_rebase (h.single hu) (Or.inr rfl) hi]
  · intro hn
    cases u with
    | idiom head tail => exact absurd rfl hn
    | single i e =>
      obtain ⟨op, ho, hneeds⟩ := Rule.single_needs (h.single hu) hn
      refine ⟨i, e, rfl, ?_⟩
      generalize e.pre = need at hneeds
      cases hneeds with
      | rebase f pointer form =>
        rcases pointer with rfl | rfl
        · exact Or.inr (Or.inl form)
        · exact Or.inr (Or.inr form)
      | access m f form dereferences mem reference =>
        refine Or.inl ⟨form, by simp [ho, dereferences], m, mem, ?_⟩
        generalize hneed : some f = need at reference
        cases reference with
        | relative => cases hneed
        | pointer => cases hneed
        | indexed _ index _ _ _ indexed => simp [indexed]

/-- A dependent unit begins inside a bundle, right after an instruction of that bundle that leaves
what it needs. -/
theorem Accepts.dependent_after (h : Accepts .bits64 size code) (tiles : Tiles 0 code size)
    (hu : u ∈ sandboxUnits .bits64 code) (hdep : u.Dependent) :
    Bundle.starts u.start = false ∧
      ∃ j e', .single j e' ∈ sandboxUnits .bits64 code ∧ j.stop = u.start ∧
        e'.post = u.effect.pre ∧ Bundle.Holds j.address u.stop := by
  have hn := (h.dependent_iff hu).mp hdep
  obtain ⟨i, e, rfl, _⟩ := hdep
  have hi : i ∈ code := h.mem_code hu (List.mem_cons_self (a := i))
  obtain ⟨before, after, place⟩ := List.append_of_mem hi
  obtain ⟨front, j, e', rfl, hj, hpost, hbundle⟩ := h.left_before tiles hu place hn
  have hadj : j.stop = i.address := by
    rw [place, List.append_assoc, List.singleton_append] at tiles
    exact tiles.adjacent
  have hjlt := (tiles.mem_range (i := j) (by simp [place])).2.1
  have hilt := (tiles.mem_range hi).2.1
  refine ⟨?_, j, e', hj, hadj, hpost, hbundle⟩
  -- The byte before the unit lies in its bundle.
  have hprev := hbundle (i.address - 1) (by omega) (by omega)
  have hfirst := hbundle i.address (by omega) hilt
  simp only [CodeUnit.start_single, Bundle.starts_eq_false, Bundle.size] at hprev hfirst ⊢
  omega

/-- No scan of 64-bit code, whether it accepts the code or not, reports a jump to the start of an
accepted unit. In accepted code a direct branch into the chunk enters at the start of a unit. What
holds after a branch is enough for the unit exactly if the unit is neither an access through an
index nor the rebasing of a pointer. Those begin inside a bundle, and what they need is left by the
instruction just before them in that bundle. -/
theorem jump_entry (code : List Instruction) :
    (∀ u ∈ sandboxUnits .bits64 code, ∀ source,
      .jumpIntoInstruction source u.start ∉ Scan.diagnostics (sandboxSteps .bits64 code)) ∧
    ∀ size, Tiles 0 code size → Accepts .bits64 size code →
      ∀ b ∈ code, ∀ d, b.destination? = some d →
        (0 ≤ d ∧ d < size → ∃ u ∈ sandboxUnits .bits64 code, (u.start : Int) = d) ∧
        ∀ u ∈ sandboxUnits .bits64 code, (u.start : Int) = d →
          (Condition.default.covers u.effect.pre = true ↔ ¬u.Dependent) ∧
          (u.Dependent → d % Bundle.size ≠ 0 ∧
            ∃ j e, .single j e ∈ sandboxUnits .bits64 code ∧ j.stop = u.start ∧
              e.post = u.effect.pre ∧ Bundle.Holds j.address u.stop) := by
  refine ⟨fun u hu source => Scan.unit_start_not_reported hu source, ?_⟩
  intro size tiles accepted b branch d goes
  constructor
  · intro inside
    obtain ⟨e, hb, hj⟩ := accepted.branch_unit branch goes
    rcases accepted.jump_lands tiles hb hj with hd | hd
    · -- A bundle of the code begins with a unit.
      obtain ⟨n, rfl⟩ := Int.eq_ofNat_of_zero_le inside.1
      have hs : Bundle.starts n = true := by
        simp only [Bundle.starts_iff, Bundle.size] at hd ⊢
        omega
      obtain ⟨u, hu, hn⟩ := accepted.bundle_start tiles hs (by omega)
      exact ⟨u, hu, by rw [hn]⟩
    · exact hd
  · rintro u hu rfl
    refine ⟨?_, fun hdep => ?_⟩
    · rw [Condition.default_covers_iff, accepted.dependent_iff hu, not_not]
    · obtain ⟨hs, hbefore⟩ := accepted.dependent_after tiles hu hdep
      refine ⟨?_, hbefore⟩
      simp only [Bundle.starts_eq_false, Bundle.size] at hs ⊢
      omega

/-- A jump to a store is reported neither in accepted code nor where a system call follows. -/
theorem jump_entry_store :
    (¬Accepts .bits64 64 (Sample.bundle ++ [Sample.systemCall 32]) ∧ ∀ source,
      .jumpIntoInstruction source 2 ∉
        Scan.diagnostics (sandboxSteps .bits64 (Sample.bundle ++ [Sample.systemCall 32]))) ∧
    Tiles 0 Sample.bundle 32 ∧ Accepts .bits64 32 Sample.bundle ∧
      Sample.jumpToStore ∈ Sample.bundle ∧ Sample.jumpToStore.destination? = some 2 ∧
      (∃ u ∈ sandboxUnits .bits64 Sample.bundle, (u.start : Int) = 2) ∧
      ∃ j e, .single j e ∈ sandboxUnits .bits64 Sample.bundle ∧ j.stop = 2 ∧
        e.post = .zeroExtended .rax ∧ Bundle.Holds j.address Sample.store.stop := by
  have tiles : Tiles 0 Sample.bundle 32 := by decide
  have accepted : Accepts .bits64 32 Sample.bundle := by decide +kernel
  have branch : Sample.jumpToStore ∈ Sample.bundle := by decide
  have goes : Sample.jumpToStore.destination? = some 2 := by decide +kernel
  have stored : .single Sample.store { pre := .zeroExtended .rax } ∈
      sandboxUnits .bits64 Sample.bundle := by decide +kernel
  have storedBefore : .single Sample.store { pre := .zeroExtended .rax } ∈
      sandboxUnits .bits64 (Sample.bundle ++ [Sample.systemCall 32]) := by decide +kernel
  have unreported := (jump_entry (Sample.bundle ++ [Sample.systemCall 32])).1 _ storedBefore
  obtain ⟨lands, entry⟩ := (jump_entry Sample.bundle).2 32 tiles accepted _ branch 2 goes
  obtain ⟨covers, before⟩ := entry _ stored rfl
  have dependent : (CodeUnit.single Sample.store { pre := .zeroExtended .rax }).Dependent := by
    by_contra independent
    exact absurd (covers.mpr independent) (by decide)
  exact ⟨⟨by decide +kernel, unreported⟩, tiles, accepted, branch, goes, lands (by decide),
    (before dependent).2⟩

/-- Jumps past the instructions that prepare a store and a rebasing are accepted, though what holds
after a jump is not enough for either. -/
theorem jump_past_preparation :
    Tiles 0 Sample.bundle 32 ∧ Accepts .bits64 32 Sample.bundle ∧
      (Sample.jumpToStore ∈ Sample.bundle ∧ Sample.jumpToStore.destination? = some 2 ∧
        ∃ u ∈ sandboxUnits .bits64 Sample.bundle, u.start = 2 ∧
          Condition.default.covers u.effect.pre = false) ∧
      (Sample.jumpToRebase ∈ Sample.bundle ∧ Sample.jumpToRebase.destination? = some 9 ∧
        ∃ u ∈ sandboxUnits .bits64 Sample.bundle, u.start = 9 ∧
          Condition.default.covers u.effect.pre = false) := by
  decide +kernel

end

end FaultIsolation
