import FaultIsolation.Proofs.BranchLanding
import FaultIsolation.Proofs.ExactVerdict
import FaultIsolation.Proofs.Relocation
import FaultIsolation.Proofs.Seam

namespace FaultIsolation

theorem Word.signed_mod_bundle (d : Int) : Word.signed d % Bundle.size = d % Bundle.size := by
  simp only [Word.signed, Int.bmod, Word.count, Bundle.size]
  omega

theorem Word.signed_small {n : Nat} (h : 2 * n < Word.count) : Word.signed n = n := by
  simp only [Word.signed, Int.bmod, Word.count] at h ⊢
  omega

namespace Scan

section
variable {p : Policy} {r : Rules} {k source : Nat} {c : Condition} {d : Int}
  {code : List Instruction} {us vs : List CodeUnit}

theorem Cut.shift {next : Condition} (moves : Relocatable p r k)
    (h : Cut r p.longest (Lets p) c code us next) :
    Cut r p.longest (Lets p) c (code.map (·.shift k)) (us.map (·.shift k)) next := by
  obtain ⟨clean, rfl, rfl⟩ := h.steps
  have hmoved := steps_shift moves 0 c code
  rw [← hmoved.units_eq, ← hmoved.final_eq]
  exact (run_steps p r c _).cut ((hmoved.clean_iff moves.bundles).mpr clean)

theorem LastJump.of_append (h : LastJump (us ++ vs) source d) :
    LastJump us source d ∨ LastJump vs source d := by
  obtain ⟨xs, i, e, ys, hsplit, ha, hj, hlater⟩ := h
  rcases List.append_eq_append_iff.mp hsplit with ⟨m, rfl, rfl⟩ | ⟨m, rfl, hm⟩
  · exact Or.inr ⟨m, i, e, ys, rfl, ha, hj, hlater⟩
  · cases m with
    | nil => exact Or.inr ⟨[], i, e, ys, hm.symm, ha, hj, hlater⟩
    | cons u m =>
      obtain ⟨rfl, rfl⟩ := List.cons.inj hm
      refine Or.inl ⟨xs, i, e, m, rfl, ha, hj, ?_⟩
      intro j e' hmem
      exact hlater j e' (List.mem_append_left _ hmem)

theorem JumpsLand.append (hl : JumpsLand us) (hr : JumpsLand vs) : JumpsLand (us ++ vs) := by
  intro source d hlast
  rcases hlast.of_append with hlast | hlast
  · refine (hl source d hlast).imp_right ?_
    rintro ⟨u, hu, hd⟩
    exact ⟨u, List.mem_append_left _ hu, hd⟩
  · refine (hr source d hlast).imp_right ?_
    rintro ⟨u, hu, hd⟩
    exact ⟨u, List.mem_append_right _ hu, hd⟩

/-- The jumps of moved units are the moved jumps. -/
theorem last_jump_shift_iff : LastJump (us.map (·.shift k)) source d ↔
    ∃ place e, LastJump us place e ∧ source = place + k ∧ d = Word.signed (e + k) := by
  constructor
  · rintro ⟨xs, i, e, ys, hsplit, ha, hj, hlater⟩
    obtain ⟨front, back, rfl, _, hback⟩ := List.map_eq_append_iff.mp hsplit
    obtain ⟨u, later, rfl, hu, rfl⟩ := List.map_eq_cons_iff.mp hback
    cases u with
    | idiom head tail => cases hu
    | single insn effect =>
      cases hu
      obtain ⟨target, htarget, rfl⟩ := Option.map_eq_some_iff.mp hj
      refine ⟨insn.address, target, ⟨front, insn, effect, later, rfl, rfl, htarget, ?_⟩,
        ha.symm, rfl⟩
      intro j e' hmem haddress
      have hmoved : CodeUnit.single (j.shift k) (e'.shift k) ∈ later.map (·.shift k) :=
        List.mem_map.mpr ⟨_, hmem, rfl⟩
      have hsource : (j.shift k).address = source := by
        rw [← ha]
        exact congrArg (· + k) haddress
      exact Option.map_eq_none_iff.mp (hlater _ _ hmoved hsource)
  · rintro ⟨place, e, ⟨xs, i, effect, ys, rfl, rfl, hj, hlater⟩, rfl, rfl⟩
    have hmap : (xs ++ .single i effect :: ys).map (·.shift k) =
        xs.map (·.shift k) ++ .single (i.shift k) (effect.shift k) :: ys.map (·.shift k) := by
      rw [List.map_append, List.map_cons]
      rfl
    refine ⟨_, _, _, _, hmap, rfl, by simp [Effect.shift, hj], ?_⟩
    intro j e' hmem haddress
    obtain ⟨u, hu, hmoved⟩ := List.mem_map.mp hmem
    cases u with
    | idiom head tail => cases hmoved
    | single insn effect' =>
      cases hmoved
      have hplace : insn.address = i.address := Nat.add_right_cancel haddress
      simp [Effect.shift, hlater insn effect' hu hplace]

/-- Jumps that land do so after a move, if the units stay among the words without a sign. -/
theorem JumpsLand.shift (h : JumpsLand us) (hk : Bundle.starts k = true)
    (hsmall : ∀ u ∈ us, 2 * (u.start + k) < Word.count) : JumpsLand (us.map (·.shift k)) := by
  intro source d hlast
  obtain ⟨place, e, hplace, _, rfl⟩ := last_jump_shift_iff.mp hlast
  rcases h place e hplace with he | ⟨u, hu, rfl⟩
  · left
    have hk := Bundle.starts_iff.mp hk
    rw [Word.signed_mod_bundle]
    simp only [Bundle.size] at he hk ⊢
    omega
  · right
    refine ⟨u.shift k, List.mem_map.mpr ⟨u, hu, rfl⟩, ?_⟩
    rw [CodeUnit.shift_start, ← Int.natCast_add, Word.signed_small (hsmall u hu)]

end

section
variable {mode : Mode} {a b : Nat} {front back : List Instruction} {d e : Condition}
  {us xs ys : List CodeUnit}

abbrev SandboxCut (mode : Mode) : Condition → List Instruction → List CodeUnit → Condition → Prop :=
  Cut (.sandbox mode) mode.policy.longest (Lets mode.policy)

/-- Nothing is carried over the end of a chunk. -/
theorem Cut.ends_default (h : SandboxCut mode .default front us d) (tiles : Tiles 0 front a)
    (ha : Bundle.starts a = true) : d = .default := by
  obtain ⟨clean, _, rfl⟩ := h.steps
  have hrun := run_steps mode.policy (.sandbox mode) .default front
  exact (hrun.at_bundle_start clean tiles fun _ => rfl).2 ha

theorem Cut.join (hl : SandboxCut mode .default front xs d)
    (hr : SandboxCut mode .default back ys e) (tiles : Tiles 0 front a)
    (ha : Bundle.starts a = true) :
    SandboxCut mode .default (front ++ back.map (·.shift a)) (xs ++ ys.map (·.shift a)) e := by
  have hmoved := hr.shift (sandbox_relocatable mode ha)
  cases hl.ends_default tiles ha
  exact hl.append hmoved fun s _ hs t ht hne => hmoved.window_before hs ht hne

/-- The scan of two chunks is clean exactly if the scan of each is. -/
theorem clean_join_iff (tilesFront : Tiles 0 front a) (tilesBack : Tiles 0 back b)
    (ha : Bundle.starts a = true) :
    Clean (sandboxSteps mode (front ++ back.map (·.shift a))) ↔
      Clean (sandboxSteps mode front) ∧ Clean (sandboxSteps mode back) := by
  constructor
  · intro clean
    obtain ⟨us, d, hcut⟩ := clean_iff_cut.mp clean
    have tilesMoved : Tiles a (back.map (·.shift a)) (b + a) := by
      simpa using tilesBack.shift (k := a)
    -- The end of the first chunk is a bundle start, so it is a seam of the cut.
    obtain ⟨xs, ys, rfl, hxs⟩ :=
      hcut.seam (tilesFront.append tilesMoved) ha (Nat.zero_le a) (Nat.le_add_left a b)
    obtain ⟨mid, hl, hr⟩ := hcut.split
    have hmembers := hcut.members
    rw [List.flatMap_append] at hmembers
    obtain ⟨hfront, hback⟩ := hxs.front_unique tilesFront hmembers
    rw [hfront] at hl
    rw [hback] at hr
    cases hl.ends_default tilesFront ha
    have hmoved := sandbox_steps_shift mode ha back
    exact ⟨hl.steps.1, (hmoved.clean_iff ha).mp hr.steps.1⟩
  · rintro ⟨hl, hr⟩
    obtain ⟨xs, d, hl⟩ := clean_iff_cut.mp hl
    obtain ⟨ys, e, hr⟩ := clean_iff_cut.mp hr
    exact clean_iff_cut.mpr ⟨_, e, hl.join hr tilesFront ha⟩

end

end Scan

section
variable {mode : Mode} {size a b : Nat} {code front back : List Instruction}

/-- There is a report on the chunk, and it names nothing but jumps to where none may land. -/
def FaultsOnlyJumps (mode : Mode) (size : Nat) (code : List Instruction) : Prop :=
  ∃ report, (Inspection.ofChunk mode.policy (.sandbox mode) size (.ok code)).report = .ok report ∧
    ∀ x ∈ report.diagnostics, ∃ source d, x = .jumpIntoInstruction source d

theorem faults_only_jumps_iff (hs : Bundle.starts size = true) :
    FaultsOnlyJumps mode size code ↔ Scan.Clean (sandboxSteps mode code) := by
  rw [Scan.clean_iff]
  constructor
  · rintro ⟨report, hok, honly⟩
    obtain ⟨hb, rfl⟩ := (report_eq_iff hs).mp hok
    refine ⟨hb, List.eq_nil_iff_forall_not_mem.mpr fun x hx => ?_⟩
    obtain ⟨source, d, rfl⟩ := honly x (List.mem_append_left _ hx)
    obtain ⟨s, _, hs⟩ := List.mem_flatMap.mp hx
    exact Outcome.diagnostic_no_jump hs
  · rintro ⟨hb, hnone⟩
    refine ⟨_, (report_eq_iff hs).mpr ⟨hb, rfl⟩, fun x hx => ?_⟩
    have hstray : Scan.diagnostics (sandboxSteps mode code) =
        Scan.strayJumps (sandboxSteps mode code) := by
      rw [Scan.diagnostics, hnone, List.nil_append]
    obtain ⟨source, d, hx, _⟩ := Scan.mem_stray_jumps (hstray ▸ hx)
    exact ⟨source, d, hx⟩

theorem Accepts.join (hl : Accepts mode a front) (hr : Accepts mode b back)
    (tilesFront : Tiles 0 front a) (tilesBack : Tiles 0 back b)
    (small : 2 * (a + b) ≤ Word.count) :
    Accepts mode (a + b) (front ++ back.map (·.shift a)) := by
  obtain ⟨ha, xs, d, hxs, hlandl⟩ := report_nil_iff_cut.mp hl
  obtain ⟨hb, ys, e, hys, hlandr⟩ := report_nil_iff_cut.mp hr
  have hsize : Bundle.starts (a + b) = true := by rw [Bundle.starts_add hb, ha]
  have hsmall : ∀ u ∈ ys, 2 * (u.start + a) < Word.count := by
    intro u hu
    have hmem : u.head ∈ back := by
      rw [← hys.members]
      exact List.mem_flatMap.mpr ⟨u, hu, List.mem_cons_self⟩
    have hrange := tilesBack.mem_range hmem
    have hstart : u.start = u.head.address := rfl
    omega
  exact report_nil_iff_cut.mpr ⟨hsize, _, e, hxs.join hys tilesFront ha,
    hlandl.append (hlandr.shift ha hsmall)⟩

/-- Two chunks of whole bundles, one after the other, have faults other than jumps exactly if one of
them has. If nothing is wrong with either, nothing is wrong with the two together, as long as their
bytes can be numbered by the words that are not negative. -/
theorem joined_chunks (mode : Mode) (tilesFront : Tiles 0 front a) (tilesBack : Tiles 0 back b)
    (ha : a % Bundle.size = 0) (hb : b % Bundle.size = 0) :
    (FaultsOnlyJumps mode (a + b) (front ++ back.map (·.shift a)) ↔
      FaultsOnlyJumps mode a front ∧ FaultsOnlyJumps mode b back) ∧
    (2 * (a + b) ≤ Word.count → Accepts mode a front → Accepts mode b back →
      Accepts mode (a + b) (front ++ back.map (·.shift a))) := by
  rw [← Bundle.starts_iff] at ha hb
  have hsize : Bundle.starts (a + b) = true := by rw [Bundle.starts_add hb, ha]
  constructor
  · rw [faults_only_jumps_iff hsize, faults_only_jumps_iff ha, faults_only_jumps_iff hb]
    exact Scan.clean_join_iff tilesFront tilesBack ha
  · intro small hl hr
    exact hl.join hr tilesFront tilesBack small

end

namespace Sample

/-- A bundle that ends with the first instruction of an idiom. -/
def frontBundle : List Instruction :=
  [nop 0 8, nop 8 8, nop 16 8, nop 24 5, { roundTarget with address := 29 }]

/-- A bundle that begins with the second instruction of that idiom, but goes on otherwise. -/
def backBundle : List Instruction :=
  [{ rebaseTarget with address := 0 }, jumpFrom 3 (-2)] ++ [5, 14, 23].map (nop · 9)

end Sample

theorem joined_chunks_seam :
    Tiles 0 Sample.frontBundle 32 ∧ Tiles 0 Sample.backBundle 32 ∧
      Accepts .bits64 32 Sample.frontBundle ∧ Accepts .bits64 32 Sample.backBundle ∧
      FaultsOnlyJumps .bits64 64 (Sample.frontBundle ++ Sample.backBundle.map (·.shift 32)) ∧
      Accepts .bits64 64 (Sample.frontBundle ++ Sample.backBundle.map (·.shift 32)) := by
  have tilesFront : Tiles 0 Sample.frontBundle 32 := by decide
  have tilesBack : Tiles 0 Sample.backBundle 32 := by decide
  have front : Accepts .bits64 32 Sample.frontBundle := by decide +kernel
  have back : Accepts .bits64 32 Sample.backBundle := by decide +kernel
  have onlyJumps {code : List Instruction} (h : Accepts .bits64 32 code) :
      FaultsOnlyJumps .bits64 32 code := ⟨⟨[]⟩, h, by simp⟩
  obtain ⟨faults, accepts⟩ := joined_chunks .bits64 tilesFront tilesBack rfl rfl
  exact ⟨tilesFront, tilesBack, front, back, faults.mpr ⟨onlyJumps front, onlyJumps back⟩,
    accepts (by decide) front back⟩

end FaultIsolation
