import FaultIsolation.Proofs.Landing
import FaultIsolation.Proofs.Mediation

namespace FaultIsolation

/-- Units that fill a range do not overlap. -/
theorem Scan.unit_start_unique {us : List CodeUnit} {start stop : Nat} {u v : CodeUnit}
    (h : Tiles start (us.flatMap CodeUnit.members) stop) (hu : u ∈ us) (hv : v ∈ us)
    (hge : u.start ≤ v.start) (hlt : v.start < u.stop) : v.start = u.start := by
  obtain ⟨xs, ys, rfl⟩ := List.append_of_mem hu
  rw [List.flatMap_append, List.flatMap_cons] at h
  obtain ⟨mid, hleft, hright⟩ := h.split
  obtain ⟨hmid, _, hafter⟩ := Scan.unit_tiles hright
  have hhead {vs : List CodeUnit} (hm : v ∈ vs) : v.head ∈ vs.flatMap CodeUnit.members :=
    List.mem_flatMap.mpr ⟨v, hm, List.mem_cons_self⟩
  rcases List.mem_append.mp hv with hv | hv
  · have hrange := hleft.mem_range (hhead hv)
    simp only [CodeUnit.start] at hge hmid
    omega
  · rcases List.mem_cons.mp hv with rfl | hv
    · rfl
    · have hrange := hafter.mem_range (hhead hv)
      simp only [CodeUnit.start] at hlt
      omega

section
variable {mode : Mode} {size : Nat} {code : List Instruction} {i b : Instruction} {d : Int}

theorem Accepts.tiles_units (h : Accepts mode size code) (tiles : Tiles 0 code size) :
    Tiles 0 ((sandboxUnits mode code).flatMap CodeUnit.members) size := by
  rw [h.chain.2]
  exact tiles

/-- A bundle start lies on the edge of a unit or outside of it. -/
theorem Accepts.aligned_outside {u : CodeUnit} (h : Accepts mode size code)
    (hu : u ∈ sandboxUnits mode code) (hd : d % Bundle.size = 0) :
    ¬((u.start : Int) < d ∧ d < u.stop) := by
  rintro ⟨hlt, hgt⟩
  obtain ⟨n, rfl⟩ := Int.eq_ofNat_of_zero_le (show 0 ≤ d by omega)
  have hbundle := (h.recognized hu).2 n (by omega) (by omega)
  simp only [Bundle.size] at hd hbundle
  omega

theorem Accepts.branch_goes (h : Accepts mode size code) (tiles : Tiles 0 code size)
    (hb : b ∈ code) (hd : b.destination? = some d) :
    d % Bundle.size = 0 ∨ ∃ u ∈ sandboxUnits mode code, (u.start : Int) = d := by
  obtain ⟨e, hu, hj⟩ := h.branch_unit hb hd
  exact h.jump_lands tiles hu hj

theorem Accepts.branch_outside {u : CodeUnit} (h : Accepts mode size code)
    (tiles : Tiles 0 code size) (hb : b ∈ code) (hd : b.destination? = some d)
    (hu : u ∈ sandboxUnits mode code) : ¬((u.start : Int) < d ∧ d < u.stop) := by
  rcases h.branch_goes tiles hb hd with haligned | ⟨v, hv, rfl⟩
  · exact h.aligned_outside hu haligned
  · rintro ⟨hlt, hgt⟩
    have hsame := Scan.unit_start_unique (h.tiles_units tiles) hu hv (by omega) (by omega)
    omega

/-- An instruction lies between the ends of its unit. -/
theorem Accepts.unit_around (h : Accepts mode size code) (tiles : Tiles 0 code size)
    (hi : i ∈ code) :
    ∃ u ∈ sandboxUnits mode code, u.start ≤ i.address ∧ i.stop ≤ u.stop := by
  rw [← h.chain.2] at hi
  obtain ⟨u, hu, hm⟩ := List.mem_flatMap.mp hi
  obtain ⟨xs, ys, hus⟩ := List.append_of_mem hu
  have htiles := h.tiles_units tiles
  rw [hus, List.flatMap_append, List.flatMap_cons] at htiles
  obtain ⟨_, _, hright⟩ := htiles.split
  obtain ⟨_, hmembers, _⟩ := hright.split
  obtain ⟨hstart, hstop⟩ := Scan.unit_fills hmembers
  have hrange := hmembers.mem_range hm
  exact ⟨u, hu, by omega, by omega⟩

/-- A direct branch of accepted code does not go strictly inside a unit, so neither inside an
instruction nor to one that is not the first of its unit. It goes to a bundle start, which may lie
outside of the chunk, or to the start of a unit. -/
theorem branch_never_inside_unit (tiles : Tiles 0 code size) (accepted : Accepts mode size code)
    (branch : b ∈ code) (goes : b.destination? = some d) :
    (∀ u ∈ sandboxUnits mode code, ¬((u.start : Int) < d ∧ d < u.stop)) ∧
      (∀ i ∈ code, (i.address : Int) ≤ d → d < i.stop →
        ∃ u ∈ sandboxUnits mode code, u.head = i ∧ (u.start : Int) = d) ∧
      (d % Bundle.size = 0 ∨ ∃ u ∈ sandboxUnits mode code, (u.start : Int) = d) := by
  have houtside (u : CodeUnit) (hu : u ∈ sandboxUnits mode code) :=
    accepted.branch_outside tiles branch goes hu
  refine ⟨houtside, ?_, accepted.branch_goes tiles branch goes⟩
  intro i hi hge hlt
  obtain ⟨u, hu, hstart, hstop⟩ := accepted.unit_around tiles hi
  have hnot := houtside u hu
  have hd : (u.start : Int) = d := by omega
  -- The unit begins where the instruction does, so it begins with it.
  have hhead : u.head ∈ code := accepted.mem_code hu List.mem_cons_self
  have haddress : u.head.address = i.address := by
    simp only [CodeUnit.start] at hstart hd
    omega
  exact ⟨u, hu, tiles.address_injective hhead hi haddress, hd⟩

namespace Sample

def enteredRound : Instruction :=
  { roundTarget with address := 1 }

def jumpToIdiom : Instruction :=
  jumpFrom 9 (-10)

def enteredBundle : List Instruction :=
  [nop 0 1, enteredRound, { rebaseTarget with address := 4 }, { jumpThrough with address := 7 },
    jumpToIdiom] ++ [11, 18, 25].map (nop · 7)

end Sample

theorem branch_never_inside_unit_idiom :
    Tiles 0 Sample.enteredBundle 32 ∧ Accepts .bits64 32 Sample.enteredBundle ∧
      Sample.jumpToIdiom ∈ Sample.enteredBundle ∧ Sample.jumpToIdiom.destination? = some 1 ∧
      (∀ u ∈ sandboxUnits .bits64 Sample.enteredBundle,
        ¬((u.start : Int) < 1 ∧ (1 : Int) < u.stop)) ∧
      ∃ u ∈ sandboxUnits .bits64 Sample.enteredBundle,
        u.head = Sample.enteredRound ∧ (u.start : Int) = 1 := by
  have tiles : Tiles 0 Sample.enteredBundle 32 := by decide
  have accepted : Accepts .bits64 32 Sample.enteredBundle := by decide +kernel
  have branch : Sample.jumpToIdiom ∈ Sample.enteredBundle := by decide
  have goes : Sample.jumpToIdiom.destination? = some 1 := by decide +kernel
  obtain ⟨outside, entry, _⟩ := branch_never_inside_unit tiles accepted branch goes
  exact ⟨tiles, accepted, branch, goes, outside,
    entry Sample.enteredRound (by decide) (by decide) (by decide)⟩

end

end FaultIsolation
