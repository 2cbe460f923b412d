import FaultIsolation.Proofs.Acceptance
import FaultIsolation.Proofs.SingleRule

namespace FaultIsolation

namespace Scan

/-- Of the jumps with one source the last is remembered. -/
theorem jump_table (js : List (Nat × Int)) (m : Std.TreeMap Nat Int) (source : Nat) :
    (js.foldl (fun m j => m.insert j.1 j.2) m)[source]? =
      ((js.reverse.find? (·.1 == source)).map Prod.snd).or m[source]? := by
  induction js generalizing m with
  | nil => simp
  | cons j js ih =>
    rw [List.foldl_cons, ih, Std.TreeMap.getElem?_insert, List.reverse_cons, List.find?_append]
    cases hf : js.reverse.find? (·.1 == source) with
    | some k => simp
    | none =>
      by_cases hj : j.1 = source
      · simp [hj]
      · simp [hj]

theorem mem_jumps {ss : List Step} {source : Nat} {d : Int} :
    (source, d) ∈ jumps ss ↔
      ((ss.filterMap (·.outcome.jump?)).reverse.find? (·.1 == source)).map Prod.snd = some d := by
  rw [jumps, Std.TreeMap.mem_toList_iff_getElem?_eq_some, jump_table]
  simp

/-- A jump is remembered if all jumps with its source go to one place. -/
theorem mem_jumps_of_unique {ss : List Step} {source : Nat} {d : Int}
    (h : (source, d) ∈ ss.filterMap (·.outcome.jump?))
    (hu : ∀ d', (source, d') ∈ ss.filterMap (·.outcome.jump?) → d' = d) :
    (source, d) ∈ jumps ss := by
  rw [mem_jumps]
  cases hf : (ss.filterMap (·.outcome.jump?)).reverse.find? (·.1 == source) with
  | none =>
    have hno := List.find?_eq_none.mp hf (source, d) (List.mem_reverse.mpr h)
    simp at hno
  | some j =>
    have hs : j.1 = source := by simpa using List.find?_some hf
    have hm := List.mem_reverse.mp (List.mem_of_find?_eq_some hf)
    have hd : j.2 = d := hu j.2 (hs ▸ hm)
    simp [hd]

theorem lands_iff {places : List Nat} {d : Int} :
    lands (Std.TreeSet.ofList places) d = true ↔
      d % Bundle.size = 0 ∨ ∃ n ∈ places, (n : Int) = d := by
  simp only [lands, Bool.or_eq_true, beq_iff_eq, Bool.and_eq_true, decide_eq_true_eq,
    Std.TreeSet.contains_ofList, List.contains_iff_mem]
  constructor
  · rintro (h | ⟨h0, hm⟩)
    · exact Or.inl h
    · exact Or.inr ⟨d.toNat, hm, Int.toNat_of_nonneg h0⟩
  · rintro (h | ⟨n, hm, rfl⟩)
    · exact Or.inl h
    · exact Or.inr ⟨Int.natCast_nonneg n, by simpa using hm⟩

theorem mem_stray_jumps {ss : List Step} {x : Diagnostic} (h : x ∈ strayJumps ss) :
    ∃ source d, x = .jumpIntoInstruction source d ∧ (source, d) ∈ jumps ss := by
  obtain ⟨⟨source, d⟩, hmem, hj⟩ := List.mem_filterMap.mp h
  split at hj
  · cases hj
  · cases hj
    exact ⟨source, d, rfl, hmem⟩

theorem jumps_of_units (ss : List Step) :
    ss.filterMap (·.outcome.jump?) =
      (units ss).filterMap fun u => u.effect.jump.map (u.start, ·) := by
  rw [units, List.filterMap_filterMap]
  congr 1
  funext s
  cases s.outcome <;> rfl

@[simp] theorem starts_cons {s : Step} {ss : List Step} :
    starts (s :: ss) = s.start :: starts ss := rfl

/-- Clean steps begin where their units do. -/
theorem clean_starts {ss : List Step} (clean : Clean ss) :
    starts ss = (units ss).map CodeUnit.start := by
  induction ss with
  | nil => rfl
  | cons s ss ih =>
    obtain ⟨⟨hb, hd⟩, hlater⟩ := clean_cons.mp clean
    obtain ⟨u, next, ho, _⟩ := outcome_clean hb hd
    simp [units_cons ho, Step.start_eq ho, ih hlater]

/-- No scan reports a jump to where a unit starts that it accepted, whatever the unit needs. -/
theorem unit_start_not_reported {ss : List Step} {u : CodeUnit} (hu : u ∈ units ss)
    (source : Nat) : .jumpIntoInstruction source u.start ∉ diagnostics ss := by
  intro hreported
  rcases List.mem_append.mp hreported with hfound | hstray
  · obtain ⟨s, _, hs⟩ := List.mem_flatMap.mp hfound
    exact Outcome.diagnostic_no_jump hs
  · obtain ⟨s, hs, next, ho⟩ := unit_step hu
    obtain ⟨⟨source', d⟩, _, hj⟩ := List.mem_filterMap.mp hstray
    split at hj
    · cases hj
    · rename_i hmissed
      cases hj
      have hstart : u.start ∈ starts ss := List.mem_map.mpr ⟨s, hs, Step.start_eq ho⟩
      exact hmissed (lands_iff.mpr (Or.inr ⟨u.start, hstart, rfl⟩))

/-- A unit fills the bytes from its start up to its stop. -/
theorem unit_fills {u : CodeUnit} {start stop : Nat} (h : Tiles start u.members stop) :
    u.start = start ∧ u.stop = stop := by
  have hstart : u.start = start := h.1
  rcases List.eq_nil_or_concat u.members with he | ⟨front, last, he⟩
  · cases he
  · rw [List.concat_eq_append] at he
    rw [he] at h
    rw [CodeUnit.stop_eq he]
    exact ⟨hstart, h.last_stop⟩

/-- Where a unit stops the code after it begins. -/
theorem unit_tiles {u : CodeUnit} {rest : List Instruction} {start stop : Nat}
    (h : Tiles start (u.members ++ rest) stop) :
    u.start = start ∧ u.start < u.stop ∧ Tiles u.stop rest stop := by
  obtain ⟨mid, hu, hrest⟩ := h.split
  obtain ⟨hstart, rfl⟩ := unit_fills hu
  have hhead := hu.mem_range (i := u.head) List.mem_cons_self
  simp only [CodeUnit.start] at hstart ⊢
  exact ⟨hstart, by omega, hrest⟩

/-- Each byte of the code belongs to a unit. -/
theorem unit_of_byte {us : List CodeUnit} {start stop n : Nat}
    (h : Tiles start (us.flatMap CodeUnit.members) stop) (hge : start ≤ n) (hlt : n < stop) :
    ∃ u ∈ us, u.start ≤ n ∧ n < u.stop := by
  induction us generalizing start with
  | nil =>
    have he : start = stop := h
    omega
  | cons u us ih =>
    rw [List.flatMap_cons] at h
    obtain ⟨hs, _, hrest⟩ := unit_tiles h
    by_cases hn : n < u.stop
    · exact ⟨u, by simp, by omega, hn⟩
    · obtain ⟨v, hv, hbyte⟩ := ih hrest (by omega)
      exact ⟨v, by simp [hv], hbyte⟩

end Scan

section
variable {mode : Mode} {size : Nat} {code : List Instruction} {i : Instruction} {e : Effect}

/-- Every bundle of accepted code begins with the start of a unit. -/
theorem Accepts.bundle_start {n : Nat} (h : Accepts mode size code) (tiles : Tiles 0 code size)
    (hs : Bundle.starts n = true) (hn : n < size) : ∃ u ∈ sandboxUnits mode code, u.start = n := by
  rw [← h.chain.2] at tiles
  obtain ⟨u, hu, hge, hlt⟩ := Scan.unit_of_byte tiles (Nat.zero_le n) hn
  -- The unit with this byte lies in one bundle, and the byte is the first of it.
  have hsame := (h.recognized hu).2 n hge hlt
  simp only [Bundle.starts_iff, Bundle.size] at hs hsame
  exact ⟨u, hu, by omega⟩

theorem Accepts.start_unit {n : Nat} (h : Accepts mode size code)
    (hn : n ∈ Scan.starts (Scan.steps mode.policy (.sandbox mode) code)) :
    ∃ u ∈ sandboxUnits mode code, u.start = n := by
  rw [Scan.clean_starts (accepts_iff.mp h).2.1] at hn
  exact List.mem_map.mp hn

theorem unit_jump {u : CodeUnit} {source : Nat} {d : Int}
    (h : u.effect.jump.map (u.start, ·) = some (source, d)) :
    ∃ i e, u = .single i e ∧ i.address = source ∧ e.jump = some d := by
  obtain ⟨d', hj, he⟩ := Option.map_eq_some_iff.mp h
  cases he
  cases u with
  | idiom head tail => cases hj
  | single i e => exact ⟨i, e, rfl, rfl, hj⟩

theorem Accepts.remembered {d : Int} (h : Accepts mode size code) (tiles : Tiles 0 code size)
    (hu : .single i e ∈ sandboxUnits mode code) (hj : e.jump = some d) :
    (i.address, d) ∈ Scan.jumps (Scan.steps mode.policy (.sandbox mode) code) := by
  apply Scan.mem_jumps_of_unique
  · rw [Scan.jumps_of_units]
    exact List.mem_filterMap.mpr ⟨.single i e, hu, by simp [hj]⟩
  · -- A second instruction with this address would be the same one, with the same effect.
    intro d' hd'
    rw [Scan.jumps_of_units] at hd'
    obtain ⟨u, hu', hjump⟩ := List.mem_filterMap.mp hd'
    obtain ⟨i', e', rfl, haddr, hj'⟩ := unit_jump hjump
    have hm := h.mem_code hu (List.mem_cons_self (a := i))
    have hm' := h.mem_code hu' (List.mem_cons_self (a := i'))
    have hi : i' = i := tiles.address_injective hm' hm haddr
    subst hi
    have he := (h.single hu').symm.trans (h.single hu)
    cases he
    exact Option.some.inj (hj'.symm.trans hj)

/-- A direct jump of accepted code goes to a bundle start or to the start of a unit. -/
theorem Accepts.jump_lands {d : Int} (h : Accepts mode size code) (tiles : Tiles 0 code size)
    (hu : .single i e ∈ sandboxUnits mode code) (hj : e.jump = some d) :
    d % Bundle.size = 0 ∨ ∃ u ∈ sandboxUnits mode code, (u.start : Int) = d := by
  obtain ⟨_, _, hstray⟩ := accepts_iff.mp h
  have hnone := List.filterMap_eq_nil_iff.mp hstray _ (h.remembered tiles hu hj)
  split at hnone
  · rename_i hl
    rcases Scan.lands_iff.mp hl with hb | ⟨n, hn, hnd⟩
    · exact Or.inl hb
    · obtain ⟨u, hu, rfl⟩ := h.start_unit hn
      exact Or.inr ⟨u, hu, hnd⟩
  · cases hnone

/-- A branch with a destination was accepted on its own, and its jump goes there. -/
theorem Accepts.branch_unit {d : Int} (h : Accepts mode size code) (hi : i ∈ code)
    (hd : i.destination? = some d) :
    ∃ e, .single i e ∈ sandboxUnits mode code ∧ e.jump = some d := by
  obtain ⟨hb, distance, hops⟩ := Instruction.destination_some hd
  rcases h.unit_of hi with ⟨e, hu⟩ | ⟨head, tail, hu, hm⟩
  · refine ⟨e, hu, ?_⟩
    obtain ⟨op, ho, _, ha⟩ := Rule.single_accepted (h.single hu)
    have hb : op.isBranch = true := by simpa [Instruction.isBranch, ho] using hb
    cases ha with
    | branch _ target _ _ goes => exact goes.symm.trans hd
    | flat _ sequential => simp [hb] at sequential
    | update _ _ sequential => simp [hb] at sequential
    | access _ _ _ _ sequential => simp [hb] at sequential
  · obtain ⟨front, last, hcode, hg⟩ := h.guarded hu
    rw [hcode, List.mem_append, List.mem_singleton] at hm
    rcases hm with hm | rfl
    · obtain ⟨r, ⟨⟨op, ho, _, hseq, _⟩, _⟩, _⟩ := hg.front hm
      simp [Instruction.isBranch, ho, hseq] at hb
    · obtain ⟨_, _, _, hnone⟩ := hg.last
      simp [hnone] at hd

end

end FaultIsolation
