import FaultIsolation.Bundle
import FaultIsolation.Instruction

namespace FaultIsolation

/-- The instructions fill the bytes from an offset up to another: each begins where the one before
it ends, and none is empty. -/
def Tiles : Nat → List Instruction → Nat → Prop
  | start, [], stop => start = stop
  | start, i :: rest, stop => i.address = start ∧ 0 < i.length ∧ Tiles i.stop rest stop

namespace Tiles

instance decidable : (start : Nat) → (code : List Instruction) → (stop : Nat) →
    Decidable (Tiles start code stop)
  | start, [], stop => inferInstanceAs (Decidable (start = stop))
  | start, i :: rest, stop =>
    have := decidable i.stop rest stop
    inferInstanceAs (Decidable (i.address = start ∧ 0 < i.length ∧ Tiles i.stop rest stop))

variable {start stop : Nat} {code front back : List Instruction} {i j : Instruction}

theorem split (h : Tiles start (front ++ back) stop) :
    ∃ mid, Tiles start front mid ∧ Tiles mid back stop := by
  induction front generalizing start with
  | nil => exact ⟨start, rfl, h⟩
  | cons i rest ih =>
    obtain ⟨ha, hl, ht⟩ := h
    obtain ⟨mid, hf, hb⟩ := ih ht
    exact ⟨mid, ⟨ha, hl, hf⟩, hb⟩

theorem append {mid : Nat} (hf : Tiles start front mid) (hb : Tiles mid back stop) :
    Tiles start (front ++ back) stop := by
  induction front generalizing start with
  | nil =>
    have he : start = mid := hf
    exact he ▸ hb
  | cons i rest ih =>
    obtain ⟨ha, hl, ht⟩ := hf
    exact ⟨ha, hl, ih ht⟩

theorem le (h : Tiles start code stop) : start ≤ stop := by
  induction code generalizing start with
  | nil => exact Nat.le_of_eq h
  | cons i rest ih =>
    obtain ⟨rfl, _, ht⟩ := h
    exact Nat.le_trans (Nat.le_add_right _ _) (ih ht)

theorem mem_range (h : Tiles start code stop) (hi : i ∈ code) :
    start ≤ i.address ∧ i.address < i.stop ∧ i.stop ≤ stop := by
  obtain ⟨front, back, rfl⟩ := List.append_of_mem hi
  obtain ⟨mid, hf, ha, hl, hb⟩ := h.split
  have hle := hf.le
  have hge := hb.le
  simp only [Instruction.stop] at hge ⊢
  omega

theorem last_stop (h : Tiles start (front ++ [i]) stop) : i.stop = stop := by
  obtain ⟨mid, _, _, _, hs⟩ := h.split
  exact hs

theorem adjacent (h : Tiles start (front ++ i :: j :: back) stop) : i.stop = j.address := by
  obtain ⟨mid, _, _, _, hj, _⟩ := h.split
  exact hj.symm

theorem stop_unique {stop' : Nat} (h : Tiles start code stop) (h' : Tiles start code stop') :
    stop = stop' := by
  induction code generalizing start with
  | nil => exact h.symm.trans h'
  | cons i rest ih => exact ih h.2.2 h'.2.2

theorem eq_nil (h : Tiles start code start) : code = [] := by
  cases code with
  | nil => rfl
  | cons i rest =>
    have hrange := h.mem_range (i := i) (by simp)
    omega

theorem head_before (h : Tiles start (i :: back) stop) (hj : j ∈ back) : i.address < j.address := by
  obtain ⟨_, hl, ht⟩ := h
  have hge := (ht.mem_range hj).1
  simp only [Instruction.stop] at hge
  omega

/-- Two instructions do not begin at one place. -/
theorem address_injective (h : Tiles start code stop) (hi : i ∈ code) (hj : j ∈ code)
    (he : i.address = j.address) : i = j := by
  obtain ⟨front, back, rfl⟩ := List.append_of_mem hi
  obtain ⟨mid, hf, hb⟩ := h.split
  rcases List.mem_append.mp hj with hj | hj
  · obtain ⟨_, _, _⟩ := hf.mem_range hj
    have hmid : i.address = mid := hb.1
    omega
  · rcases List.mem_cons.mp hj with rfl | hj
    · rfl
    · have hlt := hb.head_before hj
      omega

/-- No instruction occurs twice, so it has one place in the code. -/
theorem place_unique {front' back' : List Instruction} (h : Tiles start (front ++ i :: back) stop)
    (he : front ++ i :: back = front' ++ i :: back') : front = front' ∧ back = back' := by
  induction front generalizing start front' with
  | nil =>
    cases front' with
    | nil => simpa using he
    | cons x rest' =>
      -- A second occurrence would begin after the first.
      simp only [List.nil_append, List.cons_append, List.cons.injEq] at he
      obtain ⟨rfl, rfl⟩ := he
      exact absurd (h.head_before (j := i) (by simp)) (Nat.lt_irrefl _)
  | cons x rest ih =>
    cases front' with
    | nil =>
      simp only [List.nil_append, List.cons_append, List.cons.injEq] at he
      obtain ⟨rfl, rfl⟩ := he
      exact absurd (h.head_before (j := x) (by simp)) (Nat.lt_irrefl _)
    | cons y rest' =>
      simp only [List.cons_append, List.cons.injEq] at he
      obtain ⟨rfl, he⟩ := he
      obtain ⟨_, _, ht⟩ := h
      obtain ⟨rfl, rfl⟩ := ih ht he
      exact ⟨rfl, rfl⟩

/-- The instructions up to a place are the same, however the code is split there. -/
theorem front_unique {front' back' : List Instruction} {mid : Nat} (h : Tiles start front mid)
    (h' : Tiles start front' mid) (he : front ++ back = front' ++ back') :
    front = front' ∧ back = back' := by
  -- What one front has beyond the other fills no bytes.
  rcases List.append_eq_append_iff.mp he with ⟨more, rfl, rfl⟩ | ⟨more, rfl, rfl⟩
  · obtain ⟨mid', hf, hm⟩ := h'.split
    cases h.stop_unique hf
    simp [hm.eq_nil]
  · obtain ⟨mid', hf, hm⟩ := h.split
    cases h'.stop_unique hf
    simp [hm.eq_nil]

end Tiles

namespace Bundle

@[simp] theorem starts_iff {n : Nat} : starts n = true ↔ n % size = 0 := by
  simp [starts]

@[simp] theorem starts_eq_false {n : Nat} : starts n = false ↔ n % size ≠ 0 := by
  simp [starts]

/-- The bytes from `start` up to `stop` lie in the bundle of the first of them. -/
def Holds (start stop : Nat) : Prop :=
  ∀ n, start ≤ n → n < stop → n / size = start / size

theorem holds_of_not_crossed {start stop : Nat} (h : crossed start stop = false) :
    Holds start stop := by
  intro n hs he
  simp only [crossed, size, bne_eq_false_iff_eq] at h ⊢
  omega

theorem not_crossed_of_holds {start stop : Nat} (h : Holds start stop) :
    crossed start stop = false := by
  have hlast : start < stop → (stop - 1) / size = start / size := by
    intro hlt
    exact h (stop - 1) (by omega) (by omega)
  simp only [crossed, size, bne_eq_false_iff_eq] at hlast ⊢
  omega

/-- Two ranges of one bundle each, with the second inside the first's bundle, lie there together. -/
theorem Holds.join {start mid stop : Nat} (hl : Holds start mid) (hr : Holds mid stop)
    (h0 : start < mid) (hm : starts mid = false) : Holds start stop := by
  intro n hs he
  have hlast := hl (mid - 1) (by omega) (by omega)
  by_cases hn : n < mid
  · exact hl n hs hn
  · have hin := hr n (by omega) he
    simp only [starts, size, beq_eq_false_iff_ne] at hm hlast hin ⊢
    omega

end Bundle

end FaultIsolation
