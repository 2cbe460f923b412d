import Mathlib.Data.Nat.Digits.Defs
import FaultIsolation.Register.Name

namespace FaultIsolation.Register

structure Digits (ds : List Char) : Prop where
  nonempty : ds ≠ []
  all : ∀ c ∈ ds, c.isDigit = true

/-- The value of digits of which the first counts most. -/
def decimal (ds : List Char) : Nat :=
  Nat.ofDigits 10 (ds.map digitValue).reverse

/-- A number in decimal digits, however large, which a plus sign may precede. -/
inductive Number : List Char → Nat → Prop where
  | unsigned {ds : List Char} (digits : Digits ds) : Number ds (decimal ds)
  | signed {ds : List Char} (digits : Digits ds) : Number ('+' :: ds) (decimal ds)

section
variable {n m : Nat} {c : Char} {ds : List Char}

theorem push_digit_iff :
    pushDigit? n c = some m ↔ c.isDigit = true ∧ m = 10 * n + digitValue c ∧ m < Word.count := by
  unfold pushDigit?
  split
  · rename_i h
    simp only [Bool.and_eq_true, decide_eq_true_eq] at h
    constructor
    · rintro ⟨⟩
      exact ⟨h.1, rfl, h.2⟩
    · rintro ⟨_, rfl, _⟩
      rfl
  · rename_i h
    simp only [Bool.and_eq_true, decide_eq_true_eq] at h
    constructor
    · intro hsome
      cases hsome
    · rintro ⟨hdigit, rfl, hword⟩
      exact absurd ⟨hdigit, hword⟩ h

theorem decimal_cons (c : Char) (ds : List Char) :
    decimal (c :: ds) = digitValue c * 10 ^ ds.length + decimal ds := by
  unfold decimal
  rw [List.map_cons, List.reverse_cons, Nat.ofDigits_append, Nat.ofDigits_singleton,
    List.length_reverse, List.length_map, Nat.add_comm, Nat.mul_comm]

/-- A number only grows with its digits. So all of the way lies within a word if its end does. -/
theorem push_digits_iff (hn : n < Word.count) :
    ds.foldlM pushDigit? n = some m ↔
      (∀ c ∈ ds, c.isDigit = true) ∧ m = n * 10 ^ ds.length + decimal ds ∧ m < Word.count := by
  induction ds generalizing n with
  | nil =>
    have hvalue : n * 10 ^ ([] : List Char).length + decimal [] = n := by simp [decimal]
    rw [hvalue, List.foldlM_nil]
    constructor
    · rintro ⟨⟩
      exact ⟨nofun, rfl, hn⟩
    · rintro ⟨_, rfl, _⟩
      rfl
  | cons c ds ih =>
    have hgrow : (10 * n + digitValue c) * 10 ^ ds.length + decimal ds =
        n * 10 ^ (c :: ds).length + decimal (c :: ds) := by
      rw [decimal_cons, List.length_cons, Nat.pow_succ]
      ring
    rw [List.foldlM_cons, Option.bind_eq_bind, Option.bind_eq_some_iff]
    constructor
    · rintro ⟨next, hnext, hrest⟩
      obtain ⟨hdigit, rfl, hword⟩ := push_digit_iff.mp hnext
      obtain ⟨hdigits, hvalue, hm⟩ := (ih hword).mp hrest
      exact ⟨List.forall_mem_cons.mpr ⟨hdigit, hdigits⟩, hvalue.trans hgrow, hm⟩
    · rintro ⟨hdigits, hvalue, hm⟩
      obtain ⟨hdigit, hdigits⟩ := List.forall_mem_cons.mp hdigits
      rw [← hgrow] at hvalue
      -- The number so far is at most the one that the remaining digits make of it.
      have hword : 10 * n + digitValue c < Word.count := by
        have hle := Nat.le_mul_of_pos_right (10 * n + digitValue c)
          (Nat.pow_pos (n := ds.length) (show 0 < 10 by omega))
        omega
      exact ⟨_, push_digit_iff.mpr ⟨hdigit, rfl, hword⟩, (ih hword).mpr ⟨hdigits, hvalue, hm⟩⟩

theorem digits_iff : digits? ds = some m ↔ Digits ds ∧ m = decimal ds ∧ m < Word.count := by
  unfold digits?
  cases ds with
  | nil =>
    constructor
    · intro h
      cases h
    · rintro ⟨h, _⟩
      exact absurd rfl h.nonempty
  | cons c ds =>
    rw [List.isEmpty_cons, if_neg Bool.false_ne_true, push_digits_iff (by decide), Nat.zero_mul,
      Nat.zero_add]
    exact and_congr_left fun _ => ⟨fun h => ⟨List.cons_ne_nil c ds, h⟩, fun h => h.all⟩

end

section
variable {cs : List Char} {v : Nat}

theorem Digits.no_sign (h : Digits ('+' :: cs)) : False :=
  absurd (h.all '+' List.mem_cons_self) (by decide)

theorem number_iff : number? cs = some v ↔ Number cs v ∧ v < Word.count := by
  unfold number?
  split
  · rename_i ds
    rw [digits_iff]
    constructor
    · rintro ⟨h, rfl, hword⟩
      exact ⟨.signed h, hword⟩
    · rintro ⟨h, hword⟩
      cases h with
      | unsigned h => exact h.no_sign.elim
      | signed h => exact ⟨h, rfl, hword⟩
  · rename_i hsign
    rw [digits_iff]
    constructor
    · rintro ⟨h, rfl, hword⟩
      exact ⟨.unsigned h, hword⟩
    · rintro ⟨h, hword⟩
      cases h with
      | unsigned h => exact ⟨h, rfl, hword⟩
      | signed h => exact absurd rfl (hsign _)

theorem Number.unique {u : Nat} (h : Number cs u) (h' : Number cs v) : u = v := by
  cases h with
  | unsigned h =>
    cases h' with
    | unsigned => rfl
    | signed => exact h.no_sign.elim
  | signed h =>
    cases h' with
    | unsigned h' => exact h'.no_sign.elim
    | signed => rfl

theorem Digits.last (h : Digits cs) : ∃ c ∈ cs.getLast?, c.isDigit = true :=
  ⟨cs.getLast h.nonempty, List.getLast?_eq_some_getLast h.nonempty,
    h.all _ (List.getLast_mem h.nonempty)⟩

theorem Number.last (h : Number cs v) : ∃ c ∈ cs.getLast?, c.isDigit = true := by
  cases h with
  | unsigned h => exact h.last
  | signed h =>
    obtain ⟨c, hc, hdigit⟩ := h.last
    refine ⟨c, ?_, hdigit⟩
    rw [Option.mem_def, ← List.singleton_append, List.getLast?_append, Option.mem_def.mp hc,
      Option.some_or]

theorem digit_ascii {c : Char} (h : c.isDigit = true) : c.toNat < 128 := by
  simp only [Char.isDigit, Bool.and_eq_true, decide_eq_true_eq, UInt32.le_iff_toNat_le] at h
  have hle : c.toNat ≤ 57 := h.2
  omega

theorem Number.ascii (h : Number cs v) : ∀ c ∈ cs, c.toNat < 128 := by
  cases h with
  | unsigned h => exact fun c hc => digit_ascii (h.all c hc)
  | signed h =>
    exact List.forall_mem_cons.mpr ⟨by decide, fun c hc => digit_ascii (h.all c hc)⟩

end

end FaultIsolation.Register
