import FaultIsolation.Condition
import FaultIsolation.Word
import FaultIsolation.Proofs.Operands
import Mathlib.Logic.Function.Basic

namespace FaultIsolation

abbrev RegisterFile : Type :=
  Family → BitVec 64

def Region.span : Nat := 0x100000000

/-- Where the sandbox lies. A pointer into it is the base plus an offset below 4 GiB. -/
structure Region where
  base : Nat
  aligned : base % Region.span = 0
  fits : base + Region.span ≤ Word.count

namespace Region

def Holds (g : Region) (v : BitVec 64) : Prop :=
  g.base ≤ v.toNat ∧ v.toNat < g.base + span

def IsOffset (v : BitVec 64) : Prop :=
  v.toNat < span

instance (g : Region) (v : BitVec 64) : Decidable (g.Holds v) :=
  inferInstanceAs (Decidable (_ ∧ _))

instance (v : BitVec 64) : Decidable (IsOffset v) :=
  inferInstanceAs (Decidable (_ < _))

/-- The condition is true of the registers. -/
structure Meets (g : Region) (c : Condition) (σ : RegisterFile) : Prop where
  base : (σ .r15).toNat = g.base
  pointers : ∀ f, f = .rsp ∨ f = .rbp →
    if c = .truncated f then IsOffset (σ f) else g.Holds (σ f)
  extended : ∀ f, c = .zeroExtended f → IsOffset (σ f)

variable {g : Region} {c d : Condition} {σ : RegisterFile} {f : Family} {v : BitVec 64}

/-- The addresses of the sandbox are those with the upper half of its base. -/
theorem holds_iff : g.Holds v ↔ v.toNat / span = g.base / span := by
  have haligned := g.aligned
  simp only [Holds, span] at haligned ⊢
  omega

theorem holds_add {b : BitVec 64} (hv : IsOffset v) (hb : b.toNat = g.base) :
    g.Holds (v + b) := by
  have hfits := g.fits
  simp only [IsOffset, Holds, span, Word.count, BitVec.toNat_add] at hv hfits ⊢
  omega

/-- The mask has ones in its upper half, so it changes the offset only. -/
theorem holds_and {mask : Int} (hv : g.Holds v) (hmin : -0x80000000 ≤ mask) (hneg : mask < 0) :
    g.Holds (v &&& BitVec.ofInt 64 mask) := by
  have hupper : (BitVec.ofInt 64 mask).toNat / span = span - 1 := by
    rw [BitVec.toNat_ofInt, span]
    omega
  have hsmall : v.toNat / span < span := by
    have hlt := v.isLt
    rw [span]
    omega
  rw [holds_iff] at hv ⊢
  calc (v &&& BitVec.ofInt 64 mask).toNat / span
      = v.toNat / span &&& (BitVec.ofInt 64 mask).toNat / span := Nat.and_div_two_pow (n := 32)
    _ = v.toNat / span % span := by
        rw [hupper]
        exact Nat.and_two_pow_sub_one_eq_mod _ 32
    _ = v.toNat / span := Nat.mod_eq_of_lt hsmall
    _ = g.base / span := hv

namespace Meets

/-- A condition is true wherever one that covers it is. -/
theorem of_covers (h : g.Meets c σ) (hc : c.covers d = true) : g.Meets d σ := by
  refine ⟨h.base, ?_, ?_⟩
  · intro f hf
    have hold := h.pointers f hf
    cases c <;> cases d <;> simp_all [Condition.covers]
  · intro f hd
    apply h.extended f
    cases c <;> simp_all [Condition.covers]

theorem pointer (h : g.Meets c σ) (hf : f = .rsp ∨ f = .rbp) (hc : c ≠ .truncated f) :
    g.Holds (σ f) := by
  have hold := h.pointers f hf
  rwa [if_neg hc] at hold

/-- The other registers may hold anything, unless something was known about one. -/
theorem set_free (h : g.Meets c σ) (hf : f.pointsIntoSandbox = false)
    (hc : c ≠ .zeroExtended f) : g.Meets c (Function.update σ f v) := by
  have hkeep {r : Family} (hr : r.pointsIntoSandbox = true) :
      Function.update σ f v r = σ r := by
    apply Function.update_of_ne
    intro he
    simp [he, hf] at hr
  refine ⟨?_, ?_, ?_⟩
  · rw [hkeep rfl]
    exact h.base
  · intro r hr
    rw [hkeep (Family.points_into_sandbox_iff.mpr (hr.imp_right Or.inl))]
    exact h.pointers r hr
  · intro r hr
    have hne : r ≠ f := by
      intro he
      exact hc (he ▸ hr)
    rw [Function.update_of_ne hne]
    exact h.extended r hr

theorem set_extended (h : g.Meets .default σ) (hf : f.pointsIntoSandbox = false)
    (hv : IsOffset v) : g.Meets (.zeroExtended f) (Function.update σ f v) := by
  have hfree := h.set_free (v := v) hf (by simp)
  refine ⟨hfree.base, ?_, ?_⟩
  · intro r hr
    have hold := hfree.pointers r hr
    simpa using hold
  · intro r hr
    cases hr
    simpa using hv

/-- A write of one pointer leaves the base and the other pointer as they are. -/
theorem set_pointer (h : g.Meets c σ) (hf : f = .rsp ∨ f = .rbp)
    (hc : ∀ p, c = .truncated p → p = f)
    (hv : if d = .truncated f then IsOffset v else g.Holds v)
    (hd : d = .default ∨ d = .truncated f) : g.Meets d (Function.update σ f v) := by
  refine ⟨?_, ?_, ?_⟩
  · rw [Function.update_of_ne (by rcases hf with rfl | rfl <;> simp)]
    exact h.base
  · intro r hr
    by_cases he : r = f
    · subst r
      simpa using hv
    · have hold := h.pointer hr fun ht => he (hc r ht)
      have hother : d ≠ .truncated r := by
        rcases hd with rfl | rfl
        · simp
        · simpa using Ne.symm he
      rw [Function.update_of_ne he, if_neg hother]
      exact hold
  · intro r hr
    rcases hd with rfl | rfl <;> cases hr

end Meets

end Region

end FaultIsolation
