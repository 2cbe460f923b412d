import FaultIsolation.Proofs.Acceptance
import FaultIsolation.Proofs.SingleRule

namespace FaultIsolation

namespace Condition
variable {c need : Condition} {f : Family}

/-- A need is met by nothing but itself. -/
theorem eq_of_covers (h : c.covers need = true) (hn : need ≠ .default) : c = need := by
  cases c <;> cases need <;> simp_all [covers]

/-- Nothing but the rebasing of the pointer may run where one is truncated. -/
theorem eq_of_truncated_covers (h : covers (.truncated f) need = true) : need = .truncated f := by
  cases need <;> simp_all [covers]

end Condition

/-- A unit passes if what it needs holds; its condition is carried on unless a bundle starts after
it, and then there must be nothing to carry that may not be dropped. -/
theorem Policy.bits64_next {c d pre post : Condition} {stop : Nat}
    (h : Policy.bits64.carry c stop pre post = .next d) :
    c.covers pre = true ∧
      (Bundle.starts stop = true ∧ post.covers .default = true ∧ d = .default ∨
        Bundle.starts stop = false ∧ d = post) := by
  simp only [Policy.bits64] at h
  split at h
  · cases h
  · rename_i hc
    refine ⟨by simpa using hc, ?_⟩
    split at h
    · rename_i hs
      split at h
      · rename_i hp
        cases h
        exact Or.inl ⟨hs, hp, rfl⟩
      · cases h
    · rename_i hs
      cases h
      exact Or.inr ⟨by simpa using hs, rfl⟩

namespace Scan
variable {r : Rules} {c d : Condition} {us xs ys : List CodeUnit} {u : CodeUnit}

/-- A condition that holds after a chain was left by its last unit, an instruction on its own that
does not end its bundle. -/
theorem Chain.held (h : Chain .bits64 r .default us d) (hd : d ≠ .default) :
    ∃ xs i e, us = xs ++ [.single i e] ∧ e.post = d ∧ Bundle.starts i.stop = false := by
  rcases List.eq_nil_or_concat us with rfl | ⟨xs, u, rfl⟩
  · cases h
    exact absurd rfl hd
  · rw [List.concat_eq_append] at h ⊢
    obtain ⟨mid, _, hlast⟩ := h.split
    cases hlast with
    | cons _ next _ _ _ _ _ carried rest =>
      cases rest
      rcases (Policy.bits64_next carried).2 with ⟨_, _, hdef⟩ | ⟨hs, hpost⟩
      · exact absurd hdef hd
      · cases u with
        | idiom head tail => exact absurd hpost hd
        | single i e => exact ⟨xs, i, e, rfl, hpost.symm, hs⟩

/-- What a unit needs beyond the ordinary was left by the instruction before it. -/
theorem Chain.needed (h : Chain .bits64 r .default (xs ++ u :: ys) d)
    (hn : u.effect.pre ≠ .default) :
    ∃ front j e, xs = front ++ [.single j e] ∧ e.post = u.effect.pre ∧
      Bundle.starts j.stop = false := by
  obtain ⟨mid, hleft, hright⟩ := h.split
  cases hright with
  | cons _ _ _ _ _ _ _ carried _ =>
    have hmid := Condition.eq_of_covers (Policy.bits64_next carried).1 hn
    subst mid
    exact hleft.held hn

/-- Where a pointer was truncated, the bundle goes on, and whatever comes next needs just that. -/
theorem Chain.pending {i : Instruction} {e : Effect} {f : Family}
    (h : Chain .bits64 r c (.single i e :: ys) d) (hp : e.post = .truncated f) :
    Bundle.starts i.stop = false ∧ ∀ v back, ys = v :: back → v.effect.pre = .truncated f := by
  cases h with
  | cons _ next _ _ _ _ _ carried rest =>
    rcases (Policy.bits64_next carried).2 with ⟨_, hcov, _⟩ | ⟨hs, hnext⟩
    · simp [hp, Condition.covers] at hcov
    · refine ⟨hs, ?_⟩
      rintro v back rfl
      cases rest with
      | cons _ _ _ _ _ _ _ carried' _ =>
        have hcov := (Policy.bits64_next carried').1
        rw [hnext, CodeUnit.effect_single, hp] at hcov
        exact Condition.eq_of_truncated_covers hcov

end Scan

section
variable {size : Nat} {code before after : List Instruction} {i : Instruction} {e : Effect}

/-- Two neighbours lie in one bundle if the first does not end it. -/
theorem Accepts.same_bundle {mode : Mode} {xs ys : List CodeUnit} {j : Instruction} {e' : Effect}
    (h : Accepts mode size code) (tiles : Tiles 0 code size)
    (hu : sandboxUnits mode code = xs ++ .single j e :: .single i e' :: ys)
    (hs : Bundle.starts j.stop = false) : Bundle.Holds j.address i.stop := by
  have hcode := h.chain.2
  rw [hu, List.flatMap_append] at hcode
  rw [← hcode] at tiles
  have hadj : j.stop = i.address := tiles.adjacent
  have hj := (h.recognized (u := .single j e) (by simp [hu])).2
  have hi : Bundle.Holds j.stop i.stop := by
    rw [hadj]
    exact (h.recognized (u := .single i e') (by simp [hu])).2
  obtain ⟨_, hlt, _⟩ := tiles.mem_range (i := j) (by simp)
  exact hj.join hi hlt hs

/-- What an instruction needs beyond the ordinary, the instruction just before it left, on its own
and in the same bundle. -/
theorem Accepts.left_before (h : Accepts .bits64 size code) (tiles : Tiles 0 code size)
    (hu : .single i e ∈ sandboxUnits .bits64 code) (hc : code = before ++ i :: after)
    (hn : e.pre ≠ .default) :
    ∃ front j e', before = front ++ [j] ∧ .single j e' ∈ sandboxUnits .bits64 code ∧
      e'.post = e.pre ∧ Bundle.Holds j.address i.stop := by
  obtain ⟨xs, ys, hxs, rfl, _⟩ := h.place tiles hu hc
  obtain ⟨⟨d, hchain⟩, _⟩ := h.chain
  rw [hxs] at hchain
  obtain ⟨front, j, e', rfl, hpost, hs⟩ := hchain.needed hn
  rw [List.append_assoc, List.singleton_append] at hxs
  refine ⟨front.flatMap CodeUnit.members, j, e', ?_, by simp [hxs], hpost,
    h.same_bundle tiles hxs hs⟩
  simp

/-- The instruction just before the place lies in one bundle with `i`, was accepted on its own, and
zero-extends the register. -/
def ExtendedBefore (code before : List Instruction) (i : Instruction) (f : Family) : Prop :=
  ∃ front j e, before = front ++ [j] ∧ .single j e ∈ sandboxUnits .bits64 code ∧
    Bundle.Holds j.address i.stop ∧ j.ZeroExtends f

/-- A zero-extension that an instruction needs, of an index or of a truncated pointer, was made by
the instruction before it. -/
theorem Accepts.extended_before {f : Family} (h : Accepts .bits64 size code)
    (tiles : Tiles 0 code size) (hu : .single i e ∈ sandboxUnits .bits64 code)
    (hc : code = before ++ i :: after) (hn : e.pre = .truncated f ∨ e.pre = .zeroExtended f) :
    ExtendedBefore code before i f := by
  have hdef : e.pre ≠ .default := by rcases hn with hn | hn <;> simp [hn]
  obtain ⟨front, j, e', hb, hj, hpost, hbundle⟩ := h.left_before tiles hu hc hdef
  rw [← hpost] at hn hdef
  obtain ⟨g, hz, hg⟩ := Rule.single_leaves (h.single hj) hdef
  have hf : g = f := by
    rcases hn with hn | hn <;> rcases hg with hg | hg <;> simpa using hg.symm.trans hn
  exact ⟨front, j, e', hb, hj, hbundle, hf ▸ hz⟩

/-- After an instruction that truncated a pointer comes, on its own and in the same bundle, one that
needs it so. -/
theorem Accepts.needed_after {f : Family} (h : Accepts .bits64 size code)
    (tiles : Tiles 0 code size) (hu : .single i e ∈ sandboxUnits .bits64 code)
    (hc : code = before ++ i :: after) (hp : e.post = .truncated f) :
    ∃ j e' back, after = j :: back ∧ .single j e' ∈ sandboxUnits .bits64 code ∧
      e'.pre = .truncated f ∧ Bundle.Holds i.address j.stop := by
  obtain ⟨xs, ys, hxs, rfl, rfl⟩ := h.place tiles hu hc
  obtain ⟨⟨d, hchain⟩, _⟩ := h.chain
  rw [hxs] at hchain
  obtain ⟨mid, _, hright⟩ := hchain.split
  obtain ⟨hs, hnext⟩ := hright.pending hp
  cases ys with
  | nil =>
    -- The code ends at a bundle start, so something comes after.
    have hlast : i.stop = size := by
      rw [hc] at tiles
      exact tiles.last_stop
    have hsize := (accepts_iff.mp h).1
    simp [← hlast, hs] at hsize
  | cons v back =>
    have hpre := hnext v back rfl
    cases v with
    | idiom head tail => cases hpre
    | single j e' =>
      refine ⟨j, e', back.flatMap CodeUnit.members, ?_, by simp [hxs], hpre,
        h.same_bundle tiles hxs hs⟩
      simp

end

namespace Sample

def extend : Instruction where
  address := 0
  length := 2
  mnemonic := "mov"
  operands := [.register (.dword .rax), .register (.dword .rcx)]
  disassembly := "mov eax, ecx"

def store : Instruction where
  address := 2
  length := 4
  mnemonic := "mov"
  operands := [.memory { base := some (.qword .r15), index := some (.qword .rax) },
    .register (.dword .rcx)]
  disassembly := "mov dword [r15 + rax * 1], ecx"

def truncate : Instruction where
  address := 6
  length := 3
  mnemonic := "sub"
  operands := [.register (.dword .rsp), .immediate 16]
  disassembly := "sub esp, 0x10"

def rebase : Instruction where
  address := 9
  length := 3
  mnemonic := "add"
  operands := [.register (.qword .rsp), .register (.qword .r15)]
  disassembly := "add rsp, r15"

def jumpToStore : Instruction :=
  jumpFrom 12 (-12)

def jumpToRebase : Instruction :=
  { jumpFrom 14 (-7) with mnemonic := "jz", disassembly := "jz" }

/-- Each kind of condition is carried once, with a jump to where it is needed. -/
def bundle : List Instruction :=
  [extend, store, truncate, rebase, jumpToStore, jumpToRebase, nop 16 8, nop 24 8]

end Sample

end FaultIsolation
