import FaultIsolation.Proofs.BundleStart
import FaultIsolation.Proofs.Cut
import FaultIsolation.Proofs.Mediation

namespace FaultIsolation

namespace Scan
variable {r : Rules} {longest : Nat} {passes : Condition → CodeUnit → Condition → Prop}
  {c mid d : Condition} {code front back rest more : List Instruction} {u : CodeUnit}
  {us xs ys : List CodeUnit}

theorem Cut.members (h : Cut r longest passes c code us d) :
    us.flatMap CodeUnit.members = code := by
  induction h with
  | nil c => rfl
  | cons c next d u rest us leads whole passed more ih => rw [List.flatMap_cons, ih]

/-- A unit that leads does so too if the code ends earlier, but not inside it. -/
theorem Leads.shorten (h : Leads r longest (u.members ++ rest ++ more) u) :
    Leads r longest (u.members ++ rest) u := by
  have hwindow {m : Nat} (hm : IsWindow longest (u.members ++ rest) m) :
      IsWindow longest (u.members ++ rest ++ more) m := by
    unfold IsWindow at hm ⊢
    rw [List.length_append]
    omega
  have htake {m : Nat} (hm : m ≤ (u.members ++ rest).length) :
      (u.members ++ rest ++ more).take m = (u.members ++ rest).take m :=
    List.take_append_of_le_length hm
  cases h with
  | idiom n head tail window members whole greatest =>
    have hn : n ≤ ((CodeUnit.idiom head tail).members ++ rest).length := by
      have hlength := congrArg List.length members
      unfold IsWindow at window
      rw [List.length_take] at hlength
      simp only [CodeUnit.members_idiom, List.length_append, List.length_cons]
        at window hlength ⊢
      omega
    rw [htake hn] at members whole
    refine .idiom n head tail ⟨window.1, ?_⟩ members whole ?_
    · have hle := window.2
      omega
    · intro m hm hlt
      rw [← htake (by unfold IsWindow at hm; omega)]
      exact greatest m (hwindow hm) hlt
  | single insn effect first passed alone =>
    refine .single insn effect first ?_ alone
    intro m hm
    rw [← htake (by unfold IsWindow at hm; omega)]
    exact passed m (hwindow hm)

/-- A unit that leads does so too in longer code, if the windows that reach into what was added are
passed over. -/
theorem Leads.extend (h : Leads r longest code u)
    (seam : ∀ t, t <+: more → t ≠ [] → r.window (code ++ t) = .noMatch) :
    Leads r longest (code ++ more) u := by
  have hlonger {m : Nat} (hm : IsWindow longest (code ++ more) m) (hgt : code.length < m) :
      r.window ((code ++ more).take m) = .noMatch := by
    unfold IsWindow at hm
    rw [List.length_append] at hm
    rw [List.take_append, List.take_of_length_le (by omega)]
    apply seam _ (List.take_prefix _ _)
    apply List.ne_nil_of_length_pos
    rw [List.length_take]
    omega
  have hshorter {m : Nat} (hm : IsWindow longest (code ++ more) m) (hle : m ≤ code.length) :
      IsWindow longest code m := by
    unfold IsWindow at hm ⊢
    omega
  have hwindow {m : Nat} (hm : IsWindow longest code m) : IsWindow longest (code ++ more) m := by
    unfold IsWindow at hm ⊢
    rw [List.length_append]
    omega
  have htake {m : Nat} (hle : m ≤ code.length) : (code ++ more).take m = code.take m :=
    List.take_append_of_le_length hle
  cases h with
  | idiom n head tail window members whole greatest =>
    have hn : n ≤ code.length := by
      unfold IsWindow at window
      omega
    rw [← htake hn] at members whole
    refine .idiom n head tail (hwindow window) members whole ?_
    intro m hm hlt
    by_cases hle : m ≤ code.length
    · rw [htake hle]
      exact greatest m (hshorter hm hle) hlt
    · exact hlonger hm (by omega)
  | single insn effect first passed alone =>
    have hfirst : (code ++ more).head? = some insn := by
      rw [List.head?_append, first]
      rfl
    refine .single insn effect hfirst ?_ alone
    intro m hm
    by_cases hle : m ≤ code.length
    · rw [htake hle]
      exact passed m (hshorter hm hle)
    · exact hlonger hm (by omega)

theorem Cut.split (h : Cut r longest passes c code (xs ++ ys) d) :
    ∃ mid, Cut r longest passes c (xs.flatMap CodeUnit.members) xs mid ∧
      Cut r longest passes mid (ys.flatMap CodeUnit.members) ys d := by
  induction xs generalizing c code with
  | nil =>
    refine ⟨c, .nil c, ?_⟩
    rw [show ys.flatMap CodeUnit.members = code from h.members]
    exact h
  | cons u xs ih =>
    cases h with
    | cons _ next _ _ rest _ leads whole passed later =>
      obtain ⟨mid, hl, hr⟩ := ih later
      have hrest : xs.flatMap CodeUnit.members ++ ys.flatMap CodeUnit.members = rest :=
        List.flatMap_append.symm.trans later.members
      refine ⟨mid, ?_, hr⟩
      rw [← hrest, ← List.append_assoc] at leads
      exact .cons c next mid u _ xs leads.shorten whole passed hl

theorem Cut.append (hl : Cut r longest passes c front xs mid)
    (hr : Cut r longest passes mid back ys d)
    (seam : ∀ s, s <:+ front → s ≠ [] → ∀ t, t <+: back → t ≠ [] →
      r.window (s ++ t) = .noMatch) :
    Cut r longest passes c (front ++ back) (xs ++ ys) d := by
  induction hl with
  | nil c => exact hr
  | cons c next mid u rest us leads whole passed later ih =>
    have hleads := leads.extend (seam _ (List.suffix_refl _) (by simp [CodeUnit.members]))
    rw [List.append_assoc] at hleads ⊢
    refine .cons c next d u _ _ hleads whole passed (ih hr ?_)
    intro s hs
    exact seam s (hs.trans (List.suffix_append _ _))

/-- Every bundle start in the code is a seam: some units fill the bytes before it. -/
theorem Cut.seam {start place stop : Nat} (h : Cut r longest passes c code us d)
    (tiles : Tiles start code stop) (hp : Bundle.starts place = true) (hge : start ≤ place)
    (hle : place ≤ stop) :
    ∃ xs ys, us = xs ++ ys ∧ Tiles start (xs.flatMap CodeUnit.members) place := by
  induction h generalizing start with
  | nil c =>
    have he : start = stop := tiles
    have hplace : start = place := by omega
    exact ⟨[], [], rfl, hplace⟩
  | cons c next d u rest us leads whole passed later ih =>
    by_cases hstart : start = place
    · exact ⟨[], u :: us, rfl, hstart⟩
    · obtain ⟨hu, _, hrest⟩ := unit_tiles tiles
      -- The place is no byte of the unit after the first, so it lies behind the unit.
      have hbehind : u.stop ≤ place := by
        by_contra hinside
        have hsame := whole place (by omega) (by omega)
        simp only [Bundle.starts_iff, Bundle.size] at hp hsame
        omega
      obtain ⟨xs, ys, rfl, hxs⟩ := ih hrest hbehind
      obtain ⟨_, hmembers, _⟩ := tiles.split
      have hstop := (unit_fills hmembers).2
      refine ⟨u :: xs, ys, rfl, ?_⟩
      rw [List.flatMap_cons]
      exact hmembers.append (hstop ▸ hxs)

end Scan

namespace Rule
variable {mode : Mode} {front front' : List Instruction} {last i : Instruction}

/-- The table allows none of the string operations on its own. -/
theorem string_refused {m : String} (h : stringPointers m ≠ []) :
    (Opcode.find? m).any Opcode.isAllowed = false := by
  unfold stringPointers at h
  split at h
  case h_6 => exact absurd rfl h
  all_goals decide +kernel

theorem GoesThrough.not_permitted {r : Register} (h : GoesThrough i r) : ¬i.Permitted := by
  rintro ⟨op, ho, _, hdirect⟩
  have hbranch : op.isBranch = true := by simpa [Instruction.isBranch, ho] using h.1
  obtain ⟨distance, hoperands⟩ := hdirect hbranch
  simp [h.2] at hoperands

theorem Rebasing.length {code : List Instruction} {fs : List Family} (h : Rebasing code fs) :
    code.length = 2 * fs.length := by
  induction h with
  | nil => rfl
  | cons f move load code fs truncates adds rest ih =>
    simp only [List.length_cons, ih]
    omega

/-- The guarded instruction is not safe by itself. -/
theorem Guarded.not_permitted (h : Guarded mode front last) : ¬last.Permitted := by
  cases h with
  | masked f mask jump rounds goes free => exact goes.not_permitted
  | rebased f mask rebase jump rounds adds goes free => exact goes.not_permitted
  | string _ _ fs rebasing uses used =>
    rintro ⟨op, ho, hallowed, _⟩
    have hrefused := string_refused (string_pointers_ne uses used)
    rw [show Opcode.find? last.mnemonic = some op from ho] at hrefused
    simp [hallowed] at hrefused

def guardLength : Mode → Instruction → Nat
  | .bits32, _ => 1
  | .bits64, i => 2 * max 1 (stringPointers i.mnemonic).length

theorem Guarded.length (h : Guarded mode front last) : front.length = guardLength mode last := by
  cases h with
  | masked f mask jump rounds goes free => rfl
  | rebased f mask rebase jump rounds adds goes free =>
    simp [guardLength, branch_uses_no_string goes.1]
  | string _ _ fs rebasing uses used =>
    have hpos := List.length_pos_iff.mpr used
    have hlength := uses.length_eq
    rw [guardLength, rebasing.length]
    omega

end Rule

namespace Scan
variable {mode : Mode} {r : Rules} {longest : Nat} {c d : Condition} {u : CodeUnit}
  {passes : Condition → CodeUnit → Condition → Prop} {code back : List Instruction}
  {us : List CodeUnit} {i : Instruction}

theorem Leads.recognized (h : Leads r longest code u) : Recognized r u := by
  cases h with
  | idiom n head tail window members whole greatest =>
    rw [members] at whole
    refine .idiom head tail ?_ whole
    rintro rfl
    have hlength := congrArg List.length members
    unfold IsWindow at window
    rw [List.length_take, List.length_singleton] at hlength
    omega
  | single insn effect first passed alone => exact .single insn effect alone

theorem Cut.recognized (h : Cut r longest passes c code us d) (hu : u ∈ us) : Recognized r u := by
  induction h with
  | nil c => cases hu
  | cons c next d v rest us leads whole passed more ih =>
    rcases List.mem_cons.mp hu with rfl | hu
    · exact leads.recognized
    · exact ih hu

/-- No window that begins before the code and ends in it is an idiom. Its last instruction would be
guarded by as many instructions as in its own unit, and that unit begins in the code. -/
theorem Cut.window_before {s t : List Instruction}
    (h : Cut (.sandbox mode) longest passes c back us d) (hs : s ≠ []) (ht : t <+: back)
    (hne : t ≠ []) : Rule.idiom mode (s ++ t) = .noMatch := by
  by_contra hmatch
  obtain ⟨front, last, hwindow, hg⟩ := Rule.idiom_shape hmatch
  obtain ⟨t, x, rfl⟩ := (List.eq_nil_or_concat t).resolve_left hne
  rw [List.concat_eq_append] at hwindow ht
  rw [← List.append_assoc] at hwindow
  obtain ⟨rfl, hlast⟩ := List.append_inj' hwindow rfl
  cases hlast
  obtain ⟨rest, hback⟩ := ht
  rw [← h.members, List.append_assoc, List.singleton_append] at hback
  obtain ⟨xs, u, ys, l, r, rfl, hmembers, rfl, _⟩ := unit_at hback.symm
  rcases (h.recognized (u := u) (by simp)).guarded hmembers with hpermitted | ⟨_, _, _, _, hown⟩
  · exact hg.not_permitted hpermitted
  · have hlength := hg.length.trans hown.length.symm
    have hpos := List.length_pos_iff.mpr hs
    simp only [List.length_append] at hlength
    omega

end Scan

end FaultIsolation
