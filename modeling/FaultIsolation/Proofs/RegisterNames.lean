import Mathlib.Data.List.DropRight
import Mathlib.Data.List.Nodup
import Mathlib.Data.Option.Basic
import FaultIsolation.Proofs.Numerals

namespace FaultIsolation

namespace Text

/-- The code points with the Unicode property `White_Space`. -/
def whiteSpace : List Nat :=
  [0x09, 0x0a, 0x0b, 0x0c, 0x0d, 0x20, 0x85, 0xa0, 0x1680, 0x2000, 0x2001, 0x2002, 0x2003, 0x2004,
    0x2005, 0x2006, 0x2007, 0x2008, 0x2009, 0x200a, 0x2028, 0x2029, 0x202f, 0x205f, 0x3000]

structure Trims (cs core : List Char) : Prop where
  around : ∃ before after, cs = before ++ core ++ after ∧
    (∀ c ∈ before, c.toNat ∈ whiteSpace) ∧ ∀ c ∈ after, c.toNat ∈ whiteSpace
  first : ∀ c ∈ core.head?, c.toNat ∉ whiteSpace
  last : ∀ c ∈ core.getLast?, c.toNat ∉ whiteSpace

@[simp] theorem mem_white_space {c : Char} : c.toNat ∈ whiteSpace ↔ isSpace c = true := by
  simp only [whiteSpace, isSpace, spaceRanges, List.mem_cons, List.not_mem_nil, List.any_cons,
    List.any_nil, Bool.or_eq_true, Bool.and_eq_true, decide_eq_true_eq, Bool.false_eq_true,
    or_false]
  omega

theorem trim_trims (cs : List Char) : Trims cs (trim cs) := by
  have hfront := cs.takeWhile_append_dropWhile (p := isSpace)
  have hback := (cs.dropWhile isSpace).rdropWhile_append_rtakeWhile (p := isSpace)
  change trim cs ++ _ = _ at hback
  refine ⟨⟨cs.takeWhile isSpace, (cs.dropWhile isSpace).rtakeWhile isSpace, ?_, ?_, ?_⟩, ?_, ?_⟩
  · rw [List.append_assoc, hback, hfront]
  · intro c hc
    simpa using List.mem_takeWhile_imp hc
  · intro c hc
    simpa using List.mem_rtakeWhile_imp hc
  · intro c hc
    have hhead : (cs.dropWhile isSpace).head? = some c := by
      rw [← hback, List.head?_append, Option.mem_def.mp hc, Option.some_or]
    have hstop := List.head?_dropWhile_not isSpace cs
    rw [hhead] at hstop
    simpa using hstop
  · intro c hc
    have hne : trim cs ≠ [] := by
      intro hnil
      rw [hnil] at hc
      cases hc
    have hstop := List.rdropWhile_last_not isSpace (cs.dropWhile isSpace) hne
    have hlast := (List.getLast_eq_iff_getLast?_eq_some hne).mpr hc
    change ¬ isSpace ((trim cs).getLast hne) = true at hstop
    rw [hlast] at hstop
    simpa using hstop

theorem trim_eq {cs core : List Char} (h : Trims cs core) : trim cs = core := by
  obtain ⟨⟨before, after, rfl, hbefore, hafter⟩, hfirst, hlast⟩ := h
  simp only [mem_white_space] at hbefore hafter hfirst hlast
  have hafter : ∀ c ∈ after.reverse, isSpace c = true := fun c hc =>
    hafter c (List.mem_reverse.mp hc)
  unfold trim
  rw [List.append_assoc, List.dropWhile_append_of_pos hbefore]
  cases core with
  | nil =>
    rw [List.nil_append, ← List.rdropWhile, List.rdropWhile_eq_nil_iff]
    intro c hc
    exact hafter c (List.mem_reverse.mpr ((List.dropWhile_sublist _).subset hc))
  | cons c core =>
    have hself : (c :: core).rdropWhile isSpace = c :: core := by
      rw [List.rdropWhile_eq_self_iff]
      intro hne
      exact hlast _ (List.getLast?_eq_some_getLast hne)
    rw [List.cons_append, List.dropWhile_cons_of_neg (hfirst c rfl), ← List.cons_append,
      List.reverse_append, List.dropWhile_append_of_pos hafter]
    exact hself

end Text

namespace Register

/-- The names that are not made of a number. -/
def listedNames : List (String × Register) :=
  [("rip", ⟨.rip, .qword⟩), ("eip", ⟨.rip, .dword⟩),
    ("ah", ⟨.rax, .highByte⟩), ("ch", ⟨.rcx, .highByte⟩),
    ("dh", ⟨.rdx, .highByte⟩), ("bh", ⟨.rbx, .highByte⟩),
    ("rax", ⟨.rax, .qword⟩), ("eax", ⟨.rax, .dword⟩), ("ax", ⟨.rax, .word⟩), ("al", ⟨.rax, .byte⟩),
    ("rcx", ⟨.rcx, .qword⟩), ("ecx", ⟨.rcx, .dword⟩), ("cx", ⟨.rcx, .word⟩), ("cl", ⟨.rcx, .byte⟩),
    ("rdx", ⟨.rdx, .qword⟩), ("edx", ⟨.rdx, .dword⟩), ("dx", ⟨.rdx, .word⟩), ("dl", ⟨.rdx, .byte⟩),
    ("rbx", ⟨.rbx, .qword⟩), ("ebx", ⟨.rbx, .dword⟩), ("bx", ⟨.rbx, .word⟩), ("bl", ⟨.rbx, .byte⟩),
    ("rsp", ⟨.rsp, .qword⟩), ("esp", ⟨.rsp, .dword⟩), ("sp", ⟨.rsp, .word⟩), ("spl", ⟨.rsp, .byte⟩),
    ("rbp", ⟨.rbp, .qword⟩), ("ebp", ⟨.rbp, .dword⟩), ("bp", ⟨.rbp, .word⟩), ("bpl", ⟨.rbp, .byte⟩),
    ("rsi", ⟨.rsi, .qword⟩), ("esi", ⟨.rsi, .dword⟩), ("si", ⟨.rsi, .word⟩), ("sil", ⟨.rsi, .byte⟩),
    ("rdi", ⟨.rdi, .qword⟩), ("edi", ⟨.rdi, .dword⟩), ("di", ⟨.rdi, .word⟩), ("dil", ⟨.rdi, .byte⟩)]

def numberedFamilies : List (Nat × Family) :=
  [(8, .r8), (9, .r9), (10, .r10), (11, .r11), (12, .r12), (13, .r13), (14, .r14), (15, .r15)]

def widthSuffixes : List (String × Width) :=
  [("", .qword), ("d", .dword), ("w", .word), ("b", .byte), ("l", .byte)]

inductive Numbered : List Char → Nat → Width → Prop where
  | intro {cs : List Char} {v : Nat} {suffix : String} {w : Width} (number : Number cs v)
      (ending : (suffix, w) ∈ widthSuffixes) : Numbered ('r' :: (cs ++ suffix.toList)) v w

/-- The register that a name in small letters names. -/
inductive NamedBy : Register → List Char → Prop where
  | listed {s : String} {r : Register} (found : (s, r) ∈ listedNames) : NamedBy r s.toList
  | numbered {n : List Char} {v : Nat} {f : Family} {w : Width} (form : Numbered n v w)
      (family : (v, f) ∈ numberedFamilies) : NamedBy ⟨f, w⟩ n

section
variable {n cs : List Char} {u v : Nat} {w : Width}

/-- The suffix that is cut off is the one of the width. -/
theorem split_width_ending (cs : List Char) :
    ∃ suffix, (suffix, (splitWidth cs).2) ∈ widthSuffixes ∧
      cs = (splitWidth cs).1 ++ suffix.toList := by
  unfold splitWidth
  split
  · rename_i h
    exact ⟨"d", by simp [widthSuffixes], (List.dropLast_append_getLast? 'd' h).symm⟩
  · rename_i h
    exact ⟨"w", by simp [widthSuffixes], (List.dropLast_append_getLast? 'w' h).symm⟩
  · rename_i h
    exact ⟨"b", by simp [widthSuffixes], (List.dropLast_append_getLast? 'b' h).symm⟩
  · rename_i h
    exact ⟨"l", by simp [widthSuffixes], (List.dropLast_append_getLast? 'l' h).symm⟩
  · exact ⟨"", by simp [widthSuffixes], (List.append_nil cs).symm⟩

/-- A number ends with a digit, so no more than the suffix is cut off after it. -/
theorem Number.split_width {suffix : String} (number : Number cs v)
    (ending : (suffix, w) ∈ widthSuffixes) : splitWidth (cs ++ suffix.toList) = (cs, w) := by
  obtain ⟨c, hc, hdigit⟩ := number.last
  simp only [widthSuffixes, List.mem_cons, Prod.mk.injEq, List.not_mem_nil, or_false] at ending
  obtain ⟨rfl, rfl⟩ | ⟨rfl, rfl⟩ | ⟨rfl, rfl⟩ | ⟨rfl, rfl⟩ | ⟨rfl, rfl⟩ := ending
  · rw [show cs ++ "".toList = cs from List.append_nil cs]
    unfold splitWidth
    rw [Option.mem_def.mp hc]
    split
    -- A digit is none of the four letters.
    iterate 4
      · rename_i hletter
        cases hletter
        exact absurd hdigit (by decide)
    · rfl
  all_goals simp [splitWidth]

theorem numbered_iff_split :
    Numbered n v w ↔ ∃ cs, n = 'r' :: cs ∧ Number (splitWidth cs).1 v ∧ w = (splitWidth cs).2 := by
  constructor
  · rintro ⟨number, ending⟩
    refine ⟨_, rfl, ?_, ?_⟩
    · rw [number.split_width ending]
      exact number
    · rw [number.split_width ending]
  · rintro ⟨cs, rfl, number, rfl⟩
    obtain ⟨suffix, ending, hcs⟩ := split_width_ending cs
    have h := Numbered.intro number ending
    rw [← hcs] at h
    exact h

/-- A text has no two readings as a number with a width. -/
theorem Numbered.unique {w' : Width} (h : Numbered n u w) (h' : Numbered n v w') :
    u = v ∧ w = w' := by
  obtain ⟨cs, rfl, number, rfl⟩ := numbered_iff_split.mp h
  obtain ⟨cs', hsame, number', rfl⟩ := numbered_iff_split.mp h'
  cases hsame
  exact ⟨number.unique number', rfl⟩

theorem Numbered.digit (h : Numbered n v w) : ∃ c ∈ n, c.isDigit = true := by
  obtain ⟨number, _⟩ := h
  obtain ⟨c, hc, hdigit⟩ := number.last
  exact ⟨c, List.mem_cons_of_mem _ (List.mem_append_left _ (List.mem_of_getLast? hc)), hdigit⟩

theorem numbered_family_iff {f : Family} :
    (v, f) ∈ numberedFamilies ↔ 8 ≤ v ∧ Family.general[v]? = some f := by
  constructor
  · intro h
    have hall : ∀ p ∈ numberedFamilies, 8 ≤ p.1 ∧ Family.general[p.1]? = some p.2 := by decide
    exact hall _ h
  · rintro ⟨hle, hf⟩
    have hlt : v < 16 := (List.getElem?_eq_some_iff.mp hf).1
    have hall : ∀ v < 16, 8 ≤ v → (v, Family.ofNumber v) ∈ numberedFamilies := by decide
    have hmem := hall v hlt hle
    rw [Family.ofNumber, List.getD_eq_getElem?_getD, hf] at hmem
    exact hmem

theorem numbered_family_range {f : Family} (h : (v, f) ∈ numberedFamilies) : 8 ≤ v ∧ v ≤ 15 := by
  have hall : ∀ p ∈ numberedFamilies, 8 ≤ p.1 ∧ p.1 ≤ 15 := by decide
  exact hall _ h

theorem numbered_iff {r : Register} :
    numbered? n = some r ↔ ∃ v, Numbered n v r.width ∧ (v, r.family) ∈ numberedFamilies := by
  unfold numbered?
  split
  · rename_i cs
    simp only [Option.bind_eq_bind, Option.bind_eq_some_iff, number_iff]
    constructor
    · rintro ⟨v, ⟨number, _⟩, _, hguard, f, hf, hr⟩
      cases hr
      exact ⟨v, numbered_iff_split.mpr ⟨cs, rfl, number, rfl⟩,
        numbered_family_iff.mpr ⟨(Option.guard_eq_some' _).mp hguard, hf⟩⟩
    · rintro ⟨v, h, family⟩
      obtain ⟨_, hsame, number, hw⟩ := numbered_iff_split.mp h
      cases hsame
      obtain ⟨hle, hf⟩ := numbered_family_iff.mp family
      have hword : v < Word.count := by
        have hrange := numbered_family_range family
        unfold Word.count
        omega
      refine ⟨v, ⟨number, hword⟩, (), (Option.guard_eq_some' _).mpr hle, _, hf, ?_⟩
      rw [← hw]
      rfl
  · rename_i hletter
    constructor
    · intro h
      cases h
    · rintro ⟨v, h, _⟩
      obtain ⟨cs, rfl, _⟩ := numbered_iff_split.mp h
      exact absurd rfl (hletter cs)

end

section
variable {n : List Char} {r : Register}

/-- The registers with a name of their own have the names of the list. -/
theorem named_names : named.map (fun r => (r.name, r)) = listedNames := by
  decide +kernel

theorem names_distinct : (named.map fun r => r.name.toList).Nodup := by
  decide +kernel

theorem find_named_iff :
    named.find? (·.name.toList == n) = some r ↔ ∃ s, (s, r) ∈ listedNames ∧ s.toList = n := by
  rw [← named_names]
  simp only [List.mem_map, Prod.mk.injEq]
  constructor
  · intro h
    have hname := List.find?_some h
    exact ⟨r.name, ⟨r, List.mem_of_find?_eq_some h, rfl, rfl⟩, by simpa using hname⟩
  · rintro ⟨_, ⟨q, hmem, rfl, rfl⟩, rfl⟩
    have hsome : (named.find? (·.name.toList == q.name.toList)).isSome :=
      List.find?_isSome.mpr ⟨q, hmem, beq_self_eq_true _⟩
    obtain ⟨p, hp⟩ := Option.isSome_iff_exists.mp hsome
    have hname : p.name.toList = q.name.toList := by simpa using List.find?_some hp
    rw [hp, List.inj_on_of_nodup_map names_distinct (List.mem_of_find?_eq_some hp) hmem hname]

/-- A name of the list is not made of a number, for it has no digit. -/
theorem listed_not_numbered {s : String} {v : Nat} {w : Width} (h : (s, r) ∈ listedNames) :
    ¬ Numbered s.toList v w := by
  intro form
  obtain ⟨c, hmem, hdigit⟩ := form.digit
  have hall : ∀ p ∈ listedNames, p.1.toList.any Char.isDigit = false := by decide +kernel
  exact List.any_eq_false.mp (hall _ h) c hmem hdigit

theorem of_chars_iff : ofChars? n = some r ↔ r.NamedBy n := by
  unfold ofChars?
  rw [Option.orElse_eq_some, find_named_iff, numbered_iff]
  constructor
  · rintro (⟨s, found, rfl⟩ | ⟨_, v, form, family⟩)
    · exact .listed found
    · exact .numbered form family
  · intro h
    cases h with
    | listed found => exact .inl ⟨_, found, rfl⟩
    | @numbered _ v f w form family =>
      refine .inr ⟨?_, v, form, family⟩
      rw [Option.eq_none_iff_forall_ne_some]
      intro q hq
      obtain ⟨s, found, rfl⟩ := find_named_iff.mp hq
      exact listed_not_numbered found form

theorem NamedBy.ascii (h : r.NamedBy n) : ∀ c ∈ n, c.toNat < 128 := by
  cases h with
  | listed found =>
    have hall : ∀ p ∈ listedNames, p.1.toList.all (·.toNat < 128) = true := by decide +kernel
    simpa using hall _ found
  | numbered form family =>
    obtain ⟨number, ending⟩ := form
    have hall : ∀ p ∈ widthSuffixes, p.1.toList.all (·.toNat < 128) = true := by decide +kernel
    have hsuffix := hall _ ending
    simp only [List.all_eq_true, decide_eq_true_eq] at hsuffix
    exact List.forall_mem_cons.mpr
      ⟨by decide, List.forall_mem_append.mpr ⟨number.ascii, hsuffix⟩⟩

theorem lower_of_not_ascii {c : Char} (h : 128 ≤ c.toNat) : c.toLower = c := by
  unfold Char.toLower
  split
  · rename_i hcapital
    have hle : c.toNat ≤ 90 := UInt32.le_iff_toNat_le.mp hcapital.2
    omega
  · rfl

end

/-- Every text has one core without white space at its ends, and is read as the register that its
core, in small letters, names. A text that names no register is not read: so it is with each one
that has a character beyond ASCII and with each number outside of 8 to 15, however large. -/
theorem of_name_grammar (s : String) :
    (∃! core, Text.Trims s.toList core) ∧
      ∀ core, Text.Trims s.toList core →
        (∀ r : Register, ofName? s = some r ↔ r.NamedBy (core.map Char.toLower)) ∧
        (ofName? s = none ↔ ∀ r : Register, ¬ r.NamedBy (core.map Char.toLower)) ∧
        ((∃ c ∈ core, 128 ≤ c.toNat) → ofName? s = none) ∧
        ∀ v w, Numbered (core.map Char.toLower) v w → ¬ (8 ≤ v ∧ v ≤ 15) → ofName? s = none := by
  refine ⟨⟨_, Text.trim_trims _, fun core h => (Text.trim_eq h).symm⟩, ?_⟩
  intro core htrims
  have hreads : ∀ r : Register, ofName? s = some r ↔ r.NamedBy (core.map Char.toLower) := by
    intro r
    rw [ofName?, Text.trim_eq htrims, of_chars_iff]
  have hnone : ofName? s = none ↔ ∀ r : Register, ¬ r.NamedBy (core.map Char.toLower) := by
    rw [Option.eq_none_iff_forall_ne_some]
    exact forall_congr' fun r => not_congr (hreads r)
  refine ⟨hreads, hnone, ?_, ?_⟩
  · rintro ⟨c, hc, hbeyond⟩
    refine hnone.mpr fun r h => ?_
    have hascii := h.ascii _ (List.mem_map_of_mem hc)
    rw [lower_of_not_ascii hbeyond] at hascii
    omega
  · intro v w form hrange
    refine hnone.mpr fun r h => ?_
    generalize hn : core.map Char.toLower = n at form h
    cases h with
    | listed found => exact listed_not_numbered found form
    | numbered form' family =>
      obtain ⟨rfl, _⟩ := form.unique form'
      exact hrange (numbered_family_range family)

/-- `r15d` between two kinds of white space, the number that wraps to 8 in a 64-bit word, and a
digit of another alphabet. -/
theorem of_name_grammar_spellings :
    (Text.Trims "\u2003R+0015D\n".toList "R+0015D".toList ∧
      ofName? "\u2003R+0015D\n" = some ⟨.r15, .dword⟩) ∧
    (Numbered "r18446744073709551624".toList (Word.count + 8) .qword ∧
      ofName? "r18446744073709551624" = none) ∧
    (128 ≤ '\uff18'.toNat ∧ ofName? "r\uff18" = none) := by
  have hspaced : Text.Trims "\u2003R+0015D\n".toList "R+0015D".toList := by
    have htrim : Text.trim "\u2003R+0015D\n".toList = "R+0015D".toList := by decide +kernel
    exact htrim ▸ Text.trim_trims _
  have hnamed : NamedBy ⟨.r15, .dword⟩ ("R+0015D".toList.map Char.toLower) := by
    have number : Number "+0015".toList (decimal "0015".toList) :=
      .signed ⟨by decide +kernel, List.all_eq_true.mp (by decide +kernel)⟩
    have family : (decimal "0015".toList, .r15) ∈ numberedFamilies := by decide +kernel
    have ending : ("d", .dword) ∈ widthSuffixes := by decide +kernel
    have hspelled : "R+0015D".toList.map Char.toLower = 'r' :: ("+0015".toList ++ "d".toList) := by
      decide +kernel
    rw [hspelled]
    exact .numbered (.intro number ending) family
  have hlarge : Numbered "r18446744073709551624".toList (Word.count + 8) .qword := by
    have number : Number "18446744073709551624".toList (decimal "18446744073709551624".toList) :=
      .unsigned ⟨by decide +kernel, List.all_eq_true.mp (by decide +kernel)⟩
    have ending : ("", .qword) ∈ widthSuffixes := by decide +kernel
    exact .intro number ending
  have hbare : Text.Trims "r18446744073709551624".toList "r18446744073709551624".toList := by
    have htrim : Text.trim "r18446744073709551624".toList = "r18446744073709551624".toList := by
      decide +kernel
    exact htrim ▸ Text.trim_trims _
  have hsmall : "r18446744073709551624".toList.map Char.toLower =
      "r18446744073709551624".toList := by
    decide +kernel
  refine ⟨⟨hspaced, ?_⟩, ⟨hlarge, ?_⟩, by decide, ?_⟩
  · obtain ⟨hreads, _⟩ := (of_name_grammar _).2 _ hspaced
    exact (hreads _).mpr hnamed
  · obtain ⟨_, _, _, hnumber⟩ := (of_name_grammar _).2 _ hbare
    rw [hsmall] at hnumber
    exact hnumber _ _ hlarge (by decide)
  · obtain ⟨core, htrims, _⟩ := (of_name_grammar "r\uff18").1
    obtain ⟨_, _, hascii, _⟩ := (of_name_grammar _).2 core htrims
    have hcore := Text.trim_eq htrims
    exact hascii ⟨'\uff18', hcore ▸ by decide +kernel, by decide⟩

end Register

end FaultIsolation
