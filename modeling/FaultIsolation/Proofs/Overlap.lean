import FaultIsolation.Proofs.Seam

namespace FaultIsolation

/-- The idiom rules do not pass over the `length` instructions that follow the first `start`. -/
structure IdiomAt (mode : Mode) (code : List Instruction) (start length : Nat) : Prop where
  several : 2 ≤ length
  inside : start + length ≤ code.length
  judged : Rule.idiom mode ((code.drop start).take length) ≠ .noMatch

namespace IdiomAt
variable {mode : Mode} {code : List Instruction} {start start' length length' : Nat}

/-- The place of an idiom, as a guard and the instruction that it guards. -/
theorem guarded (h : IdiomAt mode code start length) :
    ∃ before front last after, code = before ++ front ++ last :: after ∧
      before.length = start ∧ front.length + 1 = length ∧ Rule.Guarded mode front last := by
  obtain ⟨front, last, hwindow, hg⟩ := Rule.idiom_shape h.judged
  have hinside := h.inside
  refine ⟨code.take start, front, last, code.drop (start + length), ?_, ?_, ?_, hg⟩
  · have hrest := List.take_append_drop length (code.drop start)
    rw [hwindow, List.drop_drop] at hrest
    calc code = code.take start ++ code.drop start := (List.take_append_drop start code).symm
      _ = code.take start ++ (front ++ [last] ++ code.drop (start + length)) := by rw [hrest]
      _ = code.take start ++ front ++ last :: code.drop (start + length) := by simp
  · rw [List.length_take]
    omega
  · have hlength := congrArg List.length hwindow
    simp only [List.length_take, List.length_drop, List.length_append, List.length_cons,
      List.length_nil] at hlength
    omega

/-- The last instruction is not safe by itself, and the length is its own. -/
theorem last (h : IdiomAt mode code start length) :
    ∃ i, code[start + length - 1]? = some i ∧ ¬i.Permitted ∧
      length = Rule.guardLength mode i + 1 := by
  obtain ⟨before, front, i, after, rfl, rfl, rfl, hg⟩ := h.guarded
  refine ⟨i, ?_, hg.not_permitted, ?_⟩
  · rw [List.getElem?_append_right (by simp)]
    simp
  · rw [hg.length]

/-- The instructions before the last one are safe by themselves. -/
theorem inner {n : Nat} (h : IdiomAt mode code start length) (hge : start ≤ n)
    (hlt : n + 1 < start + length) : ∃ i, code[n]? = some i ∧ i.Permitted := by
  obtain ⟨before, front, last, after, rfl, rfl, rfl, hg⟩ := h.guarded
  have hn : n - before.length < front.length := by omega
  obtain ⟨r, hp, _⟩ := hg.front (List.getElem_mem hn)
  refine ⟨front[n - before.length], ?_, hp.permitted⟩
  rw [List.append_assoc, List.getElem?_append_right hge, List.getElem?_append_left hn,
    List.getElem?_eq_getElem hn]

/-- An idiom begins behind the end of one that ends earlier. -/
theorem behind (h : IdiomAt mode code start length) (h' : IdiomAt mode code start' length')
    (hlt : start + length < start' + length') : start + length ≤ start' := by
  by_contra hinside
  obtain ⟨i, hi, hnot, _⟩ := h.last
  have hseveral := h.several
  -- The last instruction of the first would be one of the second's guard.
  obtain ⟨j, hj, hpermitted⟩ :=
    h'.inner (n := start + length - 1) (by omega) (by omega)
  cases hi.symm.trans hj
  exact hnot hpermitted

/-- Two idioms that end together begin together. -/
theorem same_length (h : IdiomAt mode code start length) (h' : IdiomAt mode code start' length')
    (he : start + length = start' + length') : length = length' := by
  obtain ⟨i, hi, _, hl⟩ := h.last
  obtain ⟨j, hj, _, hl'⟩ := h'.last
  rw [he] at hi
  cases hi.symm.trans hj
  rw [hl, hl']

theorem same_or_apart (h : IdiomAt mode code start length)
    (h' : IdiomAt mode code start' length') :
    start = start' ∧ length = length' ∨ start + length ≤ start' ∨ start' + length' ≤ start := by
  rcases Nat.lt_trichotomy (start + length) (start' + length') with hlt | heq | hgt
  · exact Or.inr (Or.inl (h.behind h' hlt))
  · have hlength := h.same_length h' heq
    exact Or.inl ⟨by omega, hlength⟩
  · exact Or.inr (Or.inr (h'.behind h hgt))

theorem length_unique (h : IdiomAt mode code start length) (h' : IdiomAt mode code start length') :
    length = length' := by
  have hseveral := h.several
  have hseveral' := h'.several
  rcases h.same_or_apart h' with ⟨_, he⟩ | hapart | hapart
  · exact he
  · omega
  · omega

end IdiomAt

namespace Scan

def shortestStep (p : Policy) (r : Rules) (current : Condition) (i : Instruction)
    (rest : List Instruction) : Step :=
  askWindows p r current i (beginnings (rest.take (p.longest - 1))).reverse

def shortestSteps (p : Policy) (r : Rules) (code : List Instruction) : List Step :=
  stepsAfter (shortestStep p r) 0 .default code

section
variable {p : Policy} {r : Rules} {i : Instruction} {c : Condition} {rest : List Instruction}
  {mode : Mode} {ss ts : List Step}

/-- If at most one window is not passed over, the order of the windows does not matter. -/
theorem recognize_perm {tails tails' : List (List Instruction)} (h : tails.Perm tails')
    (unique : ∀ s ∈ tails, ∀ t ∈ tails, r.window (i :: s) ≠ .noMatch →
      r.window (i :: t) ≠ .noMatch → s = t) :
    recognize r i tails = recognize r i tails' := by
  induction h with
  | nil => rfl
  | cons tail _ ih =>
    have hrest := ih fun s hs t ht => unique s (by simp [hs]) t (by simp [ht])
    rw [recognize, recognize, hrest]
  | swap s t tails =>
    by_cases hs : r.window (i :: s) = .noMatch
    · simp [recognize, hs]
    · by_cases ht : r.window (i :: t) = .noMatch
      · simp [recognize, ht]
      · rw [unique s (by simp) t (by simp) hs ht]
  | trans hl _ ihl ihr =>
    refine (ihl unique).trans (ihr ?_)
    intro s hs t ht
    exact unique s (hl.mem_iff.mpr hs) t (hl.mem_iff.mpr ht)

/-- The sandbox's rules do not pass over one window at most of those that begin at a place. -/
theorem window_unique {s t : List Instruction} (hs : s ∈ beginnings (rest.take (p.longest - 1)))
    (ht : t ∈ beginnings (rest.take (p.longest - 1)))
    (hws : (Rules.sandbox mode).window (i :: s) ≠ .noMatch)
    (hwt : (Rules.sandbox mode).window (i :: t) ≠ .noMatch) : s = t := by
  have hplace {u : List Instruction} (hu : u ∈ beginnings (rest.take (p.longest - 1)))
      (hw : (Rules.sandbox mode).window (i :: u) ≠ .noMatch) :
      u = rest.take u.length ∧ IdiomAt mode (i :: rest) 0 (u.length + 1) := by
    obtain ⟨hne, hprefix⟩ := mem_beginnings.mp hu
    have hprefix := hprefix.trans (List.take_prefix _ _)
    have htake := List.prefix_iff_eq_take.mp hprefix
    have hpos := List.length_pos_iff.mpr hne
    have hle := hprefix.length_le
    refine ⟨htake, by omega, by simpa using hle, ?_⟩
    rw [List.drop_zero, List.take_succ_cons, ← htake]
    exact hw
  obtain ⟨hs, hs'⟩ := hplace hs hws
  obtain ⟨ht, ht'⟩ := hplace ht hwt
  have hlength := hs'.length_unique ht'
  rw [hs, ht, Nat.succ.inj hlength]

theorem shortest_step_outcome (p : Policy) (mode : Mode) (c : Condition) (i : Instruction)
    (rest : List Instruction) : (shortestStep p (.sandbox mode) c i rest).outcome =
      (step p (.sandbox mode) c i rest).outcome := by
  rw [shortestStep, ask_windows_outcome, step_outcome, recognize_perm (List.reverse_perm _)]
  intro s hs t ht
  exact window_unique (p := p) (List.mem_reverse.mp hs) (List.mem_reverse.mp ht)

/-- Where steps go on is up to their outcomes alone. -/
theorem steps_after_outcomes {take take' : Condition → Instruction → List Instruction → Step}
    (h : ∀ c i rest, (take c i rest).outcome = (take' c i rest).outcome) (skip : Nat)
    (c : Condition) (code : List Instruction) :
    (stepsAfter take skip c code).map Step.outcome =
      (stepsAfter take' skip c code).map Step.outcome := by
  induction code generalizing skip c with
  | nil => cases skip <;> rfl
  | cons i rest ih =>
    cases skip with
    | succ skip => exact ih skip c
    | zero =>
      rw [stepsAfter, stepsAfter]
      cases hb : (take' c i rest).outcome.broken? with
      | some assertion => simp [h, hb]
      | none => simp [h, hb, ih]

/-- A report tells of the outcomes only. -/
theorem report_of_outcomes (h : ss.map Step.outcome = ts.map Step.outcome) :
    (Inspection.scanned ss).report = (Inspection.scanned ts).report := by
  have hbroken (ss : List Step) :
      broken? ss = (ss.map Step.outcome).findSome? Outcome.broken? := by
    rw [broken?, List.findSome?_map]
    rfl
  have hdiagnostics (ss : List Step) : diagnostics ss =
      (ss.map Step.outcome).flatMap Outcome.diagnostics ++ strayJumps ss := by
    rw [diagnostics, List.flatMap_map]
  have hjumps (ss : List Step) : ss.filterMap (·.outcome.jump?) =
      (ss.map Step.outcome).filterMap Outcome.jump? := by
    rw [List.filterMap_map]
    rfl
  have hstarts (ss : List Step) : starts ss = (ss.map Step.outcome).map (·.head.address) := by
    rw [starts, List.map_map]
    rfl
  simp only [Inspection.report, hbroken, hdiagnostics, strayJumps, jumps, hjumps, hstarts, h]

end

end Scan

/-- Two idioms in the code are one and the same, or they have no instruction in common. So at each
place at most one window is an idiom, and a scan that asks about the shortest window first makes
the same report. -/
theorem idioms_never_overlap (mode : Mode) (code : List Instruction) :
    (∀ start length start' length', IdiomAt mode code start length →
      IdiomAt mode code start' length' →
        start = start' ∧ length = length' ∨ start + length ≤ start' ∨ start' + length' ≤ start) ∧
    (∀ start length length', IdiomAt mode code start length →
      IdiomAt mode code start length' → length = length') ∧
    ∀ p : Policy, (Inspection.scanned (Scan.shortestSteps p (.sandbox mode) code)).report =
      (Inspection.scanned (Scan.steps p (.sandbox mode) code)).report := by
  refine ⟨?_, ?_, ?_⟩
  · intro start length start' length' h h'
    exact h.same_or_apart h'
  · intro start length length' h h'
    exact h.length_unique h'
  · intro p
    apply Scan.report_of_outcomes
    exact Scan.steps_after_outcomes (Scan.shortest_step_outcome p mode) 0 .default code

namespace Sample

def movePointer (address : Nat) (f : Family) : List Instruction :=
  [{ address, length := 2, mnemonic := "mov", disassembly := "mov",
     operands := [.register (.dword f), .register (.dword f)] },
   { address := address + 2, length := 4, mnemonic := "lea", disassembly := "lea",
     operands := [.register (.qword f),
       .memory { base := some (.qword .r15), index := some (.qword f) }] }]

/-- A string operation that uses both pointers, and right after it an indirect jump. -/
def twoIdioms : List Instruction :=
  movePointer 0 .rsi ++ movePointer 6 .rdi ++
    [{ address := 12, length := 1, mnemonic := "movs", disassembly := "movs" },
     roundTarget, rebaseTarget, jumpThrough]

end Sample

theorem idioms_never_overlap_string :
    IdiomAt .bits64 Sample.twoIdioms 0 5 ∧ IdiomAt .bits64 Sample.twoIdioms 5 3 ∧
      ∀ start length, IdiomAt .bits64 Sample.twoIdioms start length →
        start = 0 ∧ length = 5 ∨ start = 5 ∧ length = 3 := by
  have string : IdiomAt .bits64 Sample.twoIdioms 0 5 := ⟨by decide, by decide, by decide +kernel⟩
  have jump : IdiomAt .bits64 Sample.twoIdioms 5 3 := ⟨by decide, by decide, by decide +kernel⟩
  refine ⟨string, jump, ?_⟩
  intro start length h
  obtain ⟨apart, _⟩ := idioms_never_overlap .bits64 Sample.twoIdioms
  have hseveral := h.several
  have hinside : start + length ≤ 8 := h.inside
  rcases apart _ _ _ _ string h with hsame | hbehind | hbefore
  · exact Or.inl ⟨hsame.1.symm, hsame.2.symm⟩
  · rcases apart _ _ _ _ jump h with hsame | hbehind | hbefore
    · exact Or.inr ⟨hsame.1.symm, hsame.2.symm⟩
    · omega
    · omega
  · omega

end FaultIsolation
