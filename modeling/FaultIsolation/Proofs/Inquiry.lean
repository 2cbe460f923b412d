import FaultIsolation.Proofs.Resumption

namespace FaultIsolation

namespace Query

def isSingle : Query → Bool
  | .single _ _ => true
  | _ => false

def isCarry : Query → Bool
  | .carry _ _ _ _ _ => true
  | _ => false

def isAccept : Query → Bool
  | .window _ (.accept _) | .single _ (.accept _) => true
  | _ => false

end Query

/-- How many instructions a step takes of the `n` that the rules accept. -/
def Carry.takes (n : Nat) : Carry → Nat
  | .next _ => n
  | _ => 1

namespace Scan

def windowLengths (longest : Nat) (code : List Instruction) : List Nat :=
  (List.range' 2 (min longest code.length - 1)).reverse

def askWindow (r : Rules) (code : List Instruction) (n : Nat) : Query :=
  .window (code.take n) (r.window (code.take n))

def askCarry (p : Policy) (c : Condition) (stop : Nat) (e : Effect) : Query :=
  .carry c stop e.pre e.post (p.carry c stop e.pre e.post)

/-- What a step asks at the front of the code where a condition holds, and how many instructions it
takes. -/
inductive Inquiry (p : Policy) (r : Rules) (c : Condition) (code : List Instruction) :
    List Query → Nat → Prop where
  /-- The first window that the rules do not pass over is refused. -/
  | refusal (longer shorter : List Nat) (n : Nat) (cause : Violation)
      (lengths : windowLengths p.longest code = longer ++ n :: shorter)
      (passed : ∀ m ∈ longer, r.window (code.take m) = .noMatch)
      (answer : r.window (code.take n) = .violation cause) :
      Inquiry p r c code ((longer ++ [n]).map (askWindow r code)) 1
  /-- It is accepted. -/
  | idiom (longer shorter : List Nat) (n : Nat) (last : Instruction)
      (lengths : windowLengths p.longest code = longer ++ n :: shorter)
      (passed : ∀ m ∈ longer, r.window (code.take m) = .noMatch)
      (answer : r.window (code.take n) = .accept ()) (ends : (code.take n).getLast? = some last) :
      Inquiry p r c code ((longer ++ [n]).map (askWindow r code) ++ [askCarry p c last.stop {}])
        ((p.carry c last.stop .default .default).takes n)
  /-- All windows are passed over, and the instruction alone is not accepted. -/
  | rejection (i : Instruction) (first : code.head? = some i)
      (passed : ∀ m ∈ windowLengths p.longest code, r.window (code.take m) = .noMatch)
      (answer : ∀ e, r.single i ≠ .accept e) :
      Inquiry p r c code
        ((windowLengths p.longest code).map (askWindow r code) ++ [.single i (r.single i)]) 1
  /-- The instruction alone is accepted. -/
  | single (i : Instruction) (e : Effect) (first : code.head? = some i)
      (passed : ∀ m ∈ windowLengths p.longest code, r.window (code.take m) = .noMatch)
      (answer : r.single i = .accept e) :
      Inquiry p r c code ((windowLengths p.longest code).map (askWindow r code) ++
        [.single i (.accept e), askCarry p c i.stop e]) 1

variable {p : Policy} {r : Rules} {c : Condition} {i : Instruction} {n longest : Nat}
  {code rest : List Instruction} {qs : List Query}

theorem lengths_succ (n : Nat) :
    (List.range' 2 n).reverse = (List.range' 1 n).reverse.map (1 + ·) := by
  rw [List.map_reverse, List.map_add_range']

theorem beginnings_eq_map (code : List Instruction) :
    beginnings code = (List.range' 1 code.length).reverse.map code.take := by
  induction code with
  | nil => rfl
  | cons i rest ih =>
    rw [beginnings, ih, List.length_cons, List.range'_succ, List.reverse_cons, List.map_append,
      lengths_succ, List.map_map, List.map_map]
    simp [Function.comp_def, Nat.add_comm 1]

theorem mem_window_lengths : n ∈ windowLengths longest code ↔ IsWindow longest code n := by
  simp only [windowLengths, List.mem_reverse, List.mem_range'_1, IsWindow]
  omega

/-- The lists that follow the first instruction in the windows. -/
theorem window_tails (longest : Nat) (i : Instruction) (rest : List Instruction) :
    beginnings (rest.take (longest - 1)) =
      (windowLengths longest (i :: rest)).map fun n => rest.take (n - 1) := by
  have hcount : min longest (i :: rest).length - 1 = (rest.take (longest - 1)).length := by
    simp only [List.length_cons, List.length_take]
    omega
  rw [beginnings_eq_map, windowLengths, hcount, lengths_succ, List.map_map]
  apply List.map_congr_left
  intro n hn
  have hle : n ≤ longest - 1 := by
    simp only [List.mem_reverse, List.mem_range'_1, List.length_take] at hn
    omega
  simp [List.take_take, hle]

theorem take_window (hn : n ∈ windowLengths longest (i :: rest)) :
    (i :: rest).take n = i :: rest.take (n - 1) := by
  obtain ⟨hseveral, _⟩ := mem_window_lengths.mp hn
  obtain ⟨k, rfl⟩ := Nat.exists_eq_add_of_le' hseveral
  rfl

/-- Windows that the rules pass over are asked about and left behind. -/
theorem ask_windows_passed {longer : List Nat} (more : List (List Instruction))
    (hsub : ∀ n ∈ longer, n ∈ windowLengths longest (i :: rest))
    (passed : ∀ n ∈ longer, r.window ((i :: rest).take n) = .noMatch) :
    askWindows p r c i ((longer.map fun n => rest.take (n - 1)) ++ more) =
      { askWindows p r c i more with
        queries := longer.map (askWindow r (i :: rest)) ++ (askWindows p r c i more).queries } := by
  induction longer with
  | nil => rfl
  | cons n longer ih =>
    have hask := ih (fun m hm => hsub m (by simp [hm])) fun m hm => passed m (by simp [hm])
    have hn := passed n (by simp)
    rw [take_window (hsub n (by simp))] at hn
    simp only [List.map_cons, List.cons_append, askWindows, hn, hask, Step.after, askWindow,
      take_window (hsub n (by simp))]

theorem ask_single_inquiry
    (passed : ∀ n ∈ windowLengths p.longest (i :: rest), r.window ((i :: rest).take n) = .noMatch) :
    Inquiry p r c (i :: rest)
      ((windowLengths p.longest (i :: rest)).map (askWindow r (i :: rest)) ++
        (askSingle p r c i).queries) (askSingle p r c i).members.length := by
  have hmembers : (askSingle p r c i).members.length = 1 := by
    unfold askSingle
    cases hs : r.single i with
    | accept e =>
      simp only [Step.after, settle, Step.members]
      split <;> rfl
    | noMatch => rfl
    | violation cause => rfl
  rw [hmembers, askSingle]
  cases hs : r.single i with
  | accept e => exact .single i e rfl passed hs
  | noMatch | violation =>
    have h := Inquiry.rejection (c := c) i rfl passed (by simp [hs])
    rw [hs] at h
    exact h

theorem settle_idiom_members {tail : List Instruction} (hn : tail.length + 1 = n) :
    (settle p c (.idiom i tail)).members.length =
      (p.carry c (tail.getLast?.getD i).stop .default .default).takes n := by
  have hanswer : p.carry c (CodeUnit.idiom i tail).stop (CodeUnit.idiom i tail).effect.pre
      (CodeUnit.idiom i tail).effect.post = p.carry c (tail.getLast?.getD i).stop .default
        .default := rfl
  simp only [settle, Step.members, hanswer]
  cases p.carry c (tail.getLast?.getD i).stop .default .default with
  | next d => exact hn
  | unmet cause => rfl
  | broken assertion => rfl

theorem ask_window_inquiry {longer shorter : List Nat}
    (lengths : windowLengths p.longest (i :: rest) = longer ++ n :: shorter)
    (passed : ∀ m ∈ longer, r.window ((i :: rest).take m) = .noMatch)
    (decides : r.window ((i :: rest).take n) ≠ .noMatch) (more : List (List Instruction)) :
    Inquiry p r c (i :: rest)
      (longer.map (askWindow r (i :: rest)) ++
        (askWindows p r c i (rest.take (n - 1) :: more)).queries)
      (askWindows p r c i (rest.take (n - 1) :: more)).members.length := by
  have hn : n ∈ windowLengths p.longest (i :: rest) := by simp [lengths]
  have hwindow := take_window hn
  obtain ⟨hseveral, hinside⟩ := mem_window_lengths.mp hn
  unfold askWindows
  rw [← hwindow]
  cases hw : r.window ((i :: rest).take n) with
  | noMatch => exact absurd hw decides
  | violation cause =>
    have h := Inquiry.refusal (c := c) longer shorter n cause lengths passed hw
    rw [List.map_append, List.map_singleton, askWindow, hw] at h
    exact h
  | accept u =>
    have hlast : ((i :: rest).take n).getLast? =
        some ((rest.take (n - 1)).getLast?.getD i) := by
      rw [hwindow, List.getLast?_cons]
    have hlength : (rest.take (n - 1)).length + 1 = n := by
      simp only [List.length_cons, List.length_take] at hinside ⊢
      omega
    have h := Inquiry.idiom (c := c) longer shorter n _ lengths passed hw hlast
    rw [List.map_append, List.map_singleton, askWindow, hw, List.append_assoc,
      ← settle_idiom_members hlength] at h
    exact h

/-- One step. -/
theorem step_inquiry (p : Policy) (r : Rules) (c : Condition) (i : Instruction)
    (rest : List Instruction) :
    Inquiry p r c (i :: rest) (step p r c i rest).queries (step p r c i rest).members.length := by
  rw [step, window_tails p.longest i rest]
  -- Either the rules pass over all windows, or one is the first that they do not pass over.
  cases hfirst : (windowLengths p.longest (i :: rest)).find?
      fun n => r.window ((i :: rest).take n) != .noMatch with
  | none =>
    have passed : ∀ n ∈ windowLengths p.longest (i :: rest),
        r.window ((i :: rest).take n) = .noMatch := by
      simpa using List.find?_eq_none.mp hfirst
    have hask := ask_windows_passed (p := p) (c := c) [] (fun n hn => hn) passed
    rw [List.append_nil] at hask
    rw [hask]
    exact ask_single_inquiry passed
  | some n =>
    obtain ⟨decides, longer, shorter, lengths, hlonger⟩ :=
      List.find?_eq_some_iff_append.mp hfirst
    have passed : ∀ m ∈ longer, r.window ((i :: rest).take m) = .noMatch := by
      simpa using hlonger
    have hsub : ∀ m ∈ longer, m ∈ windowLengths p.longest (i :: rest) := by
      intro m hm
      simp [lengths, hm]
    rw [lengths, List.map_append, List.map_cons, ask_windows_passed _ hsub passed]
    exact ask_window_inquiry lengths passed (by simpa using decides) _

theorem count_windows {q : Query → Bool} (hq : ∀ w a, q (.window w a) = false) (ns : List Nat) :
    (ns.map (askWindow r code)).countP q = 0 := by
  apply List.countP_eq_zero.mpr
  intro x hx
  obtain ⟨n, _, rfl⟩ := List.mem_map.mp hx
  simp [askWindow, hq]

theorem filter_windows (ns : List Nat) :
    (ns.map (askWindow r code)).filter (!·.isCarry) = ns.map (askWindow r code) := by
  apply List.filter_eq_self.mpr
  intro x hx
  obtain ⟨n, _, rfl⟩ := List.mem_map.mp hx
  rfl

/-- The instruction alone is asked about once, or not at all if a window was not passed over. -/
theorem Inquiry.single_count (h : Inquiry p r c code qs n) :
    qs.countP Query.isSingle =
      if ∀ m ∈ windowLengths p.longest code, r.window (code.take m) = .noMatch then 1 else 0 := by
  have hdecided {longer shorter : List Nat} {m : Nat}
      (lengths : windowLengths p.longest code = longer ++ m :: shorter)
      (decides : r.window (code.take m) ≠ .noMatch) :
      ¬∀ m ∈ windowLengths p.longest code, r.window (code.take m) = .noMatch :=
    fun hall => decides (hall m (by simp [lengths]))
  cases h with
  | refusal longer shorter m cause lengths passed answer =>
    rw [if_neg (hdecided lengths (by simp [answer])), count_windows fun _ _ => rfl]
  | idiom longer shorter m last lengths passed answer ends =>
    rw [if_neg (hdecided lengths (by simp [answer])), List.countP_append,
      count_windows fun _ _ => rfl]
    rfl
  | rejection i first passed answer =>
    rw [if_pos passed, List.countP_append, count_windows fun _ _ => rfl]
    rfl
  | single i e first passed answer =>
    rw [if_pos passed, List.countP_append, count_windows fun _ _ => rfl]
    rfl

/-- Whether something fits the condition is asked once, or not at all if the last answer of the
rules is not that they accept it. -/
theorem Inquiry.carry_count (h : Inquiry p r c code qs n) :
    qs.countP Query.isCarry =
      if (qs.filter (!·.isCarry)).getLast?.any Query.isAccept then 1 else 0 := by
  cases h with
  | refusal longer shorter m cause lengths passed answer =>
    rw [count_windows fun _ _ => rfl, filter_windows]
    simp [askWindow, answer, Query.isAccept]
  | idiom longer shorter m last lengths passed answer ends =>
    rw [List.countP_append, count_windows fun _ _ => rfl, List.filter_append, filter_windows]
    simp [askWindow, askCarry, answer, Query.isAccept, Query.isCarry]
  | rejection i first passed answer =>
    rw [List.countP_append, count_windows fun _ _ => rfl, List.filter_append, filter_windows]
    cases hs : r.single i with
    | accept e => exact absurd hs (answer e)
    | noMatch | violation => simp [Query.isAccept, Query.isCarry]
  | single i e first passed answer =>
    rw [List.countP_append, count_windows fun _ _ => rfl, List.filter_append, filter_windows]
    simp [askCarry, Query.isAccept, Query.isCarry]

/-- No step begins inside what another one took. -/
theorem taken_apart {before after front back : List Step} {s t : Step}
    (h : before ++ s :: after = front ++ t :: back) :
    taken front ≤ taken before ∨ taken before + s.members.length ≤ taken front := by
  rcases List.append_eq_append_iff.mp h with ⟨between, rfl, hrest⟩ | ⟨between, rfl, _⟩
  · cases between with
    | nil => simp
    | cons u between =>
      obtain ⟨rfl, _⟩ := List.cons.inj hrest
      right
      simp
  · left
    simp

end Scan

/-- How a scan asks, whatever the rules, the policy and the longest window are. A step asks at the
place where the steps before it ended. It goes through the windows there from the longest down to
two instructions and stops at the first that the rules do not pass over. It asks about the
instruction alone, once, exactly if they pass over all windows, and whether a unit fits the
condition that holds, once, exactly if the last answer was that they accept it. Nothing is asked at
a place inside what a step took. -/
theorem greedy_inquiry {p : Policy} {r : Rules} {code : List Instruction} {before after : List Step}
    {s : Step} (here : Scan.steps p r code = before ++ s :: after) :
    (Inspection.scanned (Scan.steps p r code)).queries =
        Scan.queries before ++ s.queries ++ Scan.queries after ∧
    ∃ rest n, code = before.flatMap Step.members ++ rest ∧ s.members = rest.take n ∧
      Scan.Inquiry p r (Scan.final .default before) rest s.queries n ∧
      (s.queries.countP Query.isSingle =
        if ∀ m ∈ Scan.windowLengths p.longest rest, r.window (rest.take m) = .noMatch then 1
        else 0) ∧
      (s.queries.countP Query.isCarry =
        if (s.queries.filter (!·.isCarry)).getLast?.any Query.isAccept then 1 else 0) ∧
      ∀ front t back, Scan.steps p r code = front ++ t :: back →
        Scan.taken front ≤ Scan.taken before ∨ Scan.taken before + n ≤ Scan.taken front := by
  obtain ⟨i, rest, hcode, rfl⟩ := (Scan.run_steps p r .default code).step_at here
  have hinquiry := Scan.step_inquiry p r (Scan.final .default before) i rest
  refine ⟨?_, i :: rest, _, hcode, ?_, hinquiry, hinquiry.single_count, hinquiry.carry_count, ?_⟩
  · rw [here]
    simp [Inspection.queries, Scan.queries]
  · apply List.prefix_iff_eq_take.mp
    simpa using Scan.step_tail p r _ i rest
  · intro front t back hthere
    exact Scan.taken_apart (here.symm.trans hthere)

theorem greedy_inquiry_jump :
    ∃ s after, sandboxSteps .bits64 Sample.idiomBundle = [] ++ s :: after ∧
      s.queries = [.window (Sample.idiomBundle.take 5) .noMatch,
        .window (Sample.idiomBundle.take 4) .noMatch,
        .window (Sample.idiomBundle.take 3) (.accept ()),
        .carry .default 8 .default .default (.next .default)] ∧
      ∀ front t back, sandboxSteps .bits64 Sample.idiomBundle = front ++ t :: back →
        Scan.taken front = 0 ∨ 3 ≤ Scan.taken front := by
  have first : (sandboxSteps .bits64 Sample.idiomBundle).head?.map
      (fun s => (s.queries, s.members.length)) =
        some ([.window (Sample.idiomBundle.take 5) .noMatch,
          .window (Sample.idiomBundle.take 4) .noMatch,
          .window (Sample.idiomBundle.take 3) (.accept ()),
          .carry .default 8 .default .default (.next .default)], 3) := by
    decide +kernel
  obtain ⟨s, hhead, hasked⟩ := Option.map_eq_some_iff.mp first
  obtain ⟨hqueries, hlength⟩ := Prod.mk.inj hasked
  obtain ⟨after, hsteps⟩ := List.head?_eq_some_iff.mp hhead
  have here : sandboxSteps .bits64 Sample.idiomBundle = [] ++ s :: after := hsteps
  refine ⟨s, after, here, hqueries, ?_⟩
  intro front t back hthere
  obtain ⟨_, rest, n, hcode, hmembers, _, _, _, apart⟩ := greedy_inquiry here
  have hrest : Sample.idiomBundle.length = rest.length := congrArg List.length hcode
  have htaken := congrArg List.length hmembers
  rw [hlength, List.length_take, ← hrest] at htaken
  have hn : n = 3 := by
    have htotal : Sample.idiomBundle.length = 6 := rfl
    omega
  subst hn
  rcases apart front t back hthere with hbefore | hbehind
  · exact Or.inl (Nat.le_zero.mp hbefore)
  · exact Or.inr (by simpa [Scan.taken] using hbehind)

end FaultIsolation
