import FaultIsolation.Proofs.Carrying
import FaultIsolation.Proofs.Cut
import FaultIsolation.Proofs.Landing

namespace FaultIsolation

def Policy.upTo (longest : Nat) : Policy :=
  { Policy.bits64 with longest }

theorem Policy.up_to_unbroken {longest stop : Nat} {c pre post : Condition} {a : Assertion} :
    (Policy.upTo longest).carry c stop pre post ≠ .broken a := by
  simp only [Policy.upTo, Policy.bits64]
  split
  · simp
  · split
    · split <;> simp
    · simp

namespace Scan

/-- Of the instructions at `source` that stand alone and jump, the last one goes to `d`. -/
def LastJump (us : List CodeUnit) (source : Nat) (d : Int) : Prop :=
  ∃ xs i e ys, us = xs ++ .single i e :: ys ∧ i.address = source ∧ e.jump = some d ∧
    ∀ j e', .single j e' ∈ ys → j.address = source → e'.jump = none

def JumpsLand (us : List CodeUnit) : Prop :=
  ∀ source d, LastJump us source d → d % Bundle.size = 0 ∨ ∃ u ∈ us, (u.start : Int) = d

section
variable {p : Policy} {r : Rules} {code : List Instruction} {ss : List Step}
  {us : List CodeUnit} {source : Nat} {d : Int} {c : Condition} {i : Instruction}

theorem last_jump_of_find
    (h : ((us.filterMap fun u => u.effect.jump.map (u.start, ·)).reverse.find?
      (·.1 == source)).map Prod.snd = some d) : LastJump us source d := by
  obtain ⟨⟨s, d'⟩, hfind, rfl⟩ := Option.map_eq_some_iff.mp h
  obtain ⟨hs, later, earlier, hsplit, hno⟩ := List.find?_eq_some_iff_append.mp hfind
  have hs : s = source := by simpa using hs
  subst hs
  have hjumps := congrArg List.reverse hsplit
  simp only [List.reverse_reverse, List.reverse_append, List.reverse_cons, List.append_assoc,
    List.singleton_append] at hjumps
  obtain ⟨xs, zs, rfl, _, hzs⟩ := List.filterMap_eq_append_iff.mp hjumps
  obtain ⟨ws, u, ys, rfl, _, hu, hys⟩ := List.filterMap_eq_cons_iff.mp hzs
  obtain ⟨i, e, rfl, ha, hj⟩ := unit_jump hu
  refine ⟨xs ++ ws, i, e, ys, by simp, ha, hj, ?_⟩
  intro j e' hmem haddress
  cases hnext : e'.jump with
  | none => rfl
  | some d'' =>
    -- A later jump from there would have been found first.
    have hlater : (s, d'') ∈ later.reverse := by
      rw [← hys]
      refine List.mem_filterMap.mpr ⟨_, hmem, ?_⟩
      simp [hnext, haddress]
    have hfalse := hno _ (List.mem_reverse.mp hlater)
    simp at hfalse

theorem find_of_last_jump (h : LastJump us source d) :
    ((us.filterMap fun u => u.effect.jump.map (u.start, ·)).reverse.find?
      (·.1 == source)).map Prod.snd = some d := by
  obtain ⟨xs, i, e, ys, rfl, ha, hj, hlater⟩ := h
  have hnone : (ys.filterMap fun u => u.effect.jump.map (u.start, ·)).reverse.find?
      (·.1 == source) = none := by
    rw [List.find?_eq_none]
    intro j hmem
    obtain ⟨u, hu, hjump⟩ := List.mem_filterMap.mp (List.mem_reverse.mp hmem)
    obtain ⟨k, e', rfl, hk, hj'⟩ := unit_jump hjump
    intro hs
    have hnot := hlater k e' hu (hk.trans (by simpa using hs))
    simp [hnot] at hj'
  have hjump : (CodeUnit.single i e).effect.jump.map ((CodeUnit.single i e).start, ·) =
      some (source, d) := by
    simp [ha, hj]
  rw [List.filterMap_append, List.filterMap_cons, hjump, List.reverse_append,
    List.reverse_cons, List.append_assoc, List.find?_append, hnone]
  simp

theorem mem_jumps_iff : (source, d) ∈ jumps ss ↔ LastJump (units ss) source d := by
  rw [mem_jumps, jumps_of_units]
  exact ⟨last_jump_of_find, find_of_last_jump⟩

/-- After clean steps no jump is reported exactly if the jumps of their units land. -/
theorem stray_jumps_nil_iff (clean : Clean ss) : strayJumps ss = [] ↔ JumpsLand (units ss) := by
  have hlands (e : Int) : lands (Std.TreeSet.ofList (starts ss)) e = true ↔
      e % Bundle.size = 0 ∨ ∃ u ∈ units ss, (u.start : Int) = e := by
    rw [lands_iff, clean_starts clean]
    simp
  unfold strayJumps
  rw [List.filterMap_eq_nil_iff]
  constructor
  · intro h source d hlast
    have hnone := h (source, d) (mem_jumps_iff.mpr hlast)
    split at hnone
    · exact (hlands d).mp ‹_›
    · cases hnone
  · rintro h ⟨source, d⟩ hmem
    have hland := (hlands d).mpr (h source d (mem_jumps_iff.mp hmem))
    simp [hland]

/-- A scan breaks no assertion if the policy makes none. -/
theorem run_unbroken (hp : ∀ c stop pre post a, p.carry c stop pre post ≠ .broken a)
    (h : Run p r c code ss) : ∀ s ∈ ss, s.outcome.broken? = none := by
  have hstep (c : Condition) (i : Instruction) (rest : List Instruction) :
      (step p r c i rest).outcome.broken? = none := by
    rw [step_outcome]
    cases recognize r i (beginnings (rest.take (p.longest - 1))) with
    | accept u =>
      simp only [conclude, settle]
      split
      · rfl
      · rfl
      · rename_i hc
        exact absurd hc (hp _ _ _ _ _)
    | noMatch => rfl
    | violation cause => rfl
  induction h with
  | done c => simp
  | halt c i rest breaks => exact absurd (hstep c i rest) breaks
  | onward c i rest later ss goesOn takes tail ih =>
    intro s hs
    rcases List.mem_cons.mp hs with rfl | hs
    · exact goesOn
    · exact ih s hs

end

/-- What 64-bit code carries from unit to unit: the condition has to be enough for the unit, and
what the unit leaves holds after it. At the end of a bundle nothing may be left that cannot be
dropped, and it is dropped. -/
def Carried (c : Condition) (u : CodeUnit) (next : Condition) : Prop :=
  c.covers u.effect.pre = true ∧
    if u.stop % Bundle.size = 0 then u.effect.post.covers .default = true ∧ next = .default
    else next = u.effect.post

theorem lets_bits64_iff {longest : Nat} {c next : Condition} {u : CodeUnit} :
    Lets (.upTo longest) c u next ↔ Carried c u next := by
  unfold Carried
  constructor
  · intro h
    obtain ⟨hcovers, hnext⟩ := Policy.bits64_next h
    refine ⟨hcovers, ?_⟩
    rcases hnext with ⟨hs, hpost⟩ | ⟨hs, hpost⟩
    · rw [if_pos (Bundle.starts_iff.mp hs)]
      exact hpost
    · rw [if_neg (Bundle.starts_eq_false.mp hs)]
      exact hpost
  · rintro ⟨hcovers, hnext⟩
    change Policy.bits64.carry c u.stop u.effect.pre u.effect.post = .next next
    split at hnext
    · rename_i hs
      simp [Policy.bits64, hcovers, hs, hnext]
    · rename_i hs
      simp [Policy.bits64, hcovers, hs, hnext]

end Scan

theorem report_nil_iff_cut {p : Policy} {r : Rules} {size : Nat} {code : List Instruction} :
    (Inspection.ofChunk p r size (.ok code)).report = .ok ⟨[]⟩ ↔ Bundle.starts size = true ∧
      ∃ us d, Scan.Cut r p.longest (Scan.Lets p) .default code us d ∧ Scan.JumpsLand us := by
  rw [report_nil_iff, and_congr_right_iff]
  intro _
  constructor
  · rintro ⟨clean, hstray⟩
    exact ⟨_, _, (Scan.run_steps p r .default code).cut clean,
      (Scan.stray_jumps_nil_iff clean).mp hstray⟩
  · rintro ⟨us, d, hcut, hland⟩
    obtain ⟨clean, rfl, _⟩ := hcut.steps
    exact ⟨clean, (Scan.stray_jumps_nil_iff clean).mpr hland⟩

theorem report_exists {p : Policy} {r : Rules} {size : Nat} {code : List Instruction}
    (h : Scan.broken? (Scan.steps p r code) = none) :
    ∃ report, (Inspection.ofChunk p r size (.ok code)).report = .ok report := by
  unfold Inspection.ofChunk
  split
  · exact ⟨_, rfl⟩
  · exact ⟨_, report_of_unbroken h⟩

/-- Under any rules and with windows of any length, a scan that carries conditions as in 64-bit code
gives a report. Nothing is wrong exactly if the chunk consists of whole bundles and its code can be
cut into units whose jumps land. -/
theorem report_ok_iff_cut (r : Rules) (longest size : Nat) (code : List Instruction) :
    ∃ report, (Inspection.ofChunk (.upTo longest) r size (.ok code)).report = .ok report ∧
      (report.ok = true ↔ size % Bundle.size = 0 ∧
        ∃ us d, Scan.Cut r longest Scan.Carried .default code us d ∧ Scan.JumpsLand us) := by
  have hpolicy : Scan.Lets (.upTo longest) = Scan.Carried := by
    funext c u next
    exact propext Scan.lets_bits64_iff
  have hunbroken : Scan.broken? (Scan.steps (.upTo longest) r code) = none := by
    apply List.findSome?_eq_none_iff.mpr
    have hrun := Scan.run_steps (.upTo longest) r .default code
    exact Scan.run_unbroken (fun _ _ _ _ _ => Policy.up_to_unbroken) hrun
  obtain ⟨report, hreport⟩ : ∃ report,
      (Inspection.ofChunk (.upTo longest) r size (.ok code)).report = .ok report :=
    report_exists hunbroken
  refine ⟨report, hreport, ?_⟩
  have hok : report.ok = true ↔
      (Inspection.ofChunk (.upTo longest) r size (.ok code)).report = .ok ⟨[]⟩ := by
    rw [hreport]
    obtain ⟨ds⟩ := report
    simp [Report.ok]
  rw [hok, report_nil_iff_cut, hpolicy]
  simp [Policy.upTo]

end FaultIsolation
