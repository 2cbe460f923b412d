import FaultIsolation.Chunk
import FaultIsolation.Proofs.Accounting
import FaultIsolation.Proofs.Decoding
import FaultIsolation.Proofs.Joining
import FaultIsolation.Proofs.Unconditional
import Mathlib.Data.List.Nodup

namespace FaultIsolation

namespace Diagnostic

def isViolation : Diagnostic → Bool
  | .violation _ _ => true
  | _ => false

/-- How a diagnostic may stand before another, with some between them. Two of them share an offset
only if a unit that lies in two bundles is rejected as well. -/
def Precedes (a : Diagnostic) (between : List Diagnostic) (b : Diagnostic) : Prop :=
  a.offset < b.offset ∨
    a.offset = b.offset ∧ between = [] ∧ a.isCrossing = true ∧ b.isViolation = true

def InOrder (ds : List Diagnostic) : Prop :=
  ∀ front a between b back, ds = front ++ a :: (between ++ b :: back) → a.Precedes between b

theorem in_order_cons {x : Diagnostic} {ds : List Diagnostic} (h : InOrder ds)
    (hx : ∀ between b back, ds = between ++ b :: back → x.Precedes between b) :
    InOrder (x :: ds) := by
  intro front a between b back he
  cases front with
  | nil =>
    obtain ⟨rfl, rfl⟩ := List.cons.inj he
    exact hx between b back rfl
  | cons y front => exact h front a between b back (List.cons.inj he).2

end Diagnostic

/-- The report on code that was scanned, in its two parts: what was found in the steps, and the
jumps to where none may land. -/
structure Report.Parts (code : List Instruction) (found jumps : List Diagnostic) : Prop where
  nonfatal : ∀ x ∈ found ++ jumps, x.isFatal = false
  placed : ∀ x ∈ found ++ jumps, ∃ i ∈ code, i.address = x.offset
  ordered : Diagnostic.InOrder found
  landed : ∀ source d, .jumpIntoInstruction source d ∉ found
  stray : ∀ x ∈ jumps, ∃ source d, x = .jumpIntoInstruction source d
  ascending : jumps.Pairwise fun x y => x.offset < y.offset
  unrejected : ∀ x ∈ jumps, ∀ y ∈ found, y.isRejection = true → x.offset ≠ y.offset

inductive Report.Shaped (d : Encoding.Decoder) (mode : Mode) (bytes : List UInt8) :
    Report → Prop where
  | unaligned (odd : bytes.length % Bundle.size ≠ 0) :
      Shaped d mode bytes ⟨[.unalignedSize bytes.length]⟩
  | undecodable (e : DecodeError) (whole : bytes.length % Bundle.size = 0)
      (fails : d.FailsFirst bytes e) : Shaped d mode bytes ⟨[.undecodable e.offset e]⟩
  | scanned (code : List Instruction) (found jumps : List Diagnostic)
      (whole : bytes.length % Bundle.size = 0)
      (decoded : Encoding.decodeWith d.read bytes = .ok code)
      (steps : found = (sandboxSteps mode code).flatMap (·.outcome.diagnostics))
      (landings : jumps = Scan.strayJumps (sandboxSteps mode code))
      (parts : Parts code found jumps) : Shaped d mode bytes ⟨found ++ jumps⟩

namespace Outcome
variable {o : Outcome} {x : Diagnostic}

/-- A step says nothing, one thing, or that a unit lies in two bundles and is rejected. -/
theorem diagnostics_cases (o : Outcome) :
    o.diagnostics = [] ∨ (∃ x, o.diagnostics = [x] ∧ x.offset = o.head.address) ∨
      ∃ x y, o.diagnostics = [x, y] ∧ x.offset = o.head.address ∧ y.offset = o.head.address ∧
        x.isCrossing = true ∧ y.isViolation = true := by
  have hcrossing (u : CodeUnit) : u.crossing = [] ∨ ∃ x, u.crossing = [x] ∧
      x.offset = u.head.address := by
    rcases u.crossing_cases with hnone | ⟨x, hx, _, hoffset⟩
    · exact Or.inl hnone
    · exact Or.inr ⟨x, hx, hoffset⟩
  cases o with
  | accepted u next => exact (hcrossing u).imp_right Or.inl
  | broken u assertion => exact (hcrossing u).imp_right Or.inl
  | unmet u cause =>
    right
    rw [diagnostics]
    rcases u.crossing_cases with hnone | ⟨x, hx, hcross, hoffset⟩
    · rw [hnone]
      exact Or.inl ⟨_, rfl, rfl⟩
    · rw [hx]
      exact Or.inr ⟨x, _, rfl, hoffset, rfl, hcross, rfl⟩
  | refused insn cause => exact Or.inr (Or.inl ⟨_, rfl, rfl⟩)
  | unrecognized insn => exact Or.inr (Or.inl ⟨_, rfl, rfl⟩)

theorem diagnostic_offset (h : x ∈ o.diagnostics) : x.offset = o.head.address := by
  rcases o.diagnostics_cases with hnone | ⟨y, hy, hoffset⟩ | ⟨y, z, hyz, hy, hz, _⟩
  · simp [hnone] at h
  · rw [hy, List.mem_singleton] at h
    rw [h, hoffset]
  · rw [hyz] at h
    simp only [List.mem_cons, List.not_mem_nil, or_false] at h
    rcases h with h | h
    · rw [h, hy]
    · rw [h, hz]

theorem diagnostic_nonfatal (h : x ∈ o.diagnostics) : x.isFatal = false := by
  have hkind := mem_diagnostics h
  cases x <;> simp_all [Diagnostic.isCrossing, Diagnostic.isRejection, Diagnostic.isFatal]

end Outcome

namespace Scan
variable {p : Policy} {r : Rules} {c : Condition} {code : List Instruction} {ss : List Step}
  {x : Diagnostic} {start stop : Nat}

/-- The steps of a scan through whole instructions begin one after the other. -/
theorem starts_ascending (h : Tiles start (ss.flatMap Step.members) stop) :
    ss.Pairwise fun s t => s.start < t.start := by
  induction ss generalizing start with
  | nil => exact .nil
  | cons s ss ih =>
    rw [List.flatMap_cons] at h
    obtain ⟨mid, _, hrest⟩ := h.split
    apply List.Pairwise.cons _ (ih hrest)
    intro t ht
    apply h.head_before
    apply List.mem_append_right
    exact List.mem_flatMap.mpr ⟨t, ht, List.mem_cons_self⟩

theorem start_injective {s t : Step} (h : ss.Pairwise fun s t => s.start < t.start) (hs : s ∈ ss)
    (ht : t ∈ ss) (he : s.start = t.start) : s = t := by
  have hnodup : (ss.map Step.start).Nodup := List.pairwise_map.mpr (h.imp Nat.ne_of_lt)
  exact List.inj_on_of_nodup_map hnodup hs ht he

theorem found_offset (h : x ∈ ss.flatMap (·.outcome.diagnostics)) :
    ∃ s ∈ ss, x ∈ s.outcome.diagnostics ∧ x.offset = s.start := by
  obtain ⟨s, hs, hx⟩ := List.mem_flatMap.mp h
  exact ⟨s, hs, hx, Outcome.diagnostic_offset hx⟩

theorem found_in_order (h : ss.Pairwise fun s t => s.start < t.start) :
    Diagnostic.InOrder (ss.flatMap (·.outcome.diagnostics)) := by
  induction ss with
  | nil =>
    intro front a between b back he
    simp at he
  | cons s ss ih =>
    obtain ⟨hfirst, hrest⟩ := List.pairwise_cons.mp h
    have hlater {between : List Diagnostic} {b : Diagnostic} {back : List Diagnostic}
        (he : ss.flatMap (·.outcome.diagnostics) = between ++ b :: back) : s.start < b.offset := by
      have hmem : b ∈ ss.flatMap (·.outcome.diagnostics) := by simp [he]
      obtain ⟨t, ht, _, hb⟩ := found_offset hmem
      rw [hb]
      exact hfirst t ht
    rw [List.flatMap_cons]
    rcases s.outcome.diagnostics_cases with hnone | ⟨x, hx, hoffset⟩ |
      ⟨x, y, hxy, hx, hy, hcross, hviolation⟩
    · rw [hnone]
      exact ih hrest
    · rw [hx]
      apply Diagnostic.in_order_cons (ih hrest)
      intro between b back he
      left
      rw [hoffset]
      exact hlater he
    · rw [hxy]
      apply Diagnostic.in_order_cons
      · apply Diagnostic.in_order_cons (ih hrest)
        intro between b back he
        left
        rw [hy]
        exact hlater he
      · intro between b back he
        cases between with
        | nil =>
          obtain ⟨rfl, _⟩ := List.cons.inj he
          exact Or.inr ⟨hx.trans hy.symm, rfl, hcross, hviolation⟩
        | cons z between =>
          left
          rw [hx]
          exact hlater (List.cons.inj he).2

theorem jumps_ascending : (jumps ss).Pairwise fun a b => a.1 < b.1 := by
  apply Std.TreeMap.ordered_keys_toList.imp
  intro a b hab
  exact Nat.compare_eq_lt.mp hab

theorem stray_jumps_ascending : (strayJumps ss).Pairwise fun x y => x.offset < y.offset := by
  apply List.Pairwise.filterMap _ _ jumps_ascending
  intro a b hab x hx y hy
  split at hx
  · cases hx
  · split at hy
    · cases hy
    · cases hx
      cases hy
      exact hab

/-- A jump that is reported comes from a unit that a step accepted. -/
theorem stray_jump_source (h : x ∈ strayJumps ss) :
    ∃ s ∈ ss, s.outcome.unit?.isSome = true ∧ x.offset = s.start := by
  obtain ⟨source, d, rfl, hmem⟩ := mem_stray_jumps h
  obtain ⟨j, hj, _⟩ := Option.map_eq_some_iff.mp (mem_jumps.mp hmem)
  have hsource : j.1 = source := by simpa using List.find?_some hj
  obtain ⟨s, hs, hjump⟩ :=
    List.mem_filterMap.mp (List.mem_reverse.mp (List.mem_of_find?_eq_some hj))
  refine ⟨s, hs, ?_⟩
  cases ho : s.outcome with
  | accepted u next =>
    rw [ho] at hjump
    obtain ⟨e, _, rfl⟩ := Option.map_eq_some_iff.mp hjump
    exact ⟨rfl, hsource.symm.trans (Step.start_eq ho).symm⟩
  | _ =>
    rw [ho] at hjump
    cases hjump

/-- The report on whole instructions, under any rules and any policy. -/
theorem Run.parts (h : Run p r c code ss) (unbroken : ∀ s ∈ ss, s.outcome.broken? = none)
    (tiles : Tiles start code stop) :
    Report.Parts code (ss.flatMap (·.outcome.diagnostics)) (strayJumps ss) := by
  obtain ⟨hcode, heach⟩ := h.account unbroken
  have hascending := starts_ascending (hcode.symm ▸ tiles)
  refine ⟨?_, ?_, found_in_order hascending, ?_, ?_, stray_jumps_ascending, ?_⟩
  · intro x hx
    rcases List.mem_append.mp hx with hx | hx
    · obtain ⟨s, _, hx, _⟩ := found_offset hx
      exact Outcome.diagnostic_nonfatal hx
    · obtain ⟨source, d, rfl, _⟩ := mem_stray_jumps hx
      rfl
  · intro x hx
    have hstart : ∃ s ∈ ss, x.offset = s.start := by
      rcases List.mem_append.mp hx with hx | hx
      · obtain ⟨s, hs, _, hoffset⟩ := found_offset hx
        exact ⟨s, hs, hoffset⟩
      · obtain ⟨s, hs, _, hoffset⟩ := stray_jump_source hx
        exact ⟨s, hs, hoffset⟩
    obtain ⟨s, hs, hoffset⟩ := hstart
    refine ⟨s.outcome.head, ?_, hoffset.symm⟩
    rw [← hcode]
    exact List.mem_flatMap.mpr ⟨s, hs, List.mem_cons_self⟩
  · intro source d hd
    obtain ⟨s, _, hd, _⟩ := found_offset hd
    exact Outcome.diagnostic_no_jump hd
  · intro x hx
    obtain ⟨source, d, hx, _⟩ := mem_stray_jumps hx
    exact ⟨source, d, hx⟩
  · intro x hx y hy hrejects he
    obtain ⟨s, hs, haccepted, hsource⟩ := stray_jump_source hx
    obtain ⟨t, ht, hy, hplace⟩ := found_offset hy
    -- Steps that begin at one place are one step, and this one both accepts and rejects.
    have hsame : s = t := by
      have hstart : s.start = t.start := by rw [← hsource, ← hplace, he]
      exact start_injective hascending hs ht hstart
    subst hsame
    cases heach s hs with
    | accepts u _ _ _ _ silent => simp [silent y hy] at hrejects
    | rejects _ _ unaccepted => simp [unaccepted] at haccepted

end Scan

/-- There is a report on every chunk of bytes, in each mode and whatever reads the instructions.
Either one diagnostic says that the chunk does not consist of whole bundles, or else where it could
first not be decoded; or nothing stopped the scan. Then what was found in the steps comes in the
order of the code, with no two diagnostics at one place except that a unit in two bundles is
rejected as well, and after that come the stray jumps by ascending source, none of which was
rejected. Every diagnostic lies in the chunk. -/
theorem report_shape (d : Encoding.Decoder) (mode : Mode) (bytes : List UInt8) :
    ∃ report, (Chunk.inspectWith d.read mode bytes).report = .ok report ∧
      Report.Shaped d mode bytes report ∧ ∀ x ∈ report.diagnostics, x.offset < bytes.length := by
  unfold Chunk.inspectWith
  by_cases hwhole : bytes.length % Bundle.size = 0
  · have hstarts := Bundle.starts_iff.mpr hwhole
    cases hdecoded : Encoding.decodeWith d.read bytes with
    | error e =>
      have hfails := Encoding.decode_fails_first hdecoded
      refine ⟨⟨[.undecodable e.offset e]⟩, ?_, .undecodable e hwhole hfails, ?_⟩
      · simp [Inspection.ofChunk, hstarts, Inspection.report]
      · intro x hx
        rw [List.mem_singleton.mp hx]
        exact hfails.inside
    | ok code =>
      have htiles := (Encoding.decode_reads hdecoded).tiles
      have hunbroken := sandbox_unbroken mode code
      have hparts := (Scan.run_steps mode.policy (.sandbox mode) .default code).parts
        hunbroken htiles
      refine ⟨_, (report_eq_iff hstarts).mpr ⟨?_, rfl⟩,
        .scanned code _ _ hwhole hdecoded rfl rfl hparts, ?_⟩
      · exact List.findSome?_eq_none_iff.mpr hunbroken
      · intro x hx
        obtain ⟨i, hi, hoffset⟩ := hparts.placed x hx
        have hrange := htiles.mem_range hi
        omega
  · have hstarts : Bundle.starts bytes.length = false := Bundle.starts_eq_false.mpr hwhole
    refine ⟨⟨[.unalignedSize bytes.length]⟩, ?_, .unaligned hwhole, ?_⟩
    · simp [Inspection.ofChunk, hstarts, Inspection.report]
    · intro x hx
      rw [List.mem_singleton.mp hx]
      -- An empty chunk consists of whole bundles.
      apply Nat.pos_of_ne_zero
      intro hempty
      simp [hempty] at hwhole

namespace Sample

/-- A jump into a store, a system call, and the store, which lies in two bundles and whose index
nothing has bounded. -/
def strayBytes : List UInt8 :=
  [0xeb, 0x1d, 0x0f, 0x05] ++ List.replicate 26 0x90 ++
    [0x41, 0x89, 0x0c, 0x07] ++ List.replicate 30 0x90

def strayReport : Report where
  diagnostics := [.unrecognized 2 "syscall", .instructionCrossesBundle 30,
    .violation 30 (.unmet .default (.zeroExtended .rax)), .jumpIntoInstruction 0 31]

end Sample

theorem report_shape_stray :
    Chunk.validate .bits64 Sample.strayBytes = .ok Sample.strayReport ∧
      Report.Shaped (.ofMode .bits64) .bits64 Sample.strayBytes Sample.strayReport := by
  obtain ⟨report, hreport, hshaped, _⟩ :=
    report_shape (.ofMode .bits64) .bits64 Sample.strayBytes
  have hvalidate : Chunk.validate .bits64 Sample.strayBytes = .ok report := hreport
  have hfound : (Chunk.validate .bits64 Sample.strayBytes).toOption = some Sample.strayReport := by
    decide +kernel
  rw [hvalidate] at hfound
  obtain rfl := Option.some.inj hfound
  exact ⟨hvalidate, hshaped⟩

end FaultIsolation
