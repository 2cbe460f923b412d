import FaultIsolation.Encoding.Decode
import FaultIsolation.Proofs.Layout
import Mathlib.Data.List.Basic

namespace FaultIsolation.Encoding

namespace Read
variable {α β : Type} {bytes : List UInt8} {n : Nat}

theorem run_le {r : Read α} {a : α} (h : r.run bytes = .ok (a, n)) : n ≤ bytes.length := by
  induction r generalizing bytes n with
  | done value =>
    cases h
    exact Nat.zero_le _
  | fail fault => cases h
  | next more ih =>
    cases bytes with
    | nil => cases h
    | cons b bytes =>
      rw [run] at h
      split at h
      · rename_i hr
        cases h
        exact Nat.succ_le_succ (ih b hr)
      · cases h

theorem run_next_pos {more : UInt8 → Read α} {a : α} (h : (next more).run bytes = .ok (a, n)) :
    0 < n := by
  cases bytes with
  | nil => cases h
  | cons b bytes =>
    rw [run] at h
    split at h
    · cases h
      exact Nat.succ_pos _
    · cases h

end Read

/-- A way to read the instruction at the front of a list of bytes. It takes at least one byte, and
none that is not there. -/
structure Decoder where
  read : List UInt8 → Except Fault Instruction
  advances : ∀ bytes i, read bytes = .ok i → 0 < i.length ∧ i.length ≤ bytes.length

/-- An instruction consists of its prefix bytes and of what its body took. -/
theorem decode_one_run {mode : Mode} {bytes : List UInt8} {i : Instruction}
    (h : decodeOne mode bytes = .ok i) :
    ∃ e n, (body mode (Legacy.ofBytes (bytes.takeWhile Legacy.isPrefixByte))).run
        (bytes.dropWhile Legacy.isPrefixByte) = .ok (e, n) ∧
      0 < n ∧ i.length = (bytes.takeWhile Legacy.isPrefixByte).length + n := by
  unfold decodeOne at h
  cases hr : (body mode (Legacy.ofBytes (bytes.takeWhile Legacy.isPrefixByte))).run
      (bytes.dropWhile Legacy.isPrefixByte) with
  | error fault => simp [hr, bind, Except.bind] at h
  | ok result =>
    obtain ⟨e, n⟩ := result
    -- The body begins with a byte of its own.
    have hpos : 0 < n := Read.run_next_pos hr
    simp only [hr, bind, Except.bind] at h
    split at h
    · cases h
    · cases h
      exact ⟨e, n, rfl, hpos, rfl⟩

theorem decode_one_advances {mode : Mode} {bytes : List UInt8} {i : Instruction}
    (h : decodeOne mode bytes = .ok i) : 0 < i.length ∧ i.length ≤ bytes.length := by
  obtain ⟨e, n, hr, hpos, hlength⟩ := decode_one_run h
  have hle := Read.run_le hr
  have hsplit := congrArg List.length
    (List.takeWhile_append_dropWhile (p := Legacy.isPrefixByte) (l := bytes))
  rw [List.length_append] at hsplit
  omega

def Decoder.ofMode (mode : Mode) : Decoder where
  read := decodeOne mode
  advances _ _ h := decode_one_advances h

inductive Decoder.Reads (d : Decoder) (bytes : List UInt8) :
    Nat → List Instruction → Nat → Prop where
  | nil (place : Nat) : Reads d bytes place [] place
  | cons (place stop : Nat) (i : Instruction) (code : List Instruction)
      (first : d.read (bytes.drop place) = .ok i)
      (more : Reads d bytes (place + i.length) code stop) :
      Reads d bytes place ({ i with address := place } :: code) stop

structure Decoder.FailsFirst (d : Decoder) (bytes : List UInt8) (e : DecodeError) : Prop where
  inside : e.offset < bytes.length
  before : ∃ code, d.Reads bytes 0 code e.offset
  fails : d.read (bytes.drop e.offset) = .error e.fault

section
variable {d : Decoder} {bytes : List UInt8} {place stop : Nat} {code : List Instruction}
  {i : Instruction}

theorem Decoder.Reads.tiles (h : d.Reads bytes place code stop) : Tiles place code stop := by
  induction h with
  | nil place => rfl
  | cons place stop i code first more ih => exact ⟨rfl, (d.advances _ i first).1, ih⟩

theorem decode_after_skip (one : List UInt8 → Except Fault Instruction) {skip : Nat}
    (address : Nat) (h : skip ≤ bytes.length) :
    decodeAfter one skip address bytes =
      decodeAfter one 0 (address + skip) (bytes.drop skip) := by
  induction bytes generalizing skip address with
  | nil =>
    cases skip with
    | zero => rfl
    | succ skip => simp at h
  | cons b bytes ih =>
    cases skip with
    | zero => rfl
    | succ skip =>
      rw [decodeAfter, ih (address + 1) (by simpa using h), List.drop_succ_cons]
      congr 1
      omega

/-- Decoding goes on where the instruction ends. -/
theorem decode_after_ok (h : d.read (bytes.drop place) = .ok i) (hp : place < bytes.length) :
    decodeAfter d.read 0 place (bytes.drop place) =
      (decodeAfter d.read 0 (place + i.length) (bytes.drop (place + i.length))).map
        ({ i with address := place } :: ·) := by
  obtain ⟨hpos, hle⟩ := d.advances _ i h
  rw [List.length_drop] at hle
  have hskip : i.length - 1 ≤ (bytes.drop (place + 1)).length := by
    rw [List.length_drop]
    omega
  have hstop : place + 1 + (i.length - 1) = place + i.length := by omega
  rw [List.drop_eq_getElem_cons hp] at h ⊢
  rw [decodeAfter, h]
  simp only
  rw [decode_after_skip d.read (place + 1) hskip, List.drop_drop, hstop]

theorem decode_after_error {fault : Fault} (h : d.read (bytes.drop place) = .error fault)
    (hp : place < bytes.length) :
    decodeAfter d.read 0 place (bytes.drop place) = .error ⟨place, fault⟩ := by
  rw [List.drop_eq_getElem_cons hp] at h ⊢
  rw [decodeAfter, h]

/-- Decoding from a place on reads instructions to the end of the bytes, or to where it fails. -/
theorem decode_after_reads (hp : place ≤ bytes.length) :
    (∀ code, decodeAfter d.read 0 place (bytes.drop place) = .ok code →
      d.Reads bytes place code bytes.length) ∧
    ∀ e, decodeAfter d.read 0 place (bytes.drop place) = .error e →
      e.offset < bytes.length ∧ (∃ code, d.Reads bytes place code e.offset) ∧
        d.read (bytes.drop e.offset) = .error e.fault := by
  -- Each instruction takes a byte at least, so fewer bytes are left.
  induction hn : bytes.length - place using Nat.strongRecOn generalizing place with
  | ind n ih =>
    by_cases hend : place = bytes.length
    · subst place
      rw [List.drop_length]
      constructor
      · intro code h
        cases h
        exact .nil _
      · intro e h
        cases h
    · have hlt : place < bytes.length := by omega
      cases hr : d.read (bytes.drop place) with
      | error fault =>
        rw [decode_after_error hr hlt]
        constructor
        · intro code h
          cases h
        · intro e h
          cases h
          exact ⟨hlt, ⟨[], .nil place⟩, hr⟩
      | ok i =>
        obtain ⟨hpos, hle⟩ := d.advances _ i hr
        rw [List.length_drop] at hle
        have hnext : place + i.length ≤ bytes.length := by omega
        obtain ⟨hok, herror⟩ := ih _ (by omega) hnext rfl
        rw [decode_after_ok hr hlt]
        cases hrest : decodeAfter d.read 0 (place + i.length) (bytes.drop (place + i.length)) with
        | ok later =>
          constructor
          · intro code h
            cases h
            exact .cons place _ i later hr (hok later hrest)
          · intro e h
            cases h
        | error e =>
          constructor
          · intro code h
            cases h
          · intro e' h
            cases h
            obtain ⟨hinside, ⟨later, hlater⟩, hfails⟩ := herror e hrest
            exact ⟨hinside, ⟨_, .cons place _ i later hr hlater⟩, hfails⟩

/-- Code that is decoded was read up to the last byte. -/
theorem decode_reads (h : decodeWith d.read bytes = .ok code) :
    d.Reads bytes 0 code bytes.length :=
  (decode_after_reads (Nat.zero_le _)).1 code h

theorem decode_fails_first {e : DecodeError} (h : decodeWith d.read bytes = .error e) :
    d.FailsFirst bytes e := by
  obtain ⟨hinside, hbefore, hfails⟩ := (decode_after_reads (Nat.zero_le _)).2 e h
  exact ⟨hinside, hbefore, hfails⟩

end

end FaultIsolation.Encoding
