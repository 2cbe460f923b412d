import FaultIsolation.Proofs.Carrying
import FaultIsolation.Proofs.Decoding
import FaultIsolation.Proofs.Relocation

namespace FaultIsolation

def DecodeError.shift (k : Nat) (e : DecodeError) : DecodeError :=
  { e with offset := e.offset + k }

/-- Each instruction takes a byte at least. -/
theorem Tiles.length_le {start stop : Nat} {code : List Instruction} (h : Tiles start code stop) :
    start + code.length ≤ stop := by
  induction code generalizing start with
  | nil => exact Nat.le_of_eq h
  | cons i rest ih =>
    obtain ⟨rfl, hpos, ht⟩ := h
    have hrest := ih ht
    simp only [Instruction.stop, List.length_cons] at hrest ⊢
    omega

namespace Encoding

/-- What is read is settled by the bytes that it takes, whatever comes after them. -/
def SelfDelimiting (one : List UInt8 → Except Fault Instruction) : Prop :=
  ∀ bytes i, one bytes = .ok i →
    i.length ≤ bytes.length ∧ ∀ more, one (bytes.take i.length ++ more) = .ok i

/-- Bytes that begin with those of an instruction hold it at their front. -/
theorem SelfDelimiting.congr {one : List UInt8 → Except Fault Instruction}
    {bytes other : List UInt8} {i : Instruction} (delimits : SelfDelimiting one)
    (h : one bytes = .ok i) (hsame : other.take i.length = bytes.take i.length) :
    one other = .ok i := by
  have hagain := (delimits bytes i h).2 (other.drop i.length)
  rw [← hsame, List.take_append_drop] at hagain
  exact hagain

section
variable {α : Type} {bytes : List UInt8} {n : Nat}

theorem Read.run_take {r : Read α} {a : α} (h : r.run bytes = .ok (a, n)) (more : List UInt8) :
    r.run (bytes.take n ++ more) = .ok (a, n) := by
  induction r generalizing bytes n with
  | done value =>
    cases h
    rfl
  | fail fault => cases h
  | next onward ih =>
    cases bytes with
    | nil => cases h
    | cons b bytes =>
      rw [run] at h
      split at h
      · rename_i hr
        cases h
        rw [List.take_succ_cons, List.cons_append, run, ih b hr]
      · cases h

/-- Where some bytes after the first that fails the test are kept, the bytes before it are found
again. -/
theorem while_take {test : UInt8 → Bool} (hpos : 0 < n) (hle : n ≤ (bytes.dropWhile test).length)
    (more : List UInt8) :
    (bytes.take ((bytes.takeWhile test).length + n) ++ more).takeWhile test =
        bytes.takeWhile test ∧
      (bytes.take ((bytes.takeWhile test).length + n) ++ more).dropWhile test =
        (bytes.dropWhile test).take n ++ more := by
  induction bytes with
  | nil =>
    simp only [List.dropWhile_nil, List.length_nil] at hle
    omega
  | cons b bytes ih =>
    cases hb : test b with
    | true =>
      simp only [List.dropWhile_cons, hb, if_true] at hle
      have hfound := ih hle
      simp only [List.takeWhile_cons, List.dropWhile_cons, hb, if_true, List.length_cons,
        Nat.succ_add, List.take_succ_cons, List.cons_append]
      exact ⟨congrArg (b :: ·) hfound.1, hfound.2⟩
    | false =>
      obtain ⟨k, rfl⟩ := Nat.exists_eq_add_of_lt hpos
      simp [hb]

/-- The decoder of each mode looks at no byte beyond the instruction. -/
theorem decode_one_self_delimiting (mode : Mode) : SelfDelimiting (decodeOne mode) := by
  intro bytes i h
  refine ⟨(decode_one_advances h).2, ?_⟩
  intro more
  obtain ⟨e, n, hr, hpos, hlength⟩ := decode_one_run h
  obtain ⟨hfront, hback⟩ := while_take hpos (Read.run_le hr) more
  have hagain := Read.run_take hr more
  unfold decodeOne at h ⊢
  rw [hlength, hfront, hback]
  dsimp only at h ⊢
  rw [hagain]
  rw [hr] at h
  exact h

end

section
variable {one : List UInt8 → Except Fault Instruction} {front back : List UInt8}
  {code : List Instruction}

/-- Bytes that decode on their own decode to the same in front of others. -/
theorem decode_after_append (delimits : SelfDelimiting one) {skip address : Nat}
    (hskip : skip ≤ front.length) (h : decodeAfter one skip address front = .ok code) :
    decodeAfter one skip address (front ++ back) =
      (decodeAfter one 0 (address + front.length) back).map (code ++ ·) := by
  -- Byte by byte: no instruction reaches beyond `front`, so all bytes to be skipped lie in it.
  induction front generalizing skip address code with
  | nil =>
    cases Nat.le_zero.mp hskip
    cases h
    rw [List.nil_append, List.length_nil, Nat.add_zero]
    cases decodeAfter one 0 address back <;> rfl
  | cons b front ih =>
    rw [List.length_cons] at hskip ⊢
    have hplace : address + 1 + front.length = address + (front.length + 1) := by omega
    cases skip with
    | succ skip =>
      rw [decodeAfter] at h
      rw [List.cons_append, decodeAfter, ih (by omega) h, hplace]
    | zero =>
      rw [decodeAfter] at h
      cases hr : one (b :: front) with
      | error fault => simp [hr] at h
      | ok i =>
        have hle := (delimits _ i hr).1
        -- The instruction is the same whether `back` follows or not.
        have hone : one (b :: (front ++ back)) = .ok i := by
          apply delimits.congr hr
          rw [← List.cons_append, List.take_append_of_le_length hle]
        rw [List.length_cons] at hle
        simp only [hr] at h
        cases hlater : decodeAfter one (i.length - 1) (address + 1) front with
        | error e => simp [hlater, Except.map] at h
        | ok later =>
          rw [hlater] at h
          cases h
          rw [List.cons_append, decodeAfter, hone]
          simp only
          rw [ih (by omega) hlater, hplace]
          cases decodeAfter one 0 (address + (front.length + 1)) back <;> rfl

/-- Decoding takes addresses and the place of an error from where it begins. -/
theorem decode_after_shift (one : List UInt8 → Except Fault Instruction) (k skip address : Nat)
    (bytes : List UInt8) :
    decodeAfter one skip (address + k) bytes =
      ((decodeAfter one skip address bytes).map (·.map (·.shift k))).mapError (·.shift k) := by
  induction bytes generalizing skip address with
  | nil => cases skip <;> rfl
  | cons b bytes ih =>
    have hnext : address + k + 1 = address + 1 + k := by omega
    cases skip with
    | succ skip => rw [decodeAfter, decodeAfter, hnext, ih]
    | zero =>
      rw [decodeAfter, decodeAfter, hnext]
      cases one (b :: bytes) with
      | error fault => rfl
      | ok i =>
        simp only
        rw [ih]
        cases decodeAfter one (i.length - 1) (address + 1) bytes <;> rfl

end

section
variable {d : Decoder} {bytes : List UInt8} {place stop : Nat} {code : List Instruction}

/-- What was read up to a place is read as well if the bytes end there. -/
theorem Decoder.Reads.within (delimits : SelfDelimiting d.read)
    (h : d.Reads bytes place code stop) : d.Reads (bytes.take stop) place code stop := by
  induction h with
  | nil place => exact .nil place
  | cons place stop i code first more ih =>
    have hstop := more.tiles.le
    refine .cons place stop i code ?_ ih
    apply delimits.congr first
    rw [List.drop_take, List.take_take, Nat.min_eq_left (by omega)]

/-- What can be read to the end of the bytes is what decoding finds. -/
theorem Decoder.Reads.decode_after (h : d.Reads bytes place code stop)
    (hstop : stop = bytes.length) :
    decodeAfter d.read 0 place (bytes.drop place) = .ok code := by
  induction h with
  | nil place =>
    rw [hstop, List.drop_length]
    rfl
  | cons place stop i code first more ih =>
    obtain ⟨hpos, hle⟩ := d.advances _ i first
    rw [List.length_drop] at hle
    rw [decode_after_ok first (by omega), ih hstop]
    rfl

theorem decode_iff_reads : decodeWith d.read bytes = .ok code ↔ d.Reads bytes 0 code bytes.length :=
  ⟨decode_reads, fun h => h.decode_after rfl⟩

end

/-- Decoding comes to an end on every list of bytes, whatever reads the instructions, as long as
they delimit themselves. Either they were read one after the other up to the last byte, and then
they fill the bytes, and there are none only if there are no bytes. Or they were read up to a place
inside where no instruction can be read, and then the bytes before it decode to the instructions
that fill them. There is a byte at least for each instruction. -/
theorem decoding_tiles (d : Decoder) (delimits : SelfDelimiting d.read) (bytes : List UInt8) :
    (∃ code, decodeWith d.read bytes = .ok code ∧ d.Reads bytes 0 code bytes.length ∧
      Tiles 0 code bytes.length ∧ code.length ≤ bytes.length ∧ (code = [] ↔ bytes = [])) ∨
    ∃ e before, decodeWith d.read bytes = .error e ∧ e.offset < bytes.length ∧
      d.Reads bytes 0 before e.offset ∧ d.read (bytes.drop e.offset) = .error e.fault ∧
      decodeWith d.read (bytes.take e.offset) = .ok before ∧ Tiles 0 before e.offset ∧
      before.length ≤ e.offset := by
  cases hdecoded : decodeWith d.read bytes with
  | ok code =>
    have hreads := decode_reads hdecoded
    have htiles := hreads.tiles
    have hlength := htiles.length_le
    refine Or.inl ⟨code, rfl, hreads, htiles, by omega, ?_, ?_⟩
    · rintro rfl
      exact List.eq_nil_of_length_eq_zero htiles.symm
    · rintro rfl
      exact htiles.eq_nil
  | error e =>
    obtain ⟨hinside, ⟨before, hreads⟩, hfails⟩ := decode_fails_first hdecoded
    have hlength := hreads.tiles.length_le
    refine Or.inr ⟨e, before, rfl, hinside, hreads, hfails, ?_, hreads.tiles, by omega⟩
    have hwithin := hreads.within delimits
    have hstop : (bytes.take e.offset).length = e.offset := by
      rw [List.length_take]
      omega
    rw [decode_iff_reads, hstop]
    exact hwithin

end Encoding

namespace Sample

def storeBytes : List UInt8 :=
  [0x89, 0xc8, 0x41, 0x89, 0x0c, 0x07]

def cutCall : List UInt8 :=
  [0xe8, 0x00]

end Sample

namespace Encoding

theorem decoding_tiles_cut_call :
    SelfDelimiting (Decoder.ofMode .bits64).read ∧
      decode .bits64 (Sample.storeBytes ++ Sample.cutCall) = .error ⟨6, .exhausted⟩ ∧
      decode .bits64 Sample.storeBytes = .ok [Sample.extend, Sample.store] ∧
      Tiles 0 [Sample.extend, Sample.store] 6 := by
  have delimits : SelfDelimiting (Decoder.ofMode .bits64).read := decode_one_self_delimiting .bits64
  have hfails : decodeWith (Decoder.ofMode .bits64).read (Sample.storeBytes ++ Sample.cutCall) =
      .error ⟨6, .exhausted⟩ := rfl
  have hbefore : decodeWith (Decoder.ofMode .bits64).read Sample.storeBytes =
      .ok [Sample.extend, Sample.store] := rfl
  rcases decoding_tiles (.ofMode .bits64) delimits (Sample.storeBytes ++ Sample.cutCall) with
    ⟨code, hok, _⟩ | ⟨e, before, herror, _, _, _, hfront, htiles, _⟩
  · rw [hfails] at hok
    cases hok
  · rw [hfails] at herror
    cases herror
    have hsame : .ok before = Except.ok [Sample.extend, Sample.store] := hfront.symm.trans hbefore
    cases hsame
    exact ⟨delimits, hfails, hbefore, htiles⟩

/-- Where instructions delimit themselves, bytes that decode on their own can be decoded apart from
those that follow: together the two parts decode to the instructions of both, those of the second
part moved by the length of the first, and an error in the second part is found at its place there
moved by as much. -/
theorem decoding_composes {one : List UInt8 → Except Fault Instruction}
    (delimits : SelfDelimiting one) {front back : List UInt8} {code : List Instruction}
    (decodes : decodeWith one front = .ok code) :
    (∀ later, decodeWith one back = .ok later →
      decodeWith one (front ++ back) = .ok (code ++ later.map (·.shift front.length))) ∧
    ∀ e, decodeWith one back = .error e →
      decodeWith one (front ++ back) = .error (e.shift front.length) := by
  have happend : decodeWith one (front ++ back) =
      (decodeAfter one 0 (0 + front.length) back).map (code ++ ·) :=
    decode_after_append delimits (Nat.zero_le _) decodes
  rw [happend, decode_after_shift]
  constructor
  · intro later hlater
    rw [← decodeWith, hlater]
    rfl
  · intro e he
    rw [← decodeWith, he]
    rfl

theorem decoding_composes_cut_call :
    decode .bits64 Sample.storeBytes = .ok [Sample.extend, Sample.store] ∧
      decode .bits64 (Sample.storeBytes ++ Sample.storeBytes) =
        .ok [Sample.extend, Sample.store, Sample.extend.shift 6, Sample.store.shift 6] ∧
      decode .bits64 (Sample.storeBytes ++ Sample.cutCall) = .error ⟨6, .exhausted⟩ := by
  have delimits := decode_one_self_delimiting .bits64
  have hfront : decode .bits64 Sample.storeBytes = .ok [Sample.extend, Sample.store] := rfl
  have hcut : decode .bits64 Sample.cutCall = .error ⟨0, .exhausted⟩ := rfl
  exact ⟨hfront, (decoding_composes delimits hfront).1 _ hfront,
    (decoding_composes delimits hfront).2 _ hcut⟩

end Encoding

end FaultIsolation
