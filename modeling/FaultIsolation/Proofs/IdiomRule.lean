import FaultIsolation.Rule.Idiom
import FaultIsolation.Proofs.Operands
import Mathlib.Data.Option.Basic

namespace FaultIsolation.Rule

def Rounds (i : Instruction) (f : Family) : Prop :=
  ∃ mask : Int, mask % 0x100000000 = 0xffffffe0 ∧
    i.Spells "and" [.register (.dword f), .immediate mask]

def GoesThrough (i : Instruction) (r : Register) : Prop :=
  i.isBranch = true ∧ i.operands = [.register r]

/-- The instructions move each of the pointers in turn to where the base register points. -/
inductive Rebasing : List Instruction → List Family → Prop where
  | nil : Rebasing [] []
  | cons (f : Family) (move load : Instruction) (code : List Instruction) (fs : List Family)
      (truncates : move.Spells "mov" [.register (.dword f), .register (.dword f)])
      (adds : load.Spells "lea" [.register (.qword f),
        .memory { base := some (.qword .r15), index := some (.qword f) }])
      (rest : Rebasing code fs) : Rebasing (move :: load :: code) (f :: fs)

def stringPointers : String → List Family
  | "lods" => [.rsi]
  | "stos" | "scas" => [.rdi]
  | "movs" | "cmps" => [.rsi, .rdi]
  | _ => []

/-- The instructions that make the one after them safe. -/
inductive Guarded : Mode → List Instruction → Instruction → Prop where
  | masked (f : Family) (mask jump : Instruction) (rounds : Rounds mask f)
      (goes : GoesThrough jump (.dword f)) (free : f ≠ .rsp) : Guarded .bits32 [mask] jump
  | rebased (f : Family) (mask rebase jump : Instruction) (rounds : Rounds mask f)
      (adds : rebase.Rebases f)
      (goes : GoesThrough jump (.qword f)) (free : f.pointsIntoSandbox = false) :
      Guarded .bits64 [mask, rebase] jump
  /-- The pointers of a string operation, in any order. -/
  | string (front : List Instruction) (op : Instruction) (fs : List Family)
      (rebasing : Rebasing front fs) (uses : fs.Perm (stringPointers op.mnemonic))
      (used : fs ≠ []) : Guarded .bits64 front op

variable {i move load : Instruction} {r : Register} {f : Family} {mode : Mode}

theorem rounded_some (h : rounded? i = some r) :
    ∃ mask : Int, mask % 0x100000000 = 0xffffffe0 ∧
      i.Spells "and" [.register r, .immediate mask] := by
  unfold rounded? at h
  obtain ⟨_, hform, h⟩ := Option.bind_eq_some_iff.mp h
  obtain ⟨mask, hi, h⟩ := Option.bind_eq_some_iff.mp h
  obtain ⟨_, hmask, hr⟩ := Option.bind_eq_some_iff.mp h
  have hform := (Option.guard_eq_some' _).mp hform
  have hmask := (Option.guard_eq_some' _).mp hmask
  simp only [Bool.and_eq_true, beq_iff_eq] at hform
  obtain ⟨⟨hm, hl⟩, _⟩ := hform
  rw [Instruction.immediate_iff] at hi
  rw [Instruction.register_iff] at hr
  exact ⟨mask, by simpa [Bundle.size] using hmask, hm, Instruction.operands_pair hl hr hi⟩

theorem rounds_of_rounded (h : rounded? i = some r) (hd : r.isDword = true) :
    Rounds i r.family := by
  obtain ⟨mask, hmask, hs⟩ := rounded_some h
  rw [Register.eq_dword hd] at hs
  exact ⟨mask, hmask, hs⟩

theorem branch_register_iff : i.branchRegister? = some r ↔ GoesThrough i r := by
  constructor
  · intro h
    unfold Instruction.branchRegister? at h
    split at h
    · rename_i ho
      split at h
      · rename_i hb
        cases h
        exact ⟨hb, ho⟩
      · cases h
    · cases h
  · rintro ⟨hb, ho⟩
    simp [Instruction.branchRegister?, hb, ho]

theorem goes_through (h : branchesThrough i r = true) : GoesThrough i r := by
  simp only [branchesThrough, Bool.and_eq_true, beq_iff_eq] at h
  exact branch_register_iff.mp h.1

theorem rebased_some (h : rebased? move load = some f) :
    Rebasing [move, load] [f] ∧ (f = .rsi ∨ f = .rdi) := by
  have hf : f ∈ [Family.rsi, Family.rdi] := List.mem_of_find?_eq_some h
  have hr := List.find?_some h
  simp only [rebases, Bool.and_eq_true, Instruction.is_pair_iff, beq_iff_eq] at hr
  obtain ⟨⟨hmove, hlea⟩, hops⟩ := hr
  exact ⟨.cons f move load [] [] hmove ⟨hlea, hops⟩ .nil, by simpa using hf⟩

theorem string_op_mnemonic {ms : List String} (h : isStringOp i ms = true) : i.mnemonic ∈ ms := by
  simp only [isStringOp, Bool.and_eq_true, List.contains_iff_mem] at h
  exact h.1.1.1

theorem masked_jump_shape {mask jump : Instruction} (h : maskedJump mask jump ≠ .noMatch) :
    Guarded .bits32 [mask] jump := by
  unfold maskedJump at h
  split at h
  · exact absurd rfl h
  · rename_i r hr
    split at h
    · rename_i hc
      simp only [Bool.and_eq_true, bne_iff_ne] at hc
      obtain ⟨⟨hd, hf⟩, hb⟩ := hc
      rw [Register.eq_dword hd] at hb
      exact .masked r.family mask jump (rounds_of_rounded hr hd) (goes_through hb) hf
    · exact absurd rfl h

theorem rebased_jump_shape {mask rebase jump : Instruction}
    (h : rebasedJump mask rebase jump ≠ .noMatch) : Guarded .bits64 [mask, rebase] jump := by
  unfold rebasedJump at h
  split at h
  · exact absurd rfl h
  · rename_i r hr
    dsimp only at h
    split at h
    · rename_i hc
      simp only [Bool.and_eq_true, Bool.not_eq_true', Instruction.is_pair_iff] at hc
      obtain ⟨⟨⟨hd, hf⟩, ha⟩, hb⟩ := hc
      exact .rebased r.family mask rebase jump (rounds_of_rounded hr hd) ha (goes_through hb) hf
    · exact absurd rfl h

theorem one_string_shape {op : Instruction} (h : oneString move load op ≠ .noMatch) :
    Guarded .bits64 [move, load] op := by
  unfold oneString at h
  split at h
  · exact absurd rfl h
  · rename_i f hf
    split at h
    · rename_i hs
      obtain ⟨hr, hf⟩ := rebased_some hf
      refine .string [move, load] op [f] hr ?_ (by simp)
      have hm := string_op_mnemonic hs
      rcases hf with rfl | rfl
      · simp only [onePointer, List.mem_cons, List.not_mem_nil, or_false] at hm
        simp [hm, stringPointers]
      · simp only [onePointer, List.mem_cons, List.not_mem_nil, or_false] at hm
        rcases hm with hm | hm <;> simp [hm, stringPointers]
    · exact absurd rfl h

theorem two_strings_shape {move' load' op : Instruction}
    (h : twoStrings move load move' load' op ≠ .noMatch) :
    Guarded .bits64 [move, load, move', load'] op := by
  unfold twoStrings at h
  split at h
  · rename_i f g hf hg
    split at h
    · rename_i hs
      simp only [Bool.and_eq_true, bne_iff_ne] at hs
      obtain ⟨hne, hs⟩ := hs
      obtain ⟨hr, hf⟩ := rebased_some hf
      obtain ⟨hr', hg⟩ := rebased_some hg
      have hpair : Rebasing [move, load, move', load'] [f, g] := by
        cases hr with
        | cons _ _ _ _ _ hmove hload _ => exact .cons f move load _ _ hmove hload hr'
      refine .string _ op [f, g] hpair ?_ (by simp)
      have hm := string_op_mnemonic hs
      have hp : stringPointers op.mnemonic = [.rsi, .rdi] := by
        simp only [List.mem_cons, List.not_mem_nil, or_false] at hm
        rcases hm with hm | hm <;> simp [hm, stringPointers]
      rw [hp]
      rcases hf with rfl | rfl <;> rcases hg with rfl | rfl
      · exact absurd rfl hne
      · exact .refl _
      · exact .swap _ _ _
      · exact absurd rfl hne
    · exact absurd rfl h
  · exact absurd rfl h

/-- Whatever the idiom rules do not pass over ends with an instruction that the others guard. -/
theorem idiom_shape {code : List Instruction} (h : idiom mode code ≠ .noMatch) :
    ∃ front last, code = front ++ [last] ∧ Guarded mode front last := by
  unfold idiom at h
  split at h
  · rename_i mask jump
    exact ⟨[mask], jump, rfl, masked_jump_shape h⟩
  · rename_i i j k
    refine ⟨[i, j], k, rfl, ?_⟩
    -- Three instructions can be either idiom; the string operation is tried second.
    by_cases hj : rebasedJump i j k = .noMatch
    · rw [hj] at h
      exact one_string_shape h
    · exact rebased_jump_shape hj
  · rename_i move load move' load' op
    exact ⟨[move, load, move', load'], op, rfl, two_strings_shape h⟩
  · exact absurd rfl h

theorem string_pointer {m : String} (h : f ∈ stringPointers m) : f = .rsi ∨ f = .rdi := by
  unfold stringPointers at h
  split at h <;> simp_all

theorem string_pointers_ne {fs : List Family} {m : String} (uses : fs.Perm (stringPointers m))
    (used : fs ≠ []) : stringPointers m ≠ [] := by
  intro he
  rw [he] at uses
  exact used uses.eq_nil

/-- The table lists the string operations as writing nothing and going on. -/
theorem string_opcode {m : String} (h : stringPointers m ≠ []) :
    ∃ op, Opcode.find? m = some op ∧ op.writes = .nothing ∧ op.isBranch = false := by
  have ht : (Opcode.find? m).any (fun op => op.writes == .nothing && !op.isBranch) = true := by
    unfold stringPointers at h
    split at h
    case h_6 => exact absurd rfl h
    all_goals decide +kernel
  obtain ⟨op, ho, hw⟩ := (Option.any_eq_true _ _).mp ht
  exact ⟨op, ho, by simpa using hw⟩

/-- No instruction is both a branch and a string operation. -/
theorem branch_uses_no_string (h : i.isBranch = true) : stringPointers i.mnemonic = [] := by
  by_contra hne
  obtain ⟨op, ho, _, hb⟩ := string_opcode hne
  have ho : i.opcode? = some op := ho
  simp [Instruction.isBranch, ho, hb] at h

/-- An ordinary instruction that writes just the register. -/
structure Prepares (i : Instruction) (r : Register) : Prop where
  opcode : ∃ op, i.opcode? = some op ∧ op.isAllowed = true ∧ op.isBranch = false ∧
    op.writes = .first
  writes : i.destinations = [r]

theorem Prepares.of_spells {m : String} {ops : List Operand} (op : Opcode)
    (h : i.Spells m (.register r :: ops)) (ho : Opcode.find? m = some op)
    (ha : op.isAllowed = true) (hb : op.isBranch = false) (hw : op.writes = .first) :
    Prepares i r :=
  ⟨⟨op, h.opcode.trans ho, ha, hb, hw⟩, h.destinations ho hw⟩

theorem Rounds.prepares (h : Rounds i f) : Prepares i (.dword f) := by
  obtain ⟨mask, _, hs⟩ := h
  exact .of_spells { mnemonic := "and" } hs (by decide +kernel) rfl rfl rfl

theorem Rebasing.prepares {code : List Instruction} {fs : List Family} (h : Rebasing code fs)
    (hi : i ∈ code) : ∃ r, Prepares i r ∧ r.family ∈ fs := by
  induction h with
  | nil => cases hi
  | cons f move load code fs truncates adds rest ih =>
    rcases List.mem_cons.mp hi with rfl | hi
    · exact ⟨.dword f, .of_spells { mnemonic := "mov" } truncates (by decide +kernel) rfl rfl
        rfl, by simp⟩
    · rcases List.mem_cons.mp hi with rfl | hi
      · exact ⟨.qword f, .of_spells { mnemonic := "lea", dereferences := false } adds
          (by decide +kernel) rfl rfl rfl, by simp⟩
      · obtain ⟨r, hp, hr⟩ := ih hi
        exact ⟨r, hp, List.mem_cons_of_mem f hr⟩

/-- The instructions of a guard are ordinary ones, and in 64-bit code none writes a sandbox
pointer. -/
theorem Guarded.front {front : List Instruction} {last : Instruction} (h : Guarded mode front last)
    (hi : i ∈ front) :
    ∃ r, Prepares i r ∧ (mode = .bits64 → r.family.pointsIntoSandbox = false) := by
  cases h with
  | masked f mask jump rounds goes free =>
    rw [List.mem_singleton.mp hi]
    exact ⟨.dword f, rounds.prepares, by simp⟩
  | rebased f mask rebase jump rounds adds goes free =>
    simp only [List.mem_cons, List.not_mem_nil, or_false] at hi
    rcases hi with rfl | rfl
    · exact ⟨.dword f, rounds.prepares, fun _ => free⟩
    · exact ⟨.qword f, .of_spells { mnemonic := "add" } adds (by decide +kernel) rfl rfl rfl,
        fun _ => free⟩
  | string front op fs rebasing uses used =>
    obtain ⟨r, hp, hr⟩ := rebasing.prepares hi
    refine ⟨r, hp, fun _ => ?_⟩
    rcases string_pointer (uses.mem_iff.mp hr) with hf | hf <;> simp [hf, Family.pointsIntoSandbox]

theorem GoesThrough.last (h : GoesThrough i r) :
    ∃ op, i.opcode? = some op ∧ op.writes = .nothing ∧ i.destination? = none := by
  obtain ⟨op, ho, hb⟩ := (Option.any_eq_true _ _).mp h.1
  exact ⟨op, ho, Instruction.branch_writes ho hb, by simp [Instruction.destination?, h.2]⟩

/-- The guarded instruction is in the table, writes nothing and is no direct branch. -/
theorem Guarded.last {front : List Instruction} {last : Instruction}
    (h : Guarded mode front last) :
    ∃ op, last.opcode? = some op ∧ op.writes = .nothing ∧ last.destination? = none := by
  cases h with
  | masked f mask jump rounds goes free => exact goes.last
  | rebased f mask rebase jump rounds adds goes free => exact goes.last
  | string _ _ fs rebasing uses used =>
    obtain ⟨op, ho, hw, hb⟩ := string_opcode (string_pointers_ne uses used)
    have ho : last.opcode? = some op := ho
    refine ⟨op, ho, hw, Option.eq_none_iff_forall_not_mem.mpr fun d hd => ?_⟩
    simpa [Instruction.isBranch, ho, hb] using (Instruction.destination_some hd).1

theorem check_return_accept (h : checkReturn i = .accept ()) (hc : i.isCall = true) :
    Bundle.starts i.stop = true := by
  unfold checkReturn at h
  split at h
  · cases h
  · rename_i hs
    simpa [hc] using hs

theorem masked_jump_return {mask jump : Instruction} (h : maskedJump mask jump = .accept ()) :
    checkReturn jump = .accept () := by
  unfold maskedJump at h
  split at h
  · cases h
  · split at h
    · exact h
    · cases h

theorem rebased_jump_return {mask rebase jump : Instruction}
    (h : rebasedJump mask rebase jump = .accept ()) : checkReturn jump = .accept () := by
  unfold rebasedJump at h
  split at h
  · cases h
  · dsimp only at h
    split at h
    · exact h
    · cases h

theorem one_pointer_uses {m : String} (h : m ∈ onePointer f) : stringPointers m ≠ [] := by
  unfold onePointer at h
  split at h <;> simp at h
  · simp [h, stringPointers]
  · rcases h with rfl | rfl <;> simp [stringPointers]

theorem string_op_no_call {ms : List String} (h : isStringOp i ms = true)
    (hms : ∀ m ∈ ms, stringPointers m ≠ []) : i.isCall = false := by
  obtain ⟨op, ho, _, hb⟩ := string_opcode (hms _ (string_op_mnemonic h))
  have ho : i.opcode? = some op := ho
  cases hc : op.isCall with
  | false => simp [Instruction.isCall, ho, hc]
  | true => simp [Opcode.branch_of_call hc] at hb

theorem one_string_no_call {op : Instruction} (h : oneString move load op = .accept ()) :
    op.isCall = false := by
  unfold oneString at h
  split at h
  · cases h
  · split at h
    · rename_i hs
      exact string_op_no_call hs fun m => one_pointer_uses
    · cases h

theorem two_strings_no_call {move' load' op : Instruction}
    (h : twoStrings move load move' load' op = .accept ()) : op.isCall = false := by
  unfold twoStrings at h
  split at h
  · split at h
    · rename_i hs
      simp only [Bool.and_eq_true] at hs
      exact string_op_no_call hs.2 (by decide)
    · cases h
  · cases h

/-- A call at the end of an accepted idiom returns to a bundle start. -/
theorem idiom_returns {code : List Instruction} (h : idiom mode code = .accept ())
    (hl : code.getLast? = some i) (hc : i.isCall = true) : Bundle.starts i.stop = true := by
  unfold idiom at h
  split at h
  · cases hl
    exact check_return_accept (masked_jump_return h) hc
  · rename_i first second last
    cases hl
    cases hj : rebasedJump first second last with
    | accept u => exact check_return_accept (rebased_jump_return hj) hc
    | noMatch =>
      rw [hj] at h
      simp [one_string_no_call h] at hc
    | violation cause =>
      rw [hj] at h
      cases h
  · cases hl
    simp [two_strings_no_call h] at hc
  · cases h

end FaultIsolation.Rule
