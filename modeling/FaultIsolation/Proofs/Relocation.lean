import FaultIsolation.Proofs.Acceptance
import FaultIsolation.Proofs.SingleRule

namespace FaultIsolation

section
variable (k : Nat)

def Instruction.shift (i : Instruction) : Instruction :=
  { i with address := i.address + k }

def Effect.shift (e : Effect) : Effect :=
  { e with jump := e.jump.map fun d => Word.signed (d + k) }

def CodeUnit.shift : CodeUnit → CodeUnit
  | .idiom head tail => .idiom (head.shift k) (tail.map (·.shift k))
  | .single insn effect => .single (insn.shift k) (effect.shift k)

def Diagnostic.shift : Diagnostic → Diagnostic
  | .idiomCrossesBundle offset => .idiomCrossesBundle (offset + k)
  | .instructionCrossesBundle offset => .instructionCrossesBundle (offset + k)
  | .unrecognized offset disassembly => .unrecognized (offset + k) disassembly
  | .violation offset cause => .violation (offset + k) cause
  | .jumpIntoInstruction offset destination =>
    .jumpIntoInstruction (offset + k) (Word.signed (destination + k))
  | whole => whole

def Outcome.shift : Outcome → Outcome
  | .accepted u next => .accepted (u.shift k) next
  | .unmet u cause => .unmet (u.shift k) cause
  | .refused insn cause => .refused (insn.shift k) cause
  | .unrecognized insn => .unrecognized (insn.shift k)
  | .broken u assertion => .broken (u.shift k) assertion

end

def Verdict.map {α β : Type} (f : α → β) : Verdict α → Verdict β
  | .accept value => .accept (f value)
  | .noMatch => .noMatch
  | .violation cause => .violation cause

namespace Bundle
variable {k n start stop : Nat}

theorem starts_add (hk : starts k = true) : starts (n + k) = starts n := by
  apply Bool.eq_iff_iff.mpr
  simp only [starts_iff, size] at hk ⊢
  omega

theorem crossed_add (hk : starts k = true) :
    crossed (start + k) (stop + k) = crossed start stop := by
  have hk := starts_iff.mp hk
  have hlast : max (stop + k - 1) (start + k) = max (stop - 1) start + k := by omega
  rw [crossed, crossed, hlast]
  apply Bool.eq_iff_iff.mpr
  simp only [size, bne_iff_ne] at hk ⊢
  omega

end Bundle

section
variable {k : Nat} {i : Instruction} {u : CodeUnit} {o : Outcome}

namespace Instruction

@[simp] theorem shift_operands : (i.shift k).operands = i.operands := rfl

@[simp] theorem shift_prefixes : (i.shift k).prefixes = i.prefixes := rfl

@[simp] theorem shift_opcode : (i.shift k).opcode? = i.opcode? := rfl

@[simp] theorem shift_is_branch : (i.shift k).isBranch = i.isBranch := rfl

@[simp] theorem shift_is_call : (i.shift k).isCall = i.isCall := rfl

@[simp] theorem shift_stop : (i.shift k).stop = i.stop + k := by
  simp only [stop, shift]
  omega

end Instruction

theorem Tiles.shift {start stop : Nat} {code : List Instruction} (h : Tiles start code stop) :
    Tiles (start + k) (code.map (·.shift k)) (stop + k) := by
  induction code generalizing start with
  | nil =>
    have he : start = stop := h
    exact congrArg (· + k) he
  | cons i rest ih =>
    obtain ⟨rfl, hl, ht⟩ := h
    refine ⟨rfl, hl, ?_⟩
    simpa using ih ht

theorem Instruction.shift_destination :
    (i.shift k).destination? = i.destination?.map fun d => Word.signed (d + k) := by
  simp only [Instruction.destination?, Instruction.shift_operands, Instruction.shift_is_branch,
    Instruction.shift_stop]
  split
  · rename_i distance _
    split
    · have hword : Word.signed (Word.signed (i.stop + distance) + k) =
          Word.signed ((i.stop + k : Nat) + distance) := by
        rw [Word.signed, Word.signed, Int.bmod_add_bmod, Word.signed]
        congr 1
        omega
      rw [Option.map_some, hword]
    · rfl
  · rfl

@[simp] theorem CodeUnit.shift_start : (u.shift k).start = u.start + k := by
  cases u <;> rfl

@[simp] theorem CodeUnit.shift_stop : (u.shift k).stop = u.stop + k := by
  cases u with
  | single insn effect => exact Instruction.shift_stop
  | idiom head tail =>
    simp only [CodeUnit.shift, CodeUnit.stop, CodeUnit.tail_idiom, CodeUnit.head_idiom,
      List.getLast?_map]
    cases tail.getLast? <;> exact Instruction.shift_stop

@[simp] theorem CodeUnit.shift_pre : (u.shift k).effect.pre = u.effect.pre := by
  cases u <;> rfl

@[simp] theorem CodeUnit.shift_post : (u.shift k).effect.post = u.effect.post := by
  cases u <;> rfl

theorem CodeUnit.shift_crossing (hk : Bundle.starts k = true) :
    (u.shift k).crossing = u.crossing.map (·.shift k) := by
  unfold CodeUnit.crossing
  simp only [CodeUnit.shift_start, CodeUnit.shift_stop, Bundle.crossed_add hk]
  split
  · cases u <;> rfl
  · rfl

namespace Outcome

@[simp] theorem shift_broken : (o.shift k).broken? = o.broken? := by
  cases o <;> rfl

@[simp] theorem shift_next : (o.shift k).next = o.next := by
  cases o <;> rfl

@[simp] theorem shift_unit : (o.shift k).unit? = o.unit?.map (·.shift k) := by
  cases o <;> rfl

@[simp] theorem shift_tail : (o.shift k).tail = o.tail.map (·.shift k) := by
  cases o with
  | accepted u next => cases u <;> rfl
  | _ => rfl

@[simp] theorem shift_address : (o.shift k).head.address = o.head.address + k := by
  cases o with
  | accepted u next => exact CodeUnit.shift_start
  | unmet u cause => exact CodeUnit.shift_start
  | broken u assertion => exact CodeUnit.shift_start
  | _ => rfl

theorem shift_diagnostics (hk : Bundle.starts k = true) :
    (o.shift k).diagnostics = o.diagnostics.map (·.shift k) := by
  cases o with
  | accepted u next => exact CodeUnit.shift_crossing hk
  | unmet u cause => simp [shift, diagnostics, Diagnostic.shift, CodeUnit.shift_crossing hk]
  | refused insn cause => rfl
  | unrecognized insn => rfl
  | broken u assertion => exact CodeUnit.shift_crossing hk

end Outcome

end

namespace Rule
variable {k : Nat} {mode : Mode} {i : Instruction} {op : Opcode} {e : Effect}

theorem check_return_shift (hk : Bundle.starts k = true) :
    checkReturn (i.shift k) = checkReturn i := by
  simp [checkReturn, Bundle.starts_add hk]

theorem masked_jump_shift {mask jump : Instruction} (hk : Bundle.starts k = true) :
    maskedJump (mask.shift k) (jump.shift k) = maskedJump mask jump := by
  have hround : rounded? (mask.shift k) = rounded? mask := rfl
  have hbranch (r : Register) : branchesThrough (jump.shift k) r = branchesThrough jump r := rfl
  simp only [maskedJump, hround, hbranch, check_return_shift hk]

theorem rebased_jump_shift {mask rebase jump : Instruction} (hk : Bundle.starts k = true) :
    rebasedJump (mask.shift k) (rebase.shift k) (jump.shift k) = rebasedJump mask rebase jump := by
  have hround : rounded? (mask.shift k) = rounded? mask := rfl
  have hpair (r s : Register) : (rebase.shift k).isPair "add" r s = rebase.isPair "add" r s := rfl
  have hbranch (r : Register) : branchesThrough (jump.shift k) r = branchesThrough jump r := rfl
  simp only [rebasedJump, hround, hpair, hbranch, check_return_shift hk]

/-- Only a call's return is judged by where it lies. -/
theorem idiom_shift (hk : Bundle.starts k = true) (code : List Instruction) :
    idiom mode (code.map (·.shift k)) = idiom mode code := by
  match mode, code with
  | .bits32, [mask, jump] => exact masked_jump_shift hk
  | .bits64, [first, second, third] =>
    have hstring : oneString (first.shift k) (second.shift k) (third.shift k) =
        oneString first second third := rfl
    simp only [List.map_cons, List.map_nil, idiom, rebased_jump_shift hk, hstring]
  | .bits64, [_, _, _, _, _] => rfl
  | .bits32, [] | .bits32, [_] | .bits32, _ :: _ :: _ :: _ => rfl
  | .bits64, [] | .bits64, [_] | .bits64, [_, _] | .bits64, [_, _, _, _]
  | .bits64, _ :: _ :: _ :: _ :: _ :: _ :: _ => rfl

theorem sequential_no_jump (h : sequential op i = .accept e) (hb : op.isBranch = false) :
    e.jump = none := by
  have haccepted := sequential_accepted hb h
  cases haccepted with
  | branch _ _ isBranch => simp [hb] at isBranch
  | flat => rfl
  | update _ _ _ _ form =>
    rw [(pointer_update_some form).2]
  | access => rfl

theorem branch_shift (hk : Bundle.starts k = true) :
    branch op (i.shift k) = (branch op i).map (·.shift k) := by
  simp only [branch, Instruction.shift_destination, Instruction.shift_prefixes,
    Instruction.shift_stop, Bundle.starts_add hk]
  cases i.destination? with
  | none => rfl
  | some target =>
    simp only [Option.map_some]
    split
    · rfl
    · split
      · rfl
      · rfl

/-- An instruction on its own is judged as before, and its destination moves along. -/
theorem single_shift (hk : Bundle.starts k = true) :
    single mode (i.shift k) = (single mode i).map (·.shift k) := by
  unfold single
  rw [Instruction.shift_opcode, Instruction.shift_operands]
  cases i.opcode? with
  | none => rfl
  | some op =>
    dsimp only
    split
    · rfl
    · split
      · exact branch_shift hk
      · rename_i hb
        cases mode with
        | bits32 => rfl
        | bits64 =>
          have hsame : sequential op (i.shift k) = sequential op i := rfl
          dsimp only
          rw [hsame]
          cases hs : sequential op i with
          | accept e =>
            have hjump := sequential_no_jump hs (by simpa using hb)
            obtain ⟨pre, post, jump⟩ := e
            subst hjump
            rfl
          | noMatch => rfl
          | violation cause => rfl

end Rule

namespace Scan

/-- Policy and rules do not look at where code lies beyond its place in a bundle. -/
structure Relocatable (p : Policy) (r : Rules) (k : Nat) : Prop where
  bundles : Bundle.starts k = true
  window : ∀ code, r.window (code.map (·.shift k)) = r.window code
  single : ∀ i, r.single (i.shift k) = (r.single i).map (·.shift k)
  carry : ∀ c stop pre post, p.carry c (stop + k) pre post = p.carry c stop pre post

theorem sandbox_relocatable {k : Nat} (mode : Mode) (hk : Bundle.starts k = true) :
    Relocatable mode.policy (.sandbox mode) k where
  bundles := hk
  window := Rule.idiom_shift hk
  single _ := Rule.single_shift hk
  carry c stop pre post := by
    cases mode with
    | bits32 => rfl
    | bits64 => simp only [Mode.policy, Policy.bits64, Bundle.starts_add hk]

theorem beginnings_map (f : Instruction → Instruction) (code : List Instruction) :
    beginnings (code.map f) = (beginnings code).map (List.map f) := by
  induction code with
  | nil => rfl
  | cons i rest ih => simp [beginnings, ih]

section
variable {p : Policy} {r : Rules} {k : Nat} {c : Condition} {i : Instruction}
  {rest : List Instruction}

theorem recognize_shift (h : Relocatable p r k) (tails : List (List Instruction)) :
    recognize r (i.shift k) (tails.map (List.map (·.shift k))) =
      (recognize r i tails).map (·.shift k) := by
  induction tails with
  | nil =>
    rw [List.map_nil, recognize, recognize, h.single]
    cases r.single i <;> rfl
  | cons tail shorter ih =>
    have hwindow := h.window (i :: tail)
    rw [List.map_cons] at hwindow
    rw [List.map_cons, recognize, recognize, hwindow]
    cases r.window (i :: tail) with
    | accept v => rfl
    | noMatch => exact ih
    | violation cause => rfl

theorem settle_shift (h : Relocatable p r k) (u : CodeUnit) :
    (settle p c (u.shift k)).outcome = (settle p c u).outcome.shift k := by
  simp only [settle, CodeUnit.shift_pre, CodeUnit.shift_post, CodeUnit.shift_stop, h.carry]
  cases p.carry c u.stop u.effect.pre u.effect.post <;> rfl

theorem step_shift (h : Relocatable p r k) :
    (step p r c (i.shift k) (rest.map (·.shift k))).outcome =
      (step p r c i rest).outcome.shift k := by
  rw [step_outcome, step_outcome, ← List.map_take, beginnings_map, recognize_shift h]
  cases recognize r i (beginnings (rest.take (p.longest - 1))) with
  | accept u => exact settle_shift h u
  | noMatch => rfl
  | violation cause => rfl

def Moved (k : Nat) (ss ts : List Step) : Prop :=
  ts.map Step.outcome = ss.map (·.outcome.shift k)

/-- A scan of moved code takes the same steps, moved as well. -/
theorem steps_shift (h : Relocatable p r k) (skip : Nat) (c : Condition)
    (code : List Instruction) :
    Moved k (stepsAfter (step p r) skip c code)
      (stepsAfter (step p r) skip c (code.map (·.shift k))) := by
  unfold Moved
  induction code generalizing skip c with
  | nil => cases skip <;> simp [stepsAfter]
  | cons i rest ih =>
    cases skip with
    | succ skip => simpa [stepsAfter] using ih skip c
    | zero =>
      have ho : (step p r c (i.shift k) (rest.map (·.shift k))).outcome =
          (step p r c i rest).outcome.shift k := step_shift h
      simp only [List.map_cons, stepsAfter, ho, Outcome.shift_broken, Outcome.shift_tail,
        Outcome.shift_next, List.length_map]
      cases (step p r c i rest).outcome.broken? with
      | some assertion => simp [ho]
      | none => simp [ho, ih]

end

theorem sandbox_steps_shift {k : Nat} (mode : Mode) (hk : Bundle.starts k = true)
    (code : List Instruction) :
    Moved k (sandboxSteps mode code) (sandboxSteps mode (code.map (·.shift k))) :=
  steps_shift (sandbox_relocatable mode hk) 0 .default code

namespace Moved
variable {k : Nat} {ss ts : List Step}

theorem clean_iff (h : Moved k ss ts) (hk : Bundle.starts k = true) : Clean ts ↔ Clean ss := by
  have hclean (ss : List Step) :
      Clean ss ↔ ∀ o ∈ ss.map Step.outcome, o.broken? = none ∧ o.diagnostics = [] := by
    simp [Clean]
  rw [hclean, h]
  simp [Clean, Outcome.shift_diagnostics hk]

theorem units_eq (h : Moved k ss ts) : units ts = (units ss).map (·.shift k) := by
  have hunits (ss : List Step) : units ss = (ss.map Step.outcome).filterMap Outcome.unit? := by
    rw [List.filterMap_map]
    rfl
  rw [hunits, h, List.filterMap_map, units, List.map_filterMap]
  simp

theorem final_eq (h : Moved k ss ts) (c : Condition) : final c ts = final c ss := by
  have hfinal (ss : List Step) :
      final c ss = (ss.map Step.outcome).foldl (fun _ o => o.next) c := by
    rw [List.foldl_map]
    rfl
  rw [hfinal, h, List.foldl_map, final]
  simp

theorem starts_eq (h : Moved k ss ts) : starts ts = (starts ss).map (· + k) := by
  have hstarts (ss : List Step) : starts ss = (ss.map Step.outcome).map (·.head.address) := by
    rw [List.map_map]
    rfl
  rw [hstarts, hstarts, h]
  simp [Function.comp_def]

/-- What the steps find moves along. -/
theorem found_eq (h : Moved k ss ts) (hk : Bundle.starts k = true) :
    ts.flatMap (·.outcome.diagnostics) = (ss.flatMap (·.outcome.diagnostics)).map (·.shift k) := by
  have hfound (ss : List Step) : ss.flatMap (·.outcome.diagnostics) =
      (ss.map Step.outcome).flatMap Outcome.diagnostics := by
    rw [List.flatMap_map]
  rw [hfound, h, List.flatMap_map, List.map_flatMap]
  simp only [Outcome.shift_diagnostics hk]

end Moved

end Scan

end FaultIsolation
