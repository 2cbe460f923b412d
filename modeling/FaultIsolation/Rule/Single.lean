import FaultIsolation.Bundle
import FaultIsolation.Instruction
import FaultIsolation.Mode
import FaultIsolation.Verdict

/-!
The rules for an instruction that stands on its own.

In 64-bit code every memory access goes through `%rip`, or through `%r15`, `%rsp` or `%rbp` and at
most one index that has just been zero-extended. A sandbox pointer is changed in two steps: an
instruction truncates it to an offset, and the next one adds `%r15`.
-/

namespace FaultIsolation.Rule

/-- The register that must have been zero-extended for the reference to stay in the sandbox. -/
def requirement (m : Memory) : Except Violation (Option Family) :=
  match m.base with
  | none => .error (.absoluteReference m.displacement)
  | some base =>
    match base.family with
    | .rip =>
      match m.index with
      | none => .ok none
      | some index => .error (.relativeIndex index)
    | .r15 | .rsp | .rbp =>
      if base.isQword then
        match m.index with
        | none => .ok none
        | some index =>
          if !index.isQword then .error (.narrowIndex index)
          else if index.family.pointsIntoSandbox then .error (.pointerIndex index)
          else .ok (some index.family)
      else .error (.narrowBase base)
    | _ => .error (.foreignBase base)

/-- One register at most can have been zero-extended by the instruction before. -/
def require (c : Condition) : Option Family → Except Violation Condition
  | none => .ok c
  | some f =>
    if c = .default ∨ c = .zeroExtended f then .ok (.zeroExtended f) else .error .conflictingIndexes

/-- What the memory references need. -/
def precondition (ms : List Memory) : Except Violation Condition :=
  ms.foldlM (fun c m => do require c (← requirement m)) .default

/-- The registers that an instruction writes through its operands. -/
def written (op : Opcode) (i : Instruction) : Except Violation (List Register) :=
  match op.writes with
  | .nothing => .ok []
  | .first => .ok (i.register? 0).toList
  | .firstOfSeveral => .ok (if 2 ≤ i.operands.length then (i.register? 0).toList else [])
  | .firstTwo => .ok ((i.register? 0).toList ++ (i.register? 1).toList)
  | .frame => .error (.frameUpdate op.mnemonic)

/-- What a write leaves behind. -/
def afterWrite (op : Opcode) (r : Register) : Except Violation Condition :=
  match r.family with
  | .r15 => .error (.reservedWrite r)
  | .rsp | .rbp =>
    if r.isDword && op.zeroExtends then .ok (.truncated r.family)
    else if r.isQword then .error (.pointerWrite r)
    else .error (.pointerPartWrite r)
  | _ => .ok (if r.isDword && op.zeroExtends then .zeroExtended r.family else .default)

/-- What two writes leave behind together. A truncated pointer outweighs a zero-extended register,
and of two zero-extended registers the later one is remembered. -/
def combine : Condition → Condition → Except Violation Condition
  | .truncated f, .truncated g =>
    if f = g then .ok (.truncated f) else .error (.twoTruncations f g)
  | .truncated f, _ => .ok (.truncated f)
  | c, .default => .ok c
  | _, c => .ok c

def postcondition (op : Opcode) (rs : List Register) : Except Violation Condition :=
  rs.foldlM (fun c r => do combine c (← afterWrite op r)) .default

/-- The updates of a sandbox pointer that keep it in the sandbox or bring it back there. -/
def pointerUpdate? (i : Instruction) : Option Effect :=
  let rsp := Register.qword .rsp
  let rbp := Register.qword .rbp
  let r15 := Register.qword .r15
  if i.isPair "mov" rsp rbp || i.isPair "mov" rbp rsp then some {}
  else if i.isPair "add" rsp r15 then some { pre := .truncated .rsp }
  else if i.isPair "add" rbp r15 then some { pre := .truncated .rbp }
  else if i.mnemonic == "and" && i.register? 0 == some rsp && (i.immediate? 1).any (· < 0) then
    some {}
  else none

def branch (op : Opcode) (i : Instruction) : Verdict Effect :=
  match i.destination? with
  | none => .noMatch
  | some target =>
    if i.prefixes.lock || i.prefixes.rep then .noMatch
    else if op.isCall && !Bundle.starts i.stop then .violation .callInsideBundle
    else .accept { jump := some target }

/-- An instruction of 64-bit code that passes control to the next one. -/
def sequential (op : Opcode) (i : Instruction) : Verdict Effect :=
  if i.prefixes.segment then .violation .segmentOverride
  else
    match pointerUpdate? i with
    | some effect => .accept effect
    | none => .ofExcept do
      let pre ← precondition (if op.dereferences then i.memories else [])
      let post ← postcondition op (← written op i)
      return { pre, post }

def single (mode : Mode) (i : Instruction) : Verdict Effect :=
  match i.opcode? with
  | none => .noMatch
  | some op =>
    if !op.isAllowed || i.operands.any Operand.isSystem then .noMatch
    else if op.isBranch then branch op i
    else
      match mode with
      | .bits32 => .accept {}
      | .bits64 => sequential op i

end FaultIsolation.Rule
