import FaultIsolation.Bundle
import FaultIsolation.Instruction
import FaultIsolation.Mode
import FaultIsolation.Verdict

/-!
The idioms: sequences that are safe only as a whole, because their last instruction relies on what
the ones before it did to its register.

* In 32-bit code `and reg, -32` and an indirect jump or call through `reg`.
* In 64-bit code the same with `add reg, %r15` in between.
* In 64-bit code a string operation after each pointer that it uses was moved into the sandbox by
  `mov %esi, %esi` and `lea (%r15,%rsi), %rsi`, or the same with `%rdi`.
-/

namespace FaultIsolation.Rule

/-- The register that the instruction rounds down to a bundle start. The mask counts by its lower 32
bits. -/
def rounded? (i : Instruction) : Option Register := do
  guard (i.mnemonic == "and" && i.operands.length == 2 && !i.prefixes.any)
  let mask ← i.immediate? 1
  guard (mask % 0x100000000 == 0x100000000 - Bundle.size)
  i.register? 0

/-- A branch through `r`, with nothing that alters its meaning. -/
def branchesThrough (i : Instruction) (r : Register) : Bool :=
  i.branchRegister? == some r && !i.prefixes.any

/-- A call returns to the byte after it, which has to be a bundle start. -/
def checkReturn (i : Instruction) : Verdict Unit :=
  if i.isCall && !Bundle.starts i.stop then .violation .callInsideBundle else .accept ()

def maskedJump (mask jump : Instruction) : Verdict Unit :=
  match rounded? mask with
  | none => .noMatch
  | some r =>
    if r.isDword && r.family != .rsp && branchesThrough jump r then checkReturn jump else .noMatch

def rebasedJump (mask rebase jump : Instruction) : Verdict Unit :=
  match rounded? mask with
  | none => .noMatch
  | some r =>
    let full := Register.qword r.family
    if r.isDword && !r.family.pointsIntoSandbox && rebase.isPair "add" full (.qword .r15) &&
        branchesThrough jump full then
      checkReturn jump
    else .noMatch

/-- `move` and `load` move the family's pointer into the sandbox. -/
def rebases (move load : Instruction) (f : Family) : Bool :=
  let full := Register.qword f
  move.isPair "mov" (.dword f) (.dword f) && load.mnemonic == "lea" &&
    load.operands == [.register full, .memory { base := some (.qword .r15), index := some full }]

/-- The string pointer that the two instructions move into the sandbox. -/
def rebased? (move load : Instruction) : Option Family :=
  [.rsi, .rdi].find? (rebases move load)

/-- A string operation of one of the kinds, repeated or not, through 64-bit pointers. -/
def isStringOp (i : Instruction) (mnemonics : List String) : Bool :=
  mnemonics.contains i.mnemonic && !i.prefixes.lock && !i.prefixes.segment &&
    i.memories.all fun m => m.base.any Register.isQword

/-- The string operations that use one pointer. -/
def onePointer : Family → List String
  | .rsi => ["lods"]
  | .rdi => ["stos", "scas"]
  | _ => []

def oneString (move load op : Instruction) : Verdict Unit :=
  match rebased? move load with
  | none => .noMatch
  | some f => if isStringOp op (onePointer f) then .accept () else .noMatch

/-- A string operation that uses both pointers, moved into the sandbox in either order. -/
def twoStrings (move load move' load' op : Instruction) : Verdict Unit :=
  match rebased? move load, rebased? move' load' with
  | some f, some g =>
    if f != g && isStringOp op ["movs", "cmps"] then .accept () else .noMatch
  | _, _ => .noMatch

def idiom : Mode → List Instruction → Verdict Unit
  | .bits32, [mask, jump] => maskedJump mask jump
  | .bits64, [i, j, k] => (rebasedJump i j k).orElse fun _ => oneString i j k
  | .bits64, [move, load, move', load', op] => twoStrings move load move' load' op
  | _, _ => .noMatch

end FaultIsolation.Rule
