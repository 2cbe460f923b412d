import FaultIsolation.Opcode.Table
import FaultIsolation.Register
import FaultIsolation.Text.Hex

/-!
Decoded instructions, as far as the sandbox looks at them.
-/

namespace FaultIsolation

/-- A memory reference `[base + index * scale + displacement]`. -/
structure Memory where
  base : Option Register := none
  index : Option Register := none
  scale : Nat := 1
  displacement : Int := 0
  deriving DecidableEq

inductive Operand where
  | register (r : Register)
  /-- A constant. For a branch it is the distance from the end of the instruction. -/
  | immediate (value : Int)
  | memory (m : Memory)
  /-- A segment, control or debug register. -/
  | system (name : String)
  /-- Anything that no rule looks at. -/
  | other
  deriving DecidableEq

structure Prefixes where
  lock : Bool := false
  rep : Bool := false
  segment : Bool := false
  deriving DecidableEq

structure Instruction where
  /-- Offset of the first byte in the chunk. -/
  address : Nat
  /-- Number of bytes. -/
  length : Nat
  mnemonic : String
  operands : List Operand := []
  prefixes : Prefixes := {}
  disassembly : String
  deriving DecidableEq

namespace Operand

def register? : Operand → Option Register
  | .register r => some r
  | _ => none

def immediate? : Operand → Option Int
  | .immediate v => some v
  | _ => none

def memory? : Operand → Option Memory
  | .memory m => some m
  | _ => none

def isSystem : Operand → Bool
  | .system _ => true
  | _ => false

/-- The registers that the operand names. -/
def registers : Operand → List Register
  | .register r => [r]
  | .memory m => m.base.toList ++ m.index.toList
  | _ => []

end Operand

def Prefixes.any (p : Prefixes) : Bool :=
  p.lock || p.rep || p.segment

namespace Instruction

/-- An instruction from its mnemonic in any case. Without a disassembly it reads as spelled. -/
def spelled (address length : Nat) (mnemonic : String) (operands : List Operand)
    (prefixes : Prefixes) (disassembly : Option String) : Instruction where
  address := address
  length := length
  mnemonic := Text.lower mnemonic
  operands := operands
  prefixes := prefixes
  disassembly := disassembly.getD mnemonic

/-- Offset of the first byte after the instruction. -/
def stop (i : Instruction) : Nat :=
  i.address + i.length

def text (i : Instruction) : String :=
  s!"{Text.hex i.address}: {i.disassembly}"

def opcode? (i : Instruction) : Option Opcode :=
  Opcode.find? i.mnemonic

def isBranch (i : Instruction) : Bool :=
  i.opcode?.any Opcode.isBranch

def isCall (i : Instruction) : Bool :=
  i.opcode?.any Opcode.isCall

def operand? (i : Instruction) (n : Nat) : Option Operand :=
  i.operands[n]?

def register? (i : Instruction) (n : Nat) : Option Register :=
  (i.operand? n).bind Operand.register?

def immediate? (i : Instruction) (n : Nat) : Option Int :=
  (i.operand? n).bind Operand.immediate?

def memories (i : Instruction) : List Memory :=
  i.operands.filterMap Operand.memory?

/-- Where a direct branch goes. Destinations are signed, so one in the upper half of the address
space is negative. -/
def destination? (i : Instruction) : Option Int :=
  match i.operands with
  | [.immediate distance] => if i.isBranch then some (Word.signed (i.stop + distance)) else none
  | _ => none

/-- The register that an indirect branch goes through. -/
def branchRegister? (i : Instruction) : Option Register :=
  match i.operands with
  | [.register r] => if i.isBranch then some r else none
  | _ => none

/-- The instruction is `mnemonic destination, source`. -/
def isPair (i : Instruction) (mnemonic : String) (destination source : Register) : Bool :=
  i.mnemonic == mnemonic && i.operands == [.register destination, .register source]

def uses (i : Instruction) (f : Family) : Bool :=
  i.operands.any fun o => o.registers.any (·.family == f)

end Instruction

end FaultIsolation
