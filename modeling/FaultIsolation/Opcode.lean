/-!
Opcodes: what the sandbox knows of an instruction from its mnemonic alone.
-/

namespace FaultIsolation

/-- How an instruction passes control on. -/
inductive Flow where
  | sequential
  | jump
  | call
  deriving DecidableEq

/-- Which of its operands an instruction writes. -/
inductive Writes where
  | nothing
  | first
  /-- The first operand, unless it is the only one. -/
  | firstOfSeveral
  /-- The first two operands. -/
  | firstTwo
  /-- The stack and frame pointers, which are not among the operands. -/
  | frame
  deriving DecidableEq

/-- Why an opcode may not stand on its own. -/
inductive Rejection where
  | system
  | interrupt
  | returns
  | farTransfer
  | inputOutput
  | segmentLoad
  | stringOperation
  deriving DecidableEq

def Rejection.text : Rejection → String
  | .system => "system instruction"
  | .interrupt => "interrupt instruction"
  | .returns => "return instruction"
  | .farTransfer => "far control transfer"
  | .inputOutput => "port I/O instruction"
  | .segmentLoad => "segment register load"
  | .stringOperation => "unsandboxed string operation"

structure Opcode where
  mnemonic : String
  flow : Flow := .sequential
  writes : Writes := .first
  /-- A 32-bit destination clears the upper half of its register. -/
  zeroExtends : Bool := true
  /-- Memory operands are read or written, and not only computed. -/
  dereferences : Bool := true
  rejection : Option Rejection := none
  deriving DecidableEq

namespace Opcode

def isBranch (op : Opcode) : Bool := op.flow != .sequential

def isCall (op : Opcode) : Bool := op.flow == .call

def isAllowed (op : Opcode) : Bool := op.rejection.isNone

end Opcode

end FaultIsolation
