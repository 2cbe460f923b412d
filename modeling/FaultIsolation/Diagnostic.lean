import FaultIsolation.Bundle
import FaultIsolation.Verdict

/-!
Diagnostics: what can be wrong with a chunk of code.
-/

namespace FaultIsolation

/-- Why bytes are not an instruction. -/
inductive Fault where
  | exhausted
  | invalidOpcode
  | invalidOperand
  | invalidPrefixes
  /-- A decoder's own words. -/
  | stated (text : String)
  deriving DecidableEq

def Fault.message : Fault → String
  | .exhausted => "exhausted input"
  | .invalidOpcode => "invalid opcode"
  | .invalidOperand => "invalid operand"
  | .invalidPrefixes => "invalid prefixes"
  | .stated text => text

structure DecodeError where
  offset : Nat
  fault : Fault
  deriving DecidableEq

def DecodeError.message (e : DecodeError) : String :=
  s!"failed to decode instruction at offset {Text.hex e.offset}: {e.fault.message}"

inductive Diagnostic where
  | unalignedSize (size : Nat)
  | undecodable (offset : Nat) (error : DecodeError)
  | idiomCrossesBundle (offset : Nat)
  | instructionCrossesBundle (offset : Nat)
  | unrecognized (offset : Nat) (disassembly : String)
  | violation (offset : Nat) (cause : Violation)
  | jumpIntoInstruction (offset : Nat) (destination : Int)
  deriving DecidableEq

namespace Diagnostic

/-- Where the fault lies. -/
def offset : Diagnostic → Nat
  | .unalignedSize _ => 0
  | .undecodable offset _ | .idiomCrossesBundle offset | .instructionCrossesBundle offset
  | .unrecognized offset _ | .violation offset _ | .jumpIntoInstruction offset _ => offset

/-- Nothing after the fault was looked at. -/
def isFatal : Diagnostic → Bool
  | .unalignedSize _ | .undecodable _ _ => true
  | _ => false

def message : Diagnostic → String
  | .unalignedSize size => s!"chunk size {size} is not a multiple of {Bundle.size}"
  | .undecodable _ _ => "failed to decode instruction"
  | .idiomCrossesBundle _ => "superinstruction crosses bundle boundary"
  | .instructionCrossesBundle _ => "instruction crosses bundle boundary"
  | .unrecognized _ disassembly => s!"unrecognized instruction {disassembly}"
  | .violation _ cause => s!"sandboxing violation: {cause.message}"
  | .jumpIntoInstruction _ _ => "jump into a middle of instruction"

def line (d : Diagnostic) : String :=
  s!"{Text.hex d.offset}: {d.message}"

end Diagnostic

end FaultIsolation
