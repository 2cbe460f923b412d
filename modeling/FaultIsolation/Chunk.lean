import FaultIsolation.Encoding.Decode
import FaultIsolation.Report

/-!
Chunks of machine code under the rules of the sandbox.
-/

namespace FaultIsolation.Chunk

/-- Looks at code whose instructions are read by `one`. -/
def inspectWith (one : List UInt8 → Except Fault Instruction) (mode : Mode) (bytes : List UInt8) :
    Inspection :=
  .ofChunk mode.policy (.sandbox mode) bytes.length (Encoding.decodeWith one bytes)

def inspect (mode : Mode) (bytes : List UInt8) : Inspection :=
  inspectWith (Encoding.decodeOne mode) mode bytes

/-- Everything that is wrong with the code, unless an assertion was broken. -/
def validate (mode : Mode) (bytes : List UInt8) : Except Assertion Report :=
  (inspect mode bytes).report

end FaultIsolation.Chunk
