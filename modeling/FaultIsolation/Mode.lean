/-!
Processor modes. The rules and the machine code differ between them; the scan does not.
-/

namespace FaultIsolation

/-- The processor mode that code runs in. -/
inductive Mode where
  | bits32
  | bits64
  deriving DecidableEq

def Mode.text : Mode → String
  | .bits32 => "32-bit"
  | .bits64 => "64-bit"

end FaultIsolation
