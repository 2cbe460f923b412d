import FaultIsolation.Rule.Idiom
import FaultIsolation.Rule.Single

/-!
Rule sets. A scan works with any; the sandbox has one for each mode.
-/

namespace FaultIsolation

/-- How code is judged: a window of two or more instructions as an idiom, and an instruction on its
own. -/
structure Rules where
  window : List Instruction → Verdict Unit
  single : Instruction → Verdict Effect

/-- The rules of the sandbox. -/
def Rules.sandbox (mode : Mode) : Rules where
  window := Rule.idiom mode
  single := Rule.single mode

end FaultIsolation
