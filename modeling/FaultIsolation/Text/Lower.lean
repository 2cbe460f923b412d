/-!
Letter case. Mnemonics are ASCII, so only ASCII letters have one here.
-/

namespace FaultIsolation.Text

/-- The text with its ASCII capitals made small. -/
def lower (s : String) : String :=
  String.ofList (s.toList.map Char.toLower)

end FaultIsolation.Text
