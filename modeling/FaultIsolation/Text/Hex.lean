import FaultIsolation.Word

/-!
Hexadecimal numbers: `0x` and lowercase digits, no leading zeros.
-/

namespace FaultIsolation.Text

def hex (n : Nat) : String :=
  "0x" ++ String.ofList (Nat.toDigits 16 n)

/-- A sign before the digits of a negative number. -/
def signedHex (i : Int) : String :=
  (if i < 0 then "-" else "") ++ hex i.natAbs

/-- The digits of a 64-bit word: a negative number is shown as its two's complement. -/
def wordHex (i : Int) : String :=
  hex (Word.unsigned i)

end FaultIsolation.Text
