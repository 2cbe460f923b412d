/-!
Words of 64 bits, as the numbers they stand for. Two numbers stand for one word if they differ by a
multiple of 2^64.
-/

namespace FaultIsolation.Word

/-- How many words there are. -/
def count : Nat := 0x10000000000000000

/-- The word of a number, read without a sign. -/
def unsigned (i : Int) : Nat :=
  (i % count).toNat

/-- The word of a number, read in two's complement. -/
def signed (i : Int) : Int :=
  Int.bmod i count

end FaultIsolation.Word
