/-!
Bundles: the aligned blocks that code is cut into. An indirect jump can only land on the first byte
of one.
-/

namespace FaultIsolation.Bundle

/-- Bytes in a bundle. -/
def size : Nat := 32

/-- A bundle starts at `offset`. -/
def starts (offset : Nat) : Bool :=
  offset % size == 0

/-- The bytes from `start` up to `stop` lie in more than one bundle. An empty range lies in the
bundle of its start. -/
def crossed (start stop : Nat) : Bool :=
  start / size != max (stop - 1) start / size

end FaultIsolation.Bundle
