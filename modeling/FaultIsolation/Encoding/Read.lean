import FaultIsolation.Diagnostic

/-!
Readers of machine code. A reader is a tree: it is done, it fails, or it takes one more byte and
goes on from there. So what a reader makes of a list of bytes depends on the bytes it took and on
nothing after them.
-/

namespace FaultIsolation.Encoding

inductive Read (α : Type) where
  | done (value : α)
  | fail (fault : Fault)
  | next (more : UInt8 → Read α)

namespace Read

variable {α β : Type}

def bind (r : Read α) (f : α → Read β) : Read β :=
  match r with
  | .done a => f a
  | .fail fault => .fail fault
  | .next more => .next fun b => (more b).bind f

instance : Monad Read where
  pure := done
  bind := bind

/-- The value read from the front of the bytes, and how many were taken. -/
def run : Read α → List UInt8 → Except Fault (α × Nat)
  | .done a, _ => .ok (a, 0)
  | .fail fault, _ => .error fault
  | .next _, [] => .error .exhausted
  | .next more, b :: bytes =>
    match (more b).run bytes with
    | .ok (a, n) => .ok (a, n + 1)
    | .error fault => .error fault

def byte : Read Nat :=
  .next fun b => .done b.toNat

/-- A number of `n` bytes, lowest first. -/
def unsigned : (n : Nat) → Read Nat
  | 0 => return 0
  | n + 1 => do
    let low ← byte
    let high ← unsigned n
    return low + 256 * high

/-- A number of `n` bytes in two's complement. -/
def signed (n : Nat) : Read Int := do
  return Int.bmod (← unsigned n) (Nat.pow 256 n)

end Read

end FaultIsolation.Encoding
