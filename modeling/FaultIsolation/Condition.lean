import FaultIsolation.Register

/-!
Conditions: what is known about the registers between two instructions of 64-bit code, beyond what
holds at every bundle start.
-/

namespace FaultIsolation

inductive Condition where
  /-- Nothing beyond the ordinary: the sandbox pointers point into the sandbox. -/
  | default
  /-- The register was just zero-extended, so it holds an offset below 4 GiB. -/
  | zeroExtended (f : Family)
  /-- The pointer holds an offset below 4 GiB and has yet to be moved into the sandbox. -/
  | truncated (f : Family)
  deriving DecidableEq

namespace Condition

/-- The pointer that has yet to be moved back. -/
def pending? : Condition → Option Family
  | .truncated f => some f
  | _ => none

/-- `a.covers b`: whatever needs `b` may run where `a` holds. A zero-extended register may go
unused; a pointer outside the sandbox may not be forgotten. -/
def covers : Condition → Condition → Bool
  | .truncated f, .truncated g => f == g
  | .truncated _, _ => false
  | _, .truncated _ => false
  | _, .default => true
  | .zeroExtended f, .zeroExtended g => f == g
  | .default, .zeroExtended _ => false

def text : Condition → String
  | .default => "default"
  | .zeroExtended f => s!"restricted({f.text})"
  | .truncated f => s!"restricted_instead_of_sandboxed({f.text})"

/-- What `a` lacks of `b`, in words. Where it lacks nothing the words say so. -/
def shortfall (a b : Condition) : String :=
  match a, b with
  | .truncated f, .truncated g =>
    if f = g then s!"{a.text} implies {b.text}"
    else s!"{f.text} must be sandboxed with %r15 before {g.text} is restricted"
  | .truncated f, _ => s!"{f.text} must be sandboxed with %r15"
  | _, .truncated g => s!"{g.text} is not restricted"
  | _, .default => s!"{a.text} implies {b.text}"
  | .zeroExtended f, .zeroExtended g =>
    s!"{g.text} is not zero-extended ({f.text} is zero-extended instead)"
  | .default, .zeroExtended g => s!"{g.text} is not zero-extended"

end Condition

end FaultIsolation
