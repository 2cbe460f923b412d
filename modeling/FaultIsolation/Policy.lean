import FaultIsolation.Bundle
import FaultIsolation.Mode
import FaultIsolation.Verdict

/-!
Policies: how a scan carries the condition from one unit of code to the next.
-/

namespace FaultIsolation

/-- What the scan may rely on in 32-bit code, where no rule deals in conditions. -/
inductive Assertion where
  | unconditionalRule (pre post : Condition)
  | unconditionalScan (current : Condition)
  deriving DecidableEq

/-- The words for a broken assertion. -/
def Assertion.message : Assertion → String
  | .unconditionalRule pre post => s!"32-bit rule produced conditions {pre.text} -> {post.text}"
  | .unconditionalScan current => s!"32-bit scan carried {current.text}"

/-- The condition after a unit, or what is wrong. -/
inductive Carry where
  | next (c : Condition)
  | unmet (cause : Violation)
  | broken (assertion : Assertion)
  deriving DecidableEq

structure Policy where
  /-- The most instructions that a window can have. -/
  longest : Nat
  /-- Whether a unit that ends at an offset, needs `pre` and leaves `post` may run where `current`
  holds, and what holds after it. -/
  carry (current : Condition) (stop : Nat) (pre post : Condition) : Carry

namespace Policy

def bits32 : Policy where
  longest := 2
  carry current _ pre post :=
    if pre ≠ .default ∨ post ≠ .default then .broken (.unconditionalRule pre post)
    else if current ≠ .default then .broken (.unconditionalScan current)
    else .next current

/-- A bundle start can be jumped to from anywhere, so nothing special may be needed there. -/
def bits64 : Policy where
  longest := 5
  carry current stop pre post :=
    if !current.covers pre then .unmet (.unmet current pre)
    else if Bundle.starts stop then
      if post.covers .default then .next .default else .unmet (.unmet post .default)
    else .next post

end Policy

def Mode.policy : Mode → Policy
  | .bits32 => .bits32
  | .bits64 => .bits64

end FaultIsolation
