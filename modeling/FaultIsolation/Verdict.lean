import FaultIsolation.Condition
import FaultIsolation.Text.Hex

/-!
What a rule says about an instruction or a window of instructions.
-/

namespace FaultIsolation

/-- Why code that a rule recognises is unsafe as written. -/
inductive Violation where
  | callInsideBundle
  | segmentOverride
  | absoluteReference (displacement : Int)
  | relativeIndex (index : Register)
  | narrowBase (base : Register)
  | narrowIndex (index : Register)
  | pointerIndex (index : Register)
  | foreignBase (base : Register)
  | conflictingIndexes
  | frameUpdate (mnemonic : String)
  | reservedWrite (r : Register)
  | pointerWrite (r : Register)
  | pointerPartWrite (r : Register)
  | twoTruncations (first second : Family)
  /-- The condition that holds is not the one that is needed. -/
  | unmet (held needed : Condition)
  /-- A rule's own words. -/
  | stated (text : String)
  deriving DecidableEq

def Violation.message : Violation → String
  | .callInsideBundle => "call must end at a bundle boundary"
  | .segmentOverride => "segment override prefixes are not allowed"
  | .absoluteReference d => s!"absolute memory reference {Text.wordHex d} is not sandboxed"
  | .relativeIndex r => s!"rip-relative reference with index {r.text}"
  | .narrowBase r => s!"memory reference through 32-bit base {r.text}"
  | .narrowIndex r => s!"memory reference through 32-bit index {r.text}"
  | .pointerIndex r => s!"{r.text} cannot be used as an index"
  | .foreignBase r => s!"memory reference through unsandboxed base {r.text}"
  | .conflictingIndexes => "memory operands need different zero-extended registers"
  | .frameUpdate m => s!"{m} modifies %rsp and %rbp without sandboxing"
  | .reservedWrite r => s!"{r.text} must not be modified"
  | .pointerWrite r => s!"{r.text} can only be modified through a sandboxing sequence"
  | .pointerPartWrite r => s!"{r.text} must not be partially modified"
  | .twoTruncations f g => s!"{f.text} and {g.text} cannot both be truncated"
  | .unmet held needed => held.shortfall needed
  | .stated text => text

inductive Verdict (α : Type) where
  | accept (value : α)
  /-- The rule has nothing to say, so another one may. -/
  | noMatch
  | violation (cause : Violation)
  deriving DecidableEq

namespace Verdict

def isNoMatch {α : Type} : Verdict α → Bool
  | .noMatch => true
  | _ => false

/-- The first verdict, or the second if the first rule has nothing to say. -/
def orElse {α : Type} (first : Verdict α) (second : Unit → Verdict α) : Verdict α :=
  match first with
  | .noMatch => second ()
  | settled => settled

def ofExcept {α : Type} : Except Violation α → Verdict α
  | .ok value => .accept value
  | .error cause => .violation cause

end Verdict

/-- What an accepted instruction needs, what it leaves behind and where it may jump. -/
structure Effect where
  pre : Condition := .default
  post : Condition := .default
  jump : Option Int := none
  deriving DecidableEq

end FaultIsolation
