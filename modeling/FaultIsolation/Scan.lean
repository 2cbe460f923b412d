import FaultIsolation.Scan.Step
import Std.Data.TreeMap
import Std.Data.TreeSet

/-!
A scan goes once through the instructions of a chunk and takes them in steps. Everything that it
finds is a view of the list of its steps. Direct jumps are looked at last, when every place where a
step began is known.
-/

namespace FaultIsolation.Scan

/-- The steps through `code` after its first `skip` instructions, which belong to a step before.
Each is what `take` makes of the condition, the instruction and those after it. -/
def stepsAfter (take : Condition → Instruction → List Instruction → Step) :
    (skip : Nat) → Condition → List Instruction → List Step
  | _, _, [] => []
  | skip + 1, current, _ :: rest => stepsAfter take skip current rest
  | 0, current, i :: rest =>
    let s := take current i rest
    match s.outcome.broken? with
    | some _ => [s]
    | none => s :: stepsAfter take s.outcome.tail.length s.outcome.next rest

def steps (p : Policy) (r : Rules) (code : List Instruction) : List Step :=
  stepsAfter (step p r) 0 .default code

/-- Where the steps began. -/
def starts (ss : List Step) : List Nat :=
  ss.map Step.start

/-- The direct jumps of accepted units by ascending source; of two with one source, the later. -/
def jumps (ss : List Step) : List (Nat × Int) :=
  (ss.filterMap (·.outcome.jump?)).foldl (fun m j => m.insert j.1 j.2) (∅ : Std.TreeMap Nat Int)
    |>.toList

/-- A jump may go to a bundle start or to a place where a step began. -/
def lands (places : Std.TreeSet Nat) (destination : Int) : Bool :=
  destination % Bundle.size == 0 || 0 ≤ destination && places.contains destination.toNat

def strayJumps (ss : List Step) : List Diagnostic :=
  let places := Std.TreeSet.ofList (starts ss)
  (jumps ss).filterMap fun j =>
    if lands places j.2 then none else some (.jumpIntoInstruction j.1 j.2)

def diagnostics (ss : List Step) : List Diagnostic :=
  ss.flatMap (·.outcome.diagnostics) ++ strayJumps ss

/-- The assertion that ended the scan, if one did. -/
def broken? (ss : List Step) : Option Assertion :=
  ss.findSome? (·.outcome.broken?)

def queries (ss : List Step) : List Query :=
  ss.flatMap Step.queries

end FaultIsolation.Scan
