import FaultIsolation.Scan

/-!
The report on a chunk of code. A chunk of whole bundles that decodes is scanned; any other is
rejected outright.
-/

namespace FaultIsolation

structure Report where
  diagnostics : List Diagnostic
  deriving DecidableEq

/-- Nothing is wrong with the chunk. -/
def Report.ok (r : Report) : Bool :=
  r.diagnostics.isEmpty

/-- How a chunk was looked at. -/
inductive Inspection where
  | rejected (d : Diagnostic)
  | scanned (ss : List Step)
  deriving DecidableEq

namespace Inspection

/-- Looks at a chunk of `size` bytes, which holds the decoded instructions. -/
def ofChunk (p : Policy) (r : Rules) (size : Nat)
    (decoded : Except DecodeError (List Instruction)) : Inspection :=
  if !Bundle.starts size then .rejected (.unalignedSize size)
  else
    match decoded with
    | .error e => .rejected (.undecodable e.offset e)
    | .ok code => .scanned (Scan.steps p r code)

def queries : Inspection → List Query
  | .rejected _ => []
  | .scanned ss => Scan.queries ss

/-- The report, unless an assertion was broken. -/
def report : Inspection → Except Assertion Report
  | .rejected d => .ok ⟨[d]⟩
  | .scanned ss =>
    match Scan.broken? ss with
    | some assertion => .error assertion
    | none => .ok ⟨Scan.diagnostics ss⟩

end Inspection

end FaultIsolation
