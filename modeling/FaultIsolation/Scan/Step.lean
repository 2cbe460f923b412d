import FaultIsolation.Diagnostic
import FaultIsolation.Policy
import FaultIsolation.Rule

/-!
One step of a scan. At an instruction the rules are asked about the windows that begin there,
longest first, and then about the instruction alone. What they accept must also fit the condition
that holds.
-/

namespace FaultIsolation

/-- A question that a scan asks, with the answer it got. -/
inductive Query where
  | window (code : List Instruction) (answer : Verdict Unit)
  | single (insn : Instruction) (answer : Verdict Effect)
  | carry (current : Condition) (stop : Nat) (pre post : Condition) (answer : Carry)
  deriving DecidableEq

/-- What the rules accept as a whole. -/
inductive CodeUnit where
  | idiom (head : Instruction) (tail : List Instruction)
  | single (insn : Instruction) (effect : Effect)
  deriving DecidableEq

namespace CodeUnit

def head : CodeUnit → Instruction
  | .idiom head _ => head
  | .single insn _ => insn

def tail : CodeUnit → List Instruction
  | .idiom _ tail => tail
  | .single _ _ => []

def members (u : CodeUnit) : List Instruction :=
  u.head :: u.tail

/-- An idiom needs nothing and leaves nothing behind. -/
def effect : CodeUnit → Effect
  | .idiom _ _ => {}
  | .single _ effect => effect

def start (u : CodeUnit) : Nat :=
  u.head.address

def stop (u : CodeUnit) : Nat :=
  (u.tail.getLast?.getD u.head).stop

def crossing (u : CodeUnit) : List Diagnostic :=
  if Bundle.crossed u.start u.stop then
    match u with
    | .idiom _ _ => [.idiomCrossesBundle u.start]
    | .single _ _ => [.instructionCrossesBundle u.start]
  else []

end CodeUnit

/-- How a step ends. -/
inductive Outcome where
  /-- The unit fits, and the scan goes on after it. -/
  | accepted (u : CodeUnit) (next : Condition)
  /-- The unit does not fit the condition that holds. -/
  | unmet (u : CodeUnit) (cause : Violation)
  /-- A rule refuses the instruction, or a window that begins with it. -/
  | refused (insn : Instruction) (cause : Violation)
  /-- No rule knows the instruction. -/
  | unrecognized (insn : Instruction)
  /-- The scan cannot go on. -/
  | broken (u : CodeUnit) (assertion : Assertion)
  deriving DecidableEq

namespace Outcome

/-- The instruction that the step looked at. -/
def head : Outcome → Instruction
  | .accepted u _ | .unmet u _ | .broken u _ => u.head
  | .refused insn _ | .unrecognized insn => insn

/-- The further instructions that the step took. -/
def tail : Outcome → List Instruction
  | .accepted u _ => u.tail
  | _ => []

/-- What holds after the step. After an error the scan starts afresh. -/
def next : Outcome → Condition
  | .accepted _ next => next
  | _ => .default

def diagnostics : Outcome → List Diagnostic
  | .accepted u _ | .broken u _ => u.crossing
  | .unmet u cause => u.crossing ++ [.violation u.start cause]
  | .refused insn cause => [.violation insn.address cause]
  | .unrecognized insn => [.unrecognized insn.address insn.disassembly]

/-- The direct jump of an accepted unit, from where to where. -/
def jump? : Outcome → Option (Nat × Int)
  | .accepted u _ => u.effect.jump.map (u.start, ·)
  | _ => none

def broken? : Outcome → Option Assertion
  | .broken _ assertion => some assertion
  | _ => none

end Outcome

structure Step where
  /-- The condition before the step. -/
  current : Condition
  /-- What the step asked, in order. -/
  queries : List Query
  outcome : Outcome
  deriving DecidableEq

namespace Step

/-- The instructions that the step took. -/
def members (s : Step) : List Instruction :=
  s.outcome.head :: s.outcome.tail

/-- Where the step began. -/
def start (s : Step) : Nat :=
  s.outcome.head.address

def after (q : Query) (s : Step) : Step :=
  { s with queries := q :: s.queries }

end Step

namespace Scan

/-- The non-empty beginnings of a list, longest first. -/
def beginnings : List Instruction → List (List Instruction)
  | [] => []
  | i :: rest => (beginnings rest).map (i :: ·) ++ [[i]]

/-- Does the unit fit the condition that holds? -/
def settle (p : Policy) (current : Condition) (u : CodeUnit) : Step :=
  let answer := p.carry current u.stop u.effect.pre u.effect.post
  { current
    queries := [.carry current u.stop u.effect.pre u.effect.post answer]
    outcome :=
      match answer with
      | .next c => .accepted u c
      | .unmet cause => .unmet u cause
      | .broken assertion => .broken u assertion }

def askSingle (p : Policy) (r : Rules) (current : Condition) (i : Instruction) : Step :=
  let answer := r.single i
  Step.after (.single i answer) <|
    match answer with
    | .accept effect => settle p current (.single i effect)
    | .violation cause => { current, queries := [], outcome := .refused i cause }
    | .noMatch => { current, queries := [], outcome := .unrecognized i }

/-- The windows of `i` with each of the lists, in order, and then `i` alone. -/
def askWindows (p : Policy) (r : Rules) (current : Condition) (i : Instruction) :
    List (List Instruction) → Step
  | [] => askSingle p r current i
  | tail :: shorter =>
    let answer := r.window (i :: tail)
    Step.after (.window (i :: tail) answer) <|
      match answer with
      | .accept () => settle p current (.idiom i tail)
      | .violation cause => { current, queries := [], outcome := .refused i cause }
      | .noMatch => askWindows p r current i shorter

/-- The step at the instruction `i`, which `rest` follows. -/
def step (p : Policy) (r : Rules) (current : Condition) (i : Instruction)
    (rest : List Instruction) : Step :=
  askWindows p r current i (beginnings (rest.take (p.longest - 1)))

end Scan

end FaultIsolation
