import FaultIsolation.Encoding.Context

/-!
Operations as machine code spells them, and the names that go by number.
-/

namespace FaultIsolation.Encoding

/-- What an opcode and its operands say. -/
structure Encoded where
  mnemonic : String
  args : List Arg := []
  /-- The instruction may be locked if it writes to memory. -/
  lockable : Bool := false
  deriving DecidableEq

/-- The tests of the conditional instructions, in the order of their numbers. -/
def conditions : List String :=
  ["o", "no", "b", "nb", "z", "nz", "na", "a", "s", "ns", "p", "np", "l", "ge", "le", "g"]

/-- The same tests as the `set` instructions spell them. -/
def setConditions : List String :=
  ["o", "no", "b", "ae", "z", "nz", "be", "a", "s", "ns", "p", "np", "l", "ge", "le", "g"]

def arithmeticNames : List String :=
  ["add", "or", "adc", "sbb", "and", "sub", "xor", "cmp"]

def shiftNames : List String :=
  ["rol", "ror", "rcl", "rcr", "shl", "shr", "sal", "sar"]

def unaryNames : List String :=
  ["test", "test", "not", "neg", "mul", "imul", "div", "idiv"]

def groupNames : List String :=
  ["inc", "dec", "call", "callf", "jmp", "jmpf", "push"]

/-- The name of a number. -/
def pick (names : List String) (n : Nat) : String :=
  names.getD n ""

end FaultIsolation.Encoding
