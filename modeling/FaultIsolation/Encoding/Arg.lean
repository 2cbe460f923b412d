import FaultIsolation.Instruction

/-!
Operands as machine code spells them, which tells more than the sandbox needs, and how they are
written in a disassembly.
-/

namespace FaultIsolation.Encoding

/-- How much of memory or of a register an operand is. -/
inductive Size where
  | byte
  | word
  | dword
  | qword
  | xmmword
  /-- A far pointer of 64-bit code. -/
  | mword
  /-- A far pointer of 32-bit code. -/
  | far
  deriving DecidableEq

def Size.text : Size → String
  | .byte => "byte"
  | .word => "word"
  | .dword => "dword"
  | .qword => "qword"
  | .xmmword => "xmmword"
  | .mword => "mword"
  | .far => "far"

/-- The part of a general register that has the size. -/
def Size.width : Size → Width
  | .byte => .byte
  | .word => .word
  | .dword => .dword
  | _ => .qword

inductive Segment where
  | es | cs | ss | ds | fs | gs
  deriving DecidableEq

namespace Segment

def name : Segment → String
  | .es => "es"
  | .cs => "cs"
  | .ss => "ss"
  | .ds => "ds"
  | .fs => "fs"
  | .gs => "gs"

/-- The segments in the order of their numbers. -/
def all : List Segment := [.es, .cs, .ss, .ds, .fs, .gs]

end Segment

inductive Arg where
  | register (r : Register)
  | immediate (value : Int)
  /-- How far a jump goes, from its own end. -/
  | distance (value : Int)
  | memory (size : Size) (segment : Option Segment) (m : Memory)
  /-- Memory at an address of 16 bits. -/
  | shortAddress (size : Size) (segment : Option Segment) (address : Nat)
  | system (name : String)
  | vector (number : Nat)
  deriving DecidableEq

namespace Arg

/-- What the sandbox sees of the operand. -/
def operand : Arg → Operand
  | .register r => .register r
  | .immediate v => .immediate v
  | .distance v => .immediate v
  | .memory _ _ m => .memory m
  | .shortAddress _ _ _ => .other
  | .system name => .system name
  | .vector _ => .other

def isMemory : Arg → Bool
  | .memory _ _ _ | .shortAddress _ _ _ => true
  | _ => false

/-- An index always shows its scale, and a displacement of zero is not shown. An address without
registers is shown as a word. -/
def addressText (m : Memory) : String :=
  let registers := m.base.toList.map Register.name ++
    m.index.toList.map fun r => s!"{r.name} * {m.scale}"
  if registers.isEmpty then Text.wordHex m.displacement
  else
    " + ".intercalate registers ++
      if m.displacement = 0 then ""
      else (if m.displacement < 0 then " - " else " + ") ++ Text.hex m.displacement.natAbs

def placeText (size : Size) (segment : Option Segment) (address : String) : String :=
  s!"{size.text} " ++ (segment.map (·.name ++ ":")).getD "" ++ s!"[{address}]"

def text : Arg → String
  | .register r => r.name
  | .immediate v => Text.signedHex v
  | .distance v => "$" ++ (if v < 0 then "" else "+") ++ Text.signedHex v
  | .memory size segment m => placeText size segment (addressText m)
  | .shortAddress size segment address => placeText size segment (Text.hex address)
  | .system name => name
  | .vector number => s!"xmm{number}"

end Arg

end FaultIsolation.Encoding
