import FaultIsolation.Encoding.Arg
import FaultIsolation.Mode

/-!
What stands before an opcode, and the sizes that follow from it.
-/

namespace FaultIsolation.Encoding

inductive Repeat where
  | rep
  | repnz
  deriving DecidableEq

def Repeat.text : Repeat → String
  | .rep => "rep"
  | .repnz => "repnz"

/-- The prefix bytes that every mode has. Of two that exclude each other the later one counts. -/
structure Legacy where
  lock : Bool := false
  /-- Operands have 16 bits. -/
  shortOperand : Bool := false
  /-- Addresses have half their bits. -/
  shortAddress : Bool := false
  repeats : Option Repeat := none
  segment : Option Segment := none
  deriving DecidableEq

namespace Legacy

def isPrefixByte (b : UInt8) : Bool :=
  [0xf0, 0x66, 0x67, 0xf3, 0xf2, 0x64, 0x65].contains b

def add (l : Legacy) (b : UInt8) : Legacy :=
  if b = 0xf0 then { l with lock := true }
  else if b = 0x66 then { l with shortOperand := true }
  else if b = 0x67 then { l with shortAddress := true }
  else if b = 0xf3 then { l with repeats := some .rep }
  else if b = 0xf2 then { l with repeats := some .repnz }
  else if b = 0x64 then { l with segment := some .fs }
  else if b = 0x65 then { l with segment := some .gs }
  else l

def ofBytes (bs : List UInt8) : Legacy :=
  bs.foldl add {}

def prefixes (l : Legacy) : Prefixes where
  lock := l.lock
  rep := l.repeats.isSome
  segment := l.segment.isSome

end Legacy

/-- The prefix of 64-bit code: wide operands, and a high bit for each register number. -/
structure Rex where
  wide : Bool
  field : Bool
  index : Bool
  base : Bool
  deriving DecidableEq

def Rex.ofByte (b : Nat) : Rex where
  wide := b / 8 % 2 == 1
  field := b / 4 % 2 == 1
  index := b / 2 % 2 == 1
  base := b % 2 == 1

structure Context where
  mode : Mode
  legacy : Legacy
  rex : Option Rex

namespace Context

/-- A register number of three bits and its high bit. -/
def extend (ctx : Context) (high : Rex → Bool) (n : Nat) : Nat :=
  if ctx.rex.any high then n + 8 else n

/-- The size of most operands. -/
def operandSize (ctx : Context) : Size :=
  if ctx.rex.any Rex.wide then .qword else if ctx.legacy.shortOperand then .word else .dword

/-- Opcodes come in pairs, of which the even one works on bytes. -/
def sizeOf (ctx : Context) (opcode : Nat) : Size :=
  if opcode % 2 = 0 then .byte else ctx.operandSize

/-- The size of what is pushed and popped. -/
def stackSize (ctx : Context) : Size :=
  if ctx.legacy.shortOperand then .word
  else
    match ctx.mode with
    | .bits32 => .dword
    | .bits64 => .qword

/-- The size of a code address. -/
def codeSize (ctx : Context) : Size :=
  match ctx.mode with
  | .bits32 => .dword
  | .bits64 => .qword

/-- The size of a far pointer. -/
def farSize (ctx : Context) : Size :=
  match ctx.mode with
  | .bits32 => .far
  | .bits64 => .mword

/-- The size of what is put in or out. -/
def channelSize (ctx : Context) (opcode : Nat) : Size :=
  if opcode % 2 = 0 then .byte else if ctx.legacy.shortOperand then .word else .dword

def addressWidth (ctx : Context) : Width :=
  match ctx.mode, ctx.legacy.shortAddress with
  | .bits32, true => .word
  | .bits32, false => .dword
  | .bits64, true => .dword
  | .bits64, false => .qword

/-- The register of a number. Without the 64-bit prefix the byte registers from the fifth on are
second bytes. -/
def register (ctx : Context) (size : Size) (n : Nat) : Arg :=
  if size = .byte ∧ ctx.rex.isNone ∧ 4 ≤ n ∧ n < 8 then .register ⟨.ofNumber (n - 4), .highByte⟩
  else .register ⟨.ofNumber n, size.width⟩

def accumulator (ctx : Context) (size : Size) : Arg :=
  ctx.register size 0

def memory (ctx : Context) (size : Size) (m : Memory) : Arg :=
  .memory size ctx.legacy.segment m

def shortAddress (ctx : Context) (size : Size) (address : Nat) : Arg :=
  .shortAddress size ctx.legacy.segment address

/-- A register as part of an address. -/
def pointer (ctx : Context) (f : Family) : Register :=
  ⟨f, ctx.addressWidth⟩

end Context

end FaultIsolation.Encoding
