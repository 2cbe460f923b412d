import FaultIsolation.Encoding.Encoded
import FaultIsolation.Encoding.Place

/-!
The instructions whose opcode is one byte, in the order of the opcodes.
-/

namespace FaultIsolation.Encoding.OneByte

def arithmetic (ctx : Context) (b : Nat) : Read Encoded := do
  let mnemonic := pick arithmeticNames (b / 8)
  let size := ctx.sizeOf b
  match b % 8 with
  | 0 | 1 =>
    let (e, g) ← ctx.selectPair size size
    return { mnemonic, args := [e, g], lockable := mnemonic != "cmp" }
  | 2 | 3 =>
    let (e, g) ← ctx.selectPair size size
    return { mnemonic, args := [g, e] }
  | _ => return { mnemonic, args := [ctx.accumulator size, ← immediate size] }

/-- Segment registers on the stack, in 32-bit code only. -/
def segmentStack (ctx : Context) (b : Nat) : Read Encoded :=
  match ctx.mode, Segment.all[b / 8]? with
  | .bits32, some segment =>
    if b < 0x20 then
      return { mnemonic := if b % 2 = 0 then "push" else "pop", args := [.system segment.name] }
    else .fail .invalidOpcode
  | _, _ => .fail .invalidOpcode

/-- Short forms that 64-bit code has given up for a prefix. -/
def count (ctx : Context) (b : Nat) : Read Encoded :=
  match ctx.mode with
  | .bits32 =>
    return {
      mnemonic := if b < 0x48 then "inc" else "dec"
      args := [ctx.register ctx.operandSize (b % 8)] }
  | .bits64 => .fail .invalidOpcode

def registerStack (ctx : Context) (b : Nat) : Read Encoded :=
  return {
    mnemonic := if b < 0x58 then "push" else "pop"
    args := [ctx.register ctx.stackSize (ctx.extend Rex.base (b % 8))] }

def push (size : Size) : Read Encoded := do
  return { mnemonic := "push", args := [← immediate size] }

def multiply (ctx : Context) (size : Size) : Read Encoded := do
  let (e, g) ← ctx.selectPair ctx.operandSize ctx.operandSize
  return { mnemonic := "imul", args := [g, e, ← immediate size] }

def jump (mnemonic : String) (length : Nat) : Read Encoded := do
  return { mnemonic, args := [.distance (← Read.signed length)] }

def arithmeticImmediate (ctx : Context) (size immediateSize : Size) : Read Encoded := do
  let s ← ctx.select
  let mnemonic := pick arithmeticNames s.field
  return {
    mnemonic
    args := [s.place.arg ctx size, ← immediate immediateSize]
    lockable := mnemonic != "cmp" }

def test (ctx : Context) (size : Size) : Read Encoded := do
  let (e, g) ← ctx.selectPair size size
  return { mnemonic := "test", args := [e, g] }

def exchange (ctx : Context) (size : Size) : Read Encoded := do
  let (e, g) ← ctx.selectPair size size
  return { mnemonic := "xchg", args := [e, g], lockable := true }

def store (ctx : Context) (size : Size) : Read Encoded := do
  let (e, g) ← ctx.selectPair size size
  return { mnemonic := "mov", args := [e, g] }

def load (ctx : Context) (size : Size) : Read Encoded := do
  let (e, g) ← ctx.selectPair size size
  return { mnemonic := "mov", args := [g, e] }

def storeSegment (ctx : Context) : Read Encoded := do
  let s ← ctx.select
  match Segment.all[s.field]? with
  | some segment =>
    return { mnemonic := "mov", args := [s.place.arg ctx .word, .system segment.name] }
  | none => .fail .invalidOperand

/-- The code segment is only loaded by a far transfer. -/
def loadSegment (ctx : Context) : Read Encoded := do
  let s ← ctx.select
  match Segment.all[s.field]? with
  | some .cs | none => .fail .invalidOperand
  | some segment =>
    return { mnemonic := "mov", args := [.system segment.name, s.place.arg ctx .word] }

def loadAddress (ctx : Context) : Read Encoded := do
  let s ← ctx.select
  let size := ctx.operandSize
  if s.place.isRegister then .fail .invalidOperand
  else
    return {
      mnemonic := "lea"
      args := [ctx.register size (ctx.extend Rex.field s.field), s.place.arg ctx size] }

/-- Exchanging the accumulator with itself is how nothing is done. -/
def exchangeAccumulator (ctx : Context) (b : Nat) : Read Encoded :=
  let n := ctx.extend Rex.base (b % 8)
  if n = 0 then return { mnemonic := "nop" }
  else
    let size := ctx.operandSize
    return { mnemonic := "xchg", args := [ctx.accumulator size, ctx.register size n] }

/-- The name for the operand size. -/
def bySize (ctx : Context) (word dword qword : String) : Read Encoded :=
  return {
    mnemonic :=
      match ctx.operandSize with
      | .word => word
      | .qword => qword
      | _ => dword }

/-- A full address after the opcode. -/
def addressed (ctx : Context) (size : Size) : Read Arg := do
  match ctx.addressWidth with
  | .word => return ctx.shortAddress size (← Read.unsigned 2)
  | .qword => return ctx.memory size { displacement := ← Read.signed 8 }
  | _ => return ctx.memory size { displacement := ← Read.unsigned 4 }

def loadAddressed (ctx : Context) (size : Size) : Read Encoded := do
  return { mnemonic := "mov", args := [ctx.accumulator size, ← addressed ctx size] }

def storeAddressed (ctx : Context) (size : Size) : Read Encoded := do
  return { mnemonic := "mov", args := [← addressed ctx size, ctx.accumulator size] }

/-- String operations. The destination's segment is fixed; the source's can be overridden. A
comparison is written with the two segments the other way round. -/
def string (ctx : Context) (b : Nat) : Read Encoded :=
  let size := ctx.sizeOf b
  let a := ctx.accumulator size
  let segment := some (ctx.legacy.segment.getD .ds)
  let place (s : Option Segment) (f : Family) : Arg :=
    .memory size s { base := some (ctx.pointer f) }
  match b / 2 with
  | 0x52 => return { mnemonic := "movs", args := [place (some .es) .rdi, place segment .rsi] }
  | 0x53 => return { mnemonic := "cmps", args := [place segment .rdi, place (some .es) .rsi] }
  | 0x55 => return { mnemonic := "stos", args := [place (some .es) .rdi, a] }
  | 0x56 => return { mnemonic := "lods", args := [a, place segment .rsi] }
  | _ => return { mnemonic := "scas", args := [place (some .es) .rdi, a] }

def testImmediate (ctx : Context) (size : Size) : Read Encoded := do
  return { mnemonic := "test", args := [ctx.accumulator size, ← immediate size] }

/-- A constant to a register. Only here can it have eight bytes, and a byte has no sign. -/
def constant (ctx : Context) (b : Nat) : Read Encoded := do
  let n := ctx.extend Rex.base (b % 8)
  if b < 0xb8 then
    return { mnemonic := "mov", args := [ctx.register .byte n, .immediate (← Read.unsigned 1)] }
  else
    let size := ctx.operandSize
    let value ← if size = .qword then Arg.immediate <$> Read.signed 8 else immediate size
    return { mnemonic := "mov", args := [ctx.register size n, value] }

/-- A shift by what `amount` reads. -/
def shift (ctx : Context) (b : Nat) (amount : Read Arg) : Read Encoded := do
  let s ← ctx.select
  return {
    mnemonic := pick shiftNames s.field
    args := [s.place.arg ctx (ctx.sizeOf b), ← amount] }

def storeImmediate (ctx : Context) (size : Size) : Read Encoded := do
  let s ← ctx.select
  if s.field = 0 then
    return { mnemonic := "mov", args := [s.place.arg ctx size, ← immediate size] }
  else .fail .invalidOperand

/-- An operation on constants without a sign, of the lengths given. -/
def onConstants (mnemonic : String) (lengths : List Nat) : Read Encoded := do
  return { mnemonic, args := ← lengths.mapM fun n => do return .immediate (← Read.unsigned n) }

def takeIn (ctx : Context) (b : Nat) : Read Encoded := do
  return {
    mnemonic := "in"
    args := [ctx.accumulator (ctx.channelSize b), .immediate (← Read.unsigned 1)] }

def putOut (ctx : Context) (b : Nat) : Read Encoded :=
  return {
    mnemonic := "out"
    args := [.register ⟨.rdx, .word⟩, ctx.accumulator (ctx.channelSize b)] }

def unary (ctx : Context) (size : Size) : Read Encoded := do
  let s ← ctx.select
  let mnemonic := pick unaryNames s.field
  let e := s.place.arg ctx size
  if s.field < 2 then return { mnemonic, args := [e, ← immediate size] }
  else return { mnemonic, args := [e], lockable := s.field < 4 }

/-- Counting, and transfers and pushes through a place. Only counting has a form for bytes. -/
def group (ctx : Context) (b : Nat) : Read Encoded := do
  let s ← ctx.select
  let encoded (size : Size) : Read Encoded :=
    return {
      mnemonic := pick groupNames s.field
      args := [s.place.arg ctx size]
      lockable := s.field < 2 }
  match s.field with
  | 0 | 1 => encoded (ctx.sizeOf b)
  | 7 => .fail .invalidOpcode
  | field =>
    if b % 2 = 0 then .fail .invalidOpcode
    else
      match field with
      | 2 | 4 => encoded ctx.codeSize
      | 6 => encoded (if s.place.isRegister then ctx.operandSize else ctx.stackSize)
      | _ => if s.place.isRegister then .fail .invalidOperand else encoded ctx.farSize

/-- An instruction without operands. -/
def plain (mnemonic : String) : Read Encoded :=
  return { mnemonic }

/-- The instruction of an opcode. -/
def read (ctx : Context) (b : Nat) : Read Encoded :=
  let size := ctx.sizeOf b
  if b < 0x40 then if b % 8 < 6 then arithmetic ctx b else segmentStack ctx b
  else if b < 0x50 then count ctx b
  else if b < 0x60 then registerStack ctx b
  else if 0x70 ≤ b ∧ b < 0x80 then jump ("j" ++ pick conditions (b % 16)) 1
  else if 0x90 ≤ b ∧ b < 0x98 then exchangeAccumulator ctx b
  else if 0xb0 ≤ b ∧ b < 0xc0 then constant ctx b
  else
    match b with
    | 0x68 => push (if ctx.legacy.shortOperand then .word else .dword)
    | 0x6a => push .byte
    | 0x69 => multiply ctx ctx.operandSize
    | 0x6b => multiply ctx .byte
    | 0x80 => arithmeticImmediate ctx size .byte
    | 0x81 => arithmeticImmediate ctx size size
    | 0x83 => arithmeticImmediate ctx size .byte
    | 0x84 | 0x85 => test ctx size
    | 0x86 | 0x87 => exchange ctx size
    | 0x88 | 0x89 => store ctx size
    | 0x8a | 0x8b => load ctx size
    | 0x8c => storeSegment ctx
    | 0x8d => loadAddress ctx
    | 0x8e => loadSegment ctx
    | 0x98 => bySize ctx "cbw" "cwde" "cdqe"
    | 0x99 => bySize ctx "cwd" "cdq" "cqo"
    | 0xa0 | 0xa1 => loadAddressed ctx size
    | 0xa2 | 0xa3 => storeAddressed ctx size
    | 0xa4 | 0xa5 | 0xa6 | 0xa7 => string ctx b
    | 0xa8 | 0xa9 => testImmediate ctx size
    | 0xaa | 0xab | 0xac | 0xad | 0xae | 0xaf => string ctx b
    | 0xc0 | 0xc1 => shift ctx b (immediate .byte)
    | 0xc2 => onConstants "ret" [2]
    | 0xc3 => plain "ret"
    | 0xc6 | 0xc7 => storeImmediate ctx size
    | 0xc8 => onConstants "enter" [2, 1]
    | 0xc9 => plain "leave"
    | 0xcc => return { mnemonic := "int", args := [.immediate 3] }
    | 0xcd => onConstants "int" [1]
    | 0xd0 | 0xd1 => shift ctx b (return .immediate 1)
    | 0xd2 | 0xd3 => shift ctx b (return .register ⟨.rcx, .byte⟩)
    | 0xe4 | 0xe5 => takeIn ctx b
    | 0xe8 => return { mnemonic := "call", args := [← immediate .dword] }
    | 0xe9 => jump "jmp" 4
    | 0xeb => jump "jmp" 1
    | 0xee | 0xef => putOut ctx b
    | 0xf4 => plain "hlt"
    | 0xf5 => plain "cmc"
    | 0xf6 | 0xf7 => unary ctx size
    | 0xf8 => plain "clc"
    | 0xf9 => plain "stc"
    | 0xfa => plain "cli"
    | 0xfb => plain "sti"
    | 0xfc => plain "cld"
    | 0xfd => plain "std"
    | 0xfe | 0xff => group ctx b
    | _ => .fail .invalidOpcode

end FaultIsolation.Encoding.OneByte
