import FaultIsolation.Encoding.Encoded
import FaultIsolation.Encoding.Place

/-!
The instructions whose opcode is `0x0f` and one byte more, in the order of the opcodes.
-/

namespace FaultIsolation.Encoding.TwoByte

/-- A place and a register, or the other way round. -/
def placeFirst (ctx : Context) (mnemonic : String) (size : Size) (lockable : Bool) :
    Read Encoded := do
  let (e, g) ← ctx.selectPair size size
  return { mnemonic, args := [e, g], lockable }

def registerFirst (ctx : Context) (mnemonic : String) : Read Encoded := do
  let (e, g) ← ctx.selectPair ctx.operandSize ctx.operandSize
  return { mnemonic, args := [g, e] }

/-- A register from a smaller place. -/
def widen (ctx : Context) (mnemonic : String) (size : Size) : Read Encoded := do
  let (e, g) ← ctx.selectPair size ctx.operandSize
  return { mnemonic, args := [g, e] }

def doubleShift (ctx : Context) (mnemonic : String) : Read Encoded := do
  let (e, g) ← ctx.selectPair ctx.operandSize ctx.operandSize
  return { mnemonic, args := [e, g, ← immediate .byte] }

def onPlace (ctx : Context) (mnemonic : String) (size : Size) : Read Encoded := do
  let s ← ctx.select
  return { mnemonic, args := [s.place.arg ctx size] }

/-- The general register and the name of the special one. There are four control registers. -/
def special (ctx : Context) (isControl : Bool) : Read (Arg × Arg) := do
  let s ← ctx.select
  if !s.place.isRegister ∨ isControl ∧ s.field ∉ [0, 2, 3, 4] then .fail .invalidOperand
  else
    let name := (if isControl then "cr" else "dr") ++ toString s.field
    return (s.place.arg ctx ctx.codeSize, .system name)

def fromSpecial (ctx : Context) (isControl : Bool) : Read Encoded := do
  let (general, name) ← special ctx isControl
  return { mnemonic := "mov", args := [general, name] }

def toSpecial (ctx : Context) (isControl : Bool) : Read Encoded := do
  let (general, name) ← special ctx isControl
  return { mnemonic := "mov", args := [name, general] }

/-- A vector instruction on single or, with short operands, on double precision numbers. -/
def vector (ctx : Context) (stem : String) (storing : Bool) : Read Encoded := do
  let s ← ctx.select
  let e := s.place.vectorArg ctx
  let g := Arg.vector (ctx.extend Rex.field s.field)
  return {
    mnemonic := stem ++ (if ctx.legacy.shortOperand then "d" else "s")
    args := if storing then [e, g] else [g, e] }

/-- A name that the prefix `rep` changes. -/
def byRepeat (ctx : Context) (ordinary repeated : String) : String :=
  if ctx.legacy.repeats = some .rep then repeated else ordinary

def system (mnemonic : String) (segment : Segment) : Read Encoded :=
  return { mnemonic, args := [.system segment.name] }

def plain (mnemonic : String) : Read Encoded :=
  return { mnemonic }

/-- The instruction of the opcode's second byte. -/
def read (ctx : Context) (b : Nat) : Read Encoded :=
  let size := ctx.operandSize
  if 0x40 ≤ b ∧ b < 0x50 then registerFirst ctx ("cmov" ++ pick conditions (b % 16))
  else if 0x80 ≤ b ∧ b < 0x90 then
    return { mnemonic := "j" ++ pick conditions (b % 16), args := [.distance (← Read.signed 4)] }
  else if 0x90 ≤ b ∧ b < 0xa0 then onPlace ctx ("set" ++ pick setConditions (b % 16)) .byte
  else
    match b with
    | 0x05 => plain "syscall"
    | 0x0b => plain "ud2"
    | 0x1f => onPlace ctx "nop" size
    | 0x20 => fromSpecial ctx true
    | 0x21 => fromSpecial ctx false
    | 0x22 => toSpecial ctx true
    | 0x23 => toSpecial ctx false
    | 0x28 => vector ctx "movap" false
    | 0x29 => vector ctx "movap" true
    | 0x31 => plain "rdtsc"
    | 0x57 => vector ctx "xorp" false
    | 0xa0 => system "push" .fs
    | 0xa1 => system "pop" .fs
    | 0xa2 => plain "cpuid"
    | 0xa3 => placeFirst ctx "bt" size false
    | 0xa4 => doubleShift ctx "shld"
    | 0xa8 => system "push" .gs
    | 0xa9 => system "pop" .gs
    | 0xab => placeFirst ctx "bts" size true
    | 0xac => doubleShift ctx "shrd"
    | 0xaf => registerFirst ctx "imul"
    | 0xb0 | 0xb1 => placeFirst ctx "cmpxchg" (ctx.sizeOf b) true
    | 0xb3 => placeFirst ctx "btr" size true
    | 0xb6 => widen ctx "movzx" .byte
    | 0xb7 => widen ctx "movzx" .word
    | 0xb8 =>
      if ctx.legacy.repeats = some .rep then registerFirst ctx "popcnt" else .fail .invalidOpcode
    | 0xbb => placeFirst ctx "btc" size true
    | 0xbc => registerFirst ctx (byRepeat ctx "bsf" "tzcnt")
    | 0xbd => registerFirst ctx (byRepeat ctx "bsr" "lzcnt")
    | 0xbe => widen ctx "movsx" .byte
    | 0xbf => widen ctx "movsx" .word
    | 0xc0 | 0xc1 => placeFirst ctx "xadd" (ctx.sizeOf b) true
    | _ => .fail .invalidOpcode

end FaultIsolation.Encoding.TwoByte
