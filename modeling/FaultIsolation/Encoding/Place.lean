import FaultIsolation.Encoding.Context
import FaultIsolation.Encoding.Read

/-!
The byte after an opcode that selects two operands: one by the number in its middle field, and the
other, a register or memory, by the rest of the byte and the bytes after it.
-/

namespace FaultIsolation.Encoding

inductive Place where
  | register (n : Nat)
  | memory (m : Memory)
  | shortAddress (address : Nat)
  deriving DecidableEq

structure Selected where
  /-- The middle field, which some opcodes use to tell operations apart. -/
  field : Nat
  place : Place
  deriving DecidableEq

namespace Place

def isRegister : Place → Bool
  | .register _ => true
  | _ => false

/-- The place as an operand of a size. -/
def arg (ctx : Context) (size : Size) : Place → Arg
  | .register n => ctx.register size n
  | .memory m => ctx.memory size m
  | .shortAddress address => ctx.shortAddress size address

/-- The place where a register is a vector register. -/
def vectorArg (ctx : Context) : Place → Arg
  | .register n => .vector n
  | place => place.arg ctx .xmmword

end Place

/-- The displacement of an address, which the top field of the byte tells the length of. -/
def displacement (top longest : Nat) : Read Int :=
  match top with
  | 1 => Read.signed 1
  | 2 => Read.signed longest
  | _ => return 0

/-- The registers that addresses of 16 bits are made of. -/
def shortBases : List (Family × Option Family) :=
  [(.rbx, some .rsi), (.rbx, some .rdi), (.rbp, some .rsi), (.rbp, some .rdi),
    (.rsi, none), (.rdi, none), (.rbp, none), (.rbx, none)]

/-- A constant operand. There are none of eight bytes: the longest are sign-extended. -/
def immediate (size : Size) : Read Arg := do
  match size with
  | .byte => return .immediate (← Read.signed 1)
  | .word => return .immediate (← Read.signed 2)
  | _ => return .immediate (← Read.signed 4)

namespace Context

def shortPlace (ctx : Context) (top low : Nat) : Read Place := do
  if top = 0 ∧ low = 6 then return .shortAddress (← Read.unsigned 2)
  let (base, index) := shortBases.getD low (.rbx, none)
  return .memory {
    base := some (ctx.pointer base)
    index := index.map ctx.pointer
    displacement := ← displacement top 2 }

/-- An address without registers is the displacement alone, zero-extended. -/
def baseless (ctx : Context) (index : Option Family) (scale : Nat) : Read Place := do
  match index with
  | none => return .memory { displacement := ← Read.unsigned 4 }
  | some f =>
    return .memory { index := some (ctx.pointer f), scale, displacement := ← Read.signed 4 }

/-- An address with a scaled index, or with a base that the shorter form has no number for. -/
def scaledPlace (ctx : Context) (top : Nat) : Read Place := do
  let b ← Read.byte
  let n := ctx.extend Rex.index (b / 8 % 8)
  let (index, scale) := if n = 4 then (none, 1) else (some (.ofNumber n), Nat.pow 2 (b / 64))
  if top = 0 ∧ b % 8 = 5 then ctx.baseless index scale
  else
    return .memory {
      base := some (ctx.pointer (.ofNumber (ctx.extend Rex.base (b % 8))))
      index := index.map ctx.pointer
      scale
      displacement := ← displacement top 4 }

def memoryPlace (ctx : Context) (top low : Nat) : Read Place := do
  if low = 4 then ctx.scaledPlace top
  else if top = 0 ∧ low = 5 then
    match ctx.mode with
    | .bits32 => ctx.baseless none 1
    | .bits64 =>
      return .memory { base := some (ctx.pointer .rip), displacement := ← Read.signed 4 }
  else
    return .memory {
      base := some (ctx.pointer (.ofNumber (ctx.extend Rex.base low)))
      displacement := ← displacement top 4 }

def select (ctx : Context) : Read Selected := do
  let b ← Read.byte
  let top := b / 64
  let low := b % 8
  let place ←
    if top = 3 then pure (.register (ctx.extend Rex.base low))
    else if ctx.addressWidth = .word then ctx.shortPlace top low
    else ctx.memoryPlace top low
  return { field := b / 8 % 8, place }

/-- The place and the register that the byte selects. -/
def selectPair (ctx : Context) (placeSize registerSize : Size) : Read (Arg × Arg) := do
  let s ← ctx.select
  return (s.place.arg ctx placeSize, ctx.register registerSize (ctx.extend Rex.field s.field))

end Context

end FaultIsolation.Encoding
