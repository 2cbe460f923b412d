import FaultIsolation.Encoding.OneByte
import FaultIsolation.Encoding.TwoByte

/-!
Decoding machine code: a chunk is cut into instructions, each as long as the bytes it was read from.
-/

namespace FaultIsolation.Encoding

/-- The instruction whose opcode begins with `b`. -/
def operation (ctx : Context) (b : Nat) : Read Encoded := do
  if b = 0x0f then TwoByte.read ctx (← Read.byte) else OneByte.read ctx b

/-- What follows the prefix bytes that every mode has. -/
def body (mode : Mode) (legacy : Legacy) : Read Encoded := do
  let b ← Read.byte
  if mode = .bits64 ∧ 0x40 ≤ b ∧ b < 0x50 then
    operation { mode, legacy, rex := some (Rex.ofByte b) } (← Read.byte)
  else operation { mode, legacy, rex := none } b

/-- Only an instruction that writes to memory may be locked. -/
def Encoded.mayLock (e : Encoded) : Bool :=
  e.lockable && e.args.head?.any Arg.isMemory

/-- The string operations that show that they are repeated. -/
def showsRepeat (mnemonic : String) : Bool :=
  ["movs", "cmps", "stos", "lods"].contains mnemonic

def disassembly (legacy : Legacy) (e : Encoded) : String :=
  (if legacy.lock then "lock " else "") ++
  (if showsRepeat e.mnemonic then (legacy.repeats.map (·.text ++ " ")).getD "" else "") ++
  e.mnemonic ++
  (if e.args.isEmpty then "" else " " ++ ", ".intercalate (e.args.map Arg.text))

/-- The instruction at the front of the bytes, as if they began the code. -/
def decodeOne (mode : Mode) (bytes : List UInt8) : Except Fault Instruction := do
  let front := bytes.takeWhile Legacy.isPrefixByte
  let legacy := Legacy.ofBytes front
  let (e, n) ← (body mode legacy).run (bytes.dropWhile Legacy.isPrefixByte)
  if legacy.lock && !e.mayLock then throw .invalidPrefixes
  return {
    address := 0
    length := front.length + n
    mnemonic := e.mnemonic
    operands := e.args.map Arg.operand
    prefixes := legacy.prefixes
    disassembly := disassembly legacy e }

/-- The instructions in the bytes from `address` on, after the first `skip` bytes, which belong to
an instruction before. Each is read by `one` from the bytes that it begins. -/
def decodeAfter (one : List UInt8 → Except Fault Instruction) :
    (skip address : Nat) → List UInt8 → Except DecodeError (List Instruction)
  | _, _, [] => .ok []
  | skip + 1, address, _ :: bytes => decodeAfter one skip (address + 1) bytes
  | 0, address, b :: bytes =>
    match one (b :: bytes) with
    | .error fault => .error ⟨address, fault⟩
    | .ok i => (decodeAfter one (i.length - 1) (address + 1) bytes).map ({ i with address } :: ·)

/-- The code that is read by `one`. -/
def decodeWith (one : List UInt8 → Except Fault Instruction) (bytes : List UInt8) :
    Except DecodeError (List Instruction) :=
  decodeAfter one 0 0 bytes

def decode (mode : Mode) (bytes : List UInt8) : Except DecodeError (List Instruction) :=
  decodeWith (decodeOne mode) bytes

end FaultIsolation.Encoding
