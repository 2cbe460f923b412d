import FaultIsolation.Register
import FaultIsolation.Text.Space
import FaultIsolation.Word

/-!
Reading a register from its name. Blanks around the name and the case of its letters do not matter.
-/

namespace FaultIsolation.Register

/-- The registers with a name of their own, as opposed to a number. -/
def named : List Register :=
  [⟨.rip, .qword⟩, ⟨.rip, .dword⟩, ⟨.rax, .highByte⟩, ⟨.rcx, .highByte⟩, ⟨.rdx, .highByte⟩,
    ⟨.rbx, .highByte⟩] ++
  Family.legacy.flatMap fun f => [⟨f, .qword⟩, ⟨f, .dword⟩, ⟨f, .word⟩, ⟨f, .byte⟩]

def digitValue (c : Char) : Nat :=
  c.toNat - '0'.toNat

/-- A number with one more digit at its end, as long as a 64-bit word holds it. -/
def pushDigit? (n : Nat) (c : Char) : Option Nat :=
  if c.isDigit && 10 * n + digitValue c < Word.count then some (10 * n + digitValue c) else none

/-- A number in decimal digits, of which there is at least one. -/
def digits? (cs : List Char) : Option Nat :=
  if cs.isEmpty then none else cs.foldlM pushDigit? 0

/-- A number, which a plus sign may precede. -/
def number? : List Char → Option Nat
  | '+' :: cs => digits? cs
  | cs => digits? cs

/-- The letter after the number tells the width, and no letter means the whole register. -/
def splitWidth (cs : List Char) : List Char × Width :=
  match cs.getLast? with
  | some 'd' => (cs.dropLast, .dword)
  | some 'w' => (cs.dropLast, .word)
  | some 'b' => (cs.dropLast, .byte)
  | some 'l' => (cs.dropLast, .byte)
  | _ => (cs, .qword)

/-- The registers from the ninth on are named by number. -/
def numbered? : List Char → Option Register
  | 'r' :: cs => do
    let n ← number? (splitWidth cs).1
    guard (8 ≤ n)
    let f ← Family.general[n]?
    return ⟨f, (splitWidth cs).2⟩
  | _ => none

def ofChars? (cs : List Char) : Option Register :=
  named.find? (·.name.toList == cs) <|> numbered? cs

def ofName? (s : String) : Option Register :=
  ofChars? ((Text.trim s.toList).map Char.toLower)

end FaultIsolation.Register
