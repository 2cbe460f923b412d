/-!
The registers of the machine. A register is a family, named for its full 64-bit form, together with
the part of it that is addressed.
-/

namespace FaultIsolation

inductive Family where
  | rax | rcx | rdx | rbx | rsp | rbp | rsi | rdi
  | r8 | r9 | r10 | r11 | r12 | r13 | r14 | r15
  | rip
  deriving DecidableEq

inductive Width where
  | byte
  /-- Bits 8 to 15, which only the first four families can address. -/
  | highByte
  | word
  | dword
  | qword
  deriving DecidableEq

structure Register where
  family : Family
  width : Width
  deriving DecidableEq

namespace Family

/-- The families in the order of their numbers in machine code. -/
def general : List Family :=
  [.rax, .rcx, .rdx, .rbx, .rsp, .rbp, .rsi, .rdi,
    .r8, .r9, .r10, .r11, .r12, .r13, .r14, .r15]

/-- The family of a number below sixteen. -/
def ofNumber (n : Nat) : Family :=
  general.getD n .rax

def all : List Family :=
  general ++ [.rip]

/-- The families whose numbers fit three bits. -/
def legacy : List Family :=
  general.take 8

/-- The registers that hold an address inside the sandbox at every bundle start. -/
def pointsIntoSandbox : Family → Bool
  | .rsp | .rbp | .r15 => true
  | _ => false

def name : Family → String
  | .rax => "rax" | .rcx => "rcx" | .rdx => "rdx" | .rbx => "rbx"
  | .rsp => "rsp" | .rbp => "rbp" | .rsi => "rsi" | .rdi => "rdi"
  | .r8 => "r8" | .r9 => "r9" | .r10 => "r10" | .r11 => "r11"
  | .r12 => "r12" | .r13 => "r13" | .r14 => "r14" | .r15 => "r15"
  | .rip => "rip"

/-- The word name of a legacy family, from which its other names are formed. -/
def stem? : Family → Option String
  | .rax => "ax" | .rcx => "cx" | .rdx => "dx" | .rbx => "bx"
  | .rsp => "sp" | .rbp => "bp" | .rsi => "si" | .rdi => "di"
  | _ => none

/-- The lowest byte of a family. -/
def byteName : Family → String
  | .rax => "al" | .rcx => "cl" | .rdx => "dl" | .rbx => "bl"
  | .rsp => "spl" | .rbp => "bpl" | .rsi => "sil" | .rdi => "dil"
  | .rip => "eip"
  | f => f.name ++ "b"

/-- The second byte; a family without one answers with its lowest. -/
def highByteName : Family → String
  | .rax => "ah" | .rcx => "ch" | .rdx => "dh" | .rbx => "bh"
  | f => f.byteName

def wordName : Family → String
  | .rip => "eip"
  | f => f.stem?.getD (f.name ++ "w")

def dwordName : Family → String
  | .rip => "eip"
  | f => (f.stem?.map ("e" ++ ·)).getD (f.name ++ "d")

/-- The name of a family's part. -/
def partName (f : Family) : Width → String
  | .byte => f.byteName
  | .highByte => f.highByteName
  | .word => f.wordName
  | .dword => f.dwordName
  | .qword => f.name

def text (f : Family) : String :=
  "%" ++ f.name

end Family

namespace Register

def dword (f : Family) : Register := ⟨f, .dword⟩

def qword (f : Family) : Register := ⟨f, .qword⟩

def isDword (r : Register) : Bool := r.width == .dword

def isQword (r : Register) : Bool := r.width == .qword

def name (r : Register) : String := r.family.partName r.width

def text (r : Register) : String := "%" ++ r.name

end Register

end FaultIsolation
