import FaultIsolation.Opcode
import FaultIsolation.Text.Lower

/-!
The opcodes that the sandbox knows. An opcode that is not in the table is not accepted.
-/

namespace FaultIsolation.Opcode

def writing (ms : List String) : List Opcode :=
  ms.map fun m => { mnemonic := m }

def reading (ms : List String) : List Opcode :=
  ms.map fun m => { mnemonic := m, writes := .nothing }

def jumping (ms : List String) : List Opcode :=
  ms.map fun m => { mnemonic := m, flow := .jump, writes := .nothing }

def rejected (why : Rejection) (ms : List String) : List Opcode :=
  ms.map fun m => { mnemonic := m, writes := .nothing, rejection := some why }

def arithmetic : List Opcode :=
  writing ["add", "adc", "sub", "sbb", "inc", "dec", "neg"] ++
  [{ mnemonic := "imul", writes := .firstOfSeveral }] ++
  reading ["mul", "div", "idiv", "cmp", "cbw", "cwde", "cdqe", "cwd", "cdq", "cqo"]

def logic : List Opcode :=
  writing ["and", "or", "xor", "not"] ++
  reading ["test"] ++
  writing ["shl", "sal", "shr", "sar", "rol", "ror", "rcl", "rcr", "shld", "shrd"]

/-- The bit scans leave their destination alone when the source is zero, upper half included. -/
def bits : List Opcode :=
  reading ["bt"] ++
  writing ["bts", "btr", "btc"] ++
  ["bsf", "bsr"].map (fun m => { mnemonic := m, zeroExtends := false }) ++
  writing ["bswap", "popcnt", "lzcnt", "tzcnt"]

def moves : List Opcode :=
  writing ["mov", "movzx", "movsx", "movsxd", "movbe"] ++
  [{ mnemonic := "lea", dereferences := false }] ++
  ["xchg", "xadd"].map (fun m => { mnemonic := m, writes := .firstTwo }) ++
  writing ["cmpxchg"] ++
  reading ["push"] ++
  writing ["pop"] ++
  ["leave", "enter"].map fun m => { mnemonic := m, writes := .frame }

def conditional : List Opcode :=
  writing ["cmovo", "cmovno", "cmovb", "cmovnb", "cmovz", "cmovnz", "cmovna", "cmova", "cmovs",
    "cmovns", "cmovp", "cmovnp", "cmovl", "cmovge", "cmovle", "cmovg"] ++
  writing ["seto", "setno", "setb", "setae", "setz", "setnz", "setbe", "seta", "sets", "setns",
    "setp", "setnp", "setl", "setge", "setle", "setg"]

def flags : List Opcode :=
  reading ["clc", "stc", "cmc", "cld", "std", "lahf", "sahf", "pushf", "popf", "cpuid", "rdtsc",
    "pause", "mfence", "lfence", "sfence"] ++
  [{ mnemonic := "nop", writes := .nothing, dereferences := false }] ++
  reading ["hlt"]

def vector : List Opcode :=
  writing ["movd", "movq", "movss", "movsd", "movaps", "movups", "movapd", "movupd", "movdqa",
    "movdqu", "addss", "addsd", "subss", "subsd", "mulss", "mulsd", "divss", "divsd", "sqrtsd",
    "xorps", "xorpd", "pxor", "paddd", "psubd"] ++
  reading ["ucomiss", "ucomisd", "comiss", "comisd"] ++
  writing ["cvtsi2ss", "cvtsi2sd", "cvttss2si", "cvttsd2si", "cvtss2sd", "cvtsd2ss"]

def branches : List Opcode :=
  jumping ["jmp"] ++
  [{ mnemonic := "call", flow := .call, writes := .nothing }] ++
  jumping ["jo", "jno", "jb", "jnb", "jae", "jz", "je", "jnz", "jne", "jna", "jbe", "ja", "js",
    "jns", "jp", "jnp", "jl", "jge", "jle", "jg"]

def refused : List Opcode :=
  rejected .stringOperation ["movs", "cmps", "stos", "lods", "scas"] ++
  rejected .returns ["ret", "retf"] ++
  rejected .farTransfer ["jmpf", "callf"] ++
  rejected .interrupt ["int", "int3", "into", "iret", "iretd", "iretq"] ++
  rejected .system ["syscall", "sysret", "sysenter", "sysexit", "cli", "sti", "clts", "lgdt",
    "lidt", "lldt", "ltr", "sgdt", "sidt", "invd", "wbinvd", "invlpg", "rdmsr", "wrmsr", "rdpmc",
    "swapgs"] ++
  rejected .inputOutput ["in", "out", "ins", "outs"] ++
  rejected .segmentLoad ["lds", "les", "lfs", "lgs", "lss"]

def table : List Opcode :=
  arithmetic ++ logic ++ bits ++ moves ++ conditional ++ flags ++ vector ++ branches ++ refused

/-- The row of a mnemonic, whatever the case of its letters. -/
def find? (mnemonic : String) : Option Opcode :=
  let name := Text.lower mnemonic
  table.find? (·.mnemonic == name)

end FaultIsolation.Opcode
