import FaultIsolation.Chunk
import FaultIsolation.Proofs.Execution

namespace FaultIsolation

namespace Width

def low : Width → Nat
  | .highByte => 8
  | _ => 0

def mask : Width → BitVec 64
  | .byte => 0xff
  | .highByte => 0xff00
  | .word => 0xffff
  | .dword => 0xffffffff
  | .qword => 0xffffffffffffffff

end Width

def Register.read (r : Register) (σ : RegisterFile) : BitVec 64 :=
  (σ r.family &&& r.width.mask) >>> r.width.low

/-- What an address register contributes; without one, nothing. -/
def Register.addend (σ : RegisterFile) : Option Register → Nat
  | none => 0
  | some r => (r.read σ).toNat

/-- The sum that a reference stands for, before it is cut to a word. -/
def Memory.address (m : Memory) (σ : RegisterFile) : Int :=
  Register.addend σ m.base + Register.addend σ m.index * m.scale + m.displacement

section
variable {σ : RegisterFile} {r : Register}

theorem Register.width_qword (h : r.isQword = true) : r.width = .qword := by
  simpa [Register.isQword] using h

theorem Register.read_full (h : r.isQword = true) : r.read σ = σ r.family := by
  have hones : Width.qword.mask = BitVec.allOnes 64 := rfl
  have hlow : Width.qword.low = 0 := rfl
  rw [Register.read, Register.width_qword h, hones, hlow, BitVec.and_allOnes,
    BitVec.ushiftRight_zero]

theorem Register.addend_full (h : r.isQword = true) :
    Register.addend σ (some r) = (σ r.family).toNat := by
  rw [Register.addend, Register.read_full h]

end

namespace Region
variable {g : Region} {c : Condition} {σ : RegisterFile} {f : Family}

/-- Where no pointer has yet to be moved back, each points into the sandbox, and so does the base
register. -/
theorem Meets.anchor (h : g.Meets c σ) (hc : c.covers .default = true)
    (hf : f.pointsIntoSandbox = true) : g.Holds (σ f) := by
  have hdefault := h.of_covers hc
  rcases Family.points_into_sandbox_iff.mp hf with hf | hf | hf
  · exact hdefault.pointer (Or.inl hf) (by simp)
  · exact hdefault.pointer (Or.inr hf) (by simp)
  · rw [hf]
    simp only [Holds, h.base, span]
    omega

/-- The sum of an address in the sandbox, a multiple of an offset and a displacement. -/
theorem near_of_parts {base index scale : Nat} {displacement : Int}
    (hbase : g.base ≤ base ∧ base < g.base + span) (hindex : index < span)
    (hd : -0x80000000 ≤ displacement ∧ displacement < 0x80000000) :
    (g.base : Int) - 0x80000000 ≤ base + index * scale + displacement ∧
      (base : Int) + index * scale + displacement <
        g.base + (1 + scale) * span + 0x80000000 := by
  have hproduct : index * scale ≤ span * scale :=
    Nat.mul_le_mul_right scale (Nat.le_of_lt hindex)
  rw [← Int.natCast_mul]
  generalize index * scale = product at hproduct ⊢
  simp only [span] at hbase hproduct ⊢
  omega

end Region

section
variable {g : Region} {i : Instruction} {e : Effect} {op : Opcode} {σ : RegisterFile} {m : Memory}
  {r : Register}

/-- A memory access of an instruction that is accepted on its own in 64-bit code, unless it is
relative to the instruction pointer, is made near the sandbox, where the condition that the
instruction needs is true. It is made at most 2 GiB below it, and above it at most as far as the
scaled index and 2 GiB more reach. -/
theorem access_near_sandbox (accepted : Rule.single .bits64 i = .accept e)
    (opcode : i.opcode? = some op) (dereferences : op.dereferences = true)
    (ordinary : Rule.pointerUpdate? i = none) (meets : g.Meets e.pre σ) (mem : m ∈ i.memories)
    (absolute : ∀ base, m.base = some base → base.family ≠ .rip)
    (signed : -0x80000000 ≤ m.displacement ∧ m.displacement < 0x80000000) :
    (g.base : Int) - 0x80000000 ≤ m.address σ ∧
      m.address σ < g.base + (1 + m.scale) * Region.span + 0x80000000 := by
  have hrefs := Rule.single_references accepted opcode dereferences ordinary
  obtain ⟨need, href, hneed⟩ := hrefs.each m mem
  cases href with
  | relative base based family unindexed => exact absurd family (absolute base based)
  | pointer base based family wide unindexed =>
    have hbase := meets.anchor hrefs.covers family
    have hindex : Register.addend σ none < Region.span := by simp [Register.addend, Region.span]
    rw [Memory.address, based, unindexed, Register.addend_full wide]
    exact Region.near_of_parts hbase hindex signed
  | indexed base index based family wide indexed wideIndex free =>
    have hbase := meets.anchor hrefs.covers family
    have hindex := meets.extended index.family (hneed _ rfl)
    rw [Memory.address, based, indexed, Register.addend_full wide, Register.addend_full wideIndex]
    exact Region.near_of_parts hbase hindex signed

/-- The address registers of an instruction that is accepted on its own in 64-bit code are whole
ones. Only a part of the instruction pointer passes as well, as a base without an index. -/
theorem address_registers_whole (accepted : Rule.single .bits64 i = .accept e)
    (opcode : i.opcode? = some op) (dereferences : op.dereferences = true)
    (ordinary : Rule.pointerUpdate? i = none) (mem : m ∈ i.memories)
    (used : m.base = some r ∨ m.index = some r) :
    r.width = .qword ∨ r.family = .rip ∧ m.base = some r ∧ m.index = none := by
  have hrefs := Rule.single_references accepted opcode dereferences ordinary
  obtain ⟨need, href, _⟩ := hrefs.each m mem
  cases href with
  | relative base based family unindexed =>
    right
    rcases used with hr | hr
    · cases based.symm.trans hr
      exact ⟨family, based, unindexed⟩
    · cases unindexed.symm.trans hr
  | pointer base based family wide unindexed =>
    left
    rcases used with hr | hr
    · cases based.symm.trans hr
      exact Register.width_qword wide
    · cases unindexed.symm.trans hr
  | indexed base index based family wide indexed wideIndex free =>
    left
    rcases used with hr | hr
    · cases based.symm.trans hr
      exact Register.width_qword wide
    · cases indexed.symm.trans hr
      exact Register.width_qword wideIndex

end

namespace Sample

/-- Two references with one index, at the ends of what a displacement can be. -/
def comparison : Instruction where
  address := 0
  length := 8
  mnemonic := "cmp"
  operands := [
    .memory { base := some (.qword .r15), index := some (.qword .rax), scale := 8,
              displacement := -0x80000000 },
    .memory { base := some (.qword .rsp), index := some (.qword .rax), scale := 2,
              displacement := 0x7fffffff }]
  disassembly := "cmp"

theorem comparison_accepted :
    Rule.single .bits64 comparison = .accept { pre := .zeroExtended .rax } ∧
      comparison.opcode? = some { mnemonic := "cmp", writes := .nothing } ∧
      Rule.pointerUpdate? comparison = none := by
  decide +kernel

def narrowLoad : Instruction where
  address := 0
  length := 7
  mnemonic := "mov"
  operands := [.register (.dword .rax), .memory { base := some (.dword .rip) }]
  disassembly := "mov eax, dword [eip]"

/-- The load, which takes the prefix for addresses of 32 bits, and padding. -/
def narrowBytes : List UInt8 :=
  [0x67, 0x8b, 0x05, 0, 0, 0, 0] ++ List.replicate 25 0x90

end Sample

theorem access_near_sandbox_scaled :
    Rule.single .bits64 Sample.comparison = .accept { pre := .zeroExtended .rax } ∧
      Sample.region.Meets (.zeroExtended .rax)
        (Function.update Sample.registers .rax 0xffffffff) ∧
      ∀ m ∈ Sample.comparison.memories,
        0x80000000 ≤ m.address (Function.update Sample.registers .rax 0xffffffff) ∧
          m.address (Function.update Sample.registers .rax 0xffffffff) <
            0x180000000 + (1 + m.scale) * 0x100000000 := by
  obtain ⟨accepted, opcode, ordinary⟩ := Sample.comparison_accepted
  have meets : Sample.region.Meets (.zeroExtended .rax)
      (Function.update Sample.registers .rax 0xffffffff) :=
    Sample.registers_meet.set_extended rfl (by decide)
  have each : ∀ m ∈ Sample.comparison.memories, (∀ base ∈ m.base, base.family ≠ .rip) ∧
      -0x80000000 ≤ m.displacement ∧ m.displacement < 0x80000000 := by decide
  refine ⟨accepted, meets, ?_⟩
  intro m hm
  obtain ⟨absolute, signed⟩ := each m hm
  have near := access_near_sandbox accepted opcode rfl ordinary meets hm absolute signed
  simp only [Sample.region, Region.span] at near
  omega

theorem address_registers_whole_scaled :
    Rule.single .bits64 Sample.comparison = .accept { pre := .zeroExtended .rax } ∧
      ∀ m ∈ Sample.comparison.memories, ∀ r, m.base = some r ∨ m.index = some r →
        r.width = .qword := by
  obtain ⟨accepted, opcode, ordinary⟩ := Sample.comparison_accepted
  have absolute : ∀ m ∈ Sample.comparison.memories, ∀ base ∈ m.base, base.family ≠ .rip := by
    decide
  refine ⟨accepted, ?_⟩
  intro m hm r used
  rcases address_registers_whole accepted opcode rfl ordinary hm used with h | h
  · exact h
  · exact absurd h.1 (absolute m hm r h.2.1)

/-- An access through the lower half of the instruction pointer is accepted, though its address is
cut to 32 bits. -/
theorem narrow_relative_accepted :
    Rule.single .bits64 Sample.narrowLoad = .accept { post := .zeroExtended .rax } ∧
      Sample.narrowLoad.opcode? = some { mnemonic := "mov" } ∧
      Rule.pointerUpdate? Sample.narrowLoad = none ∧
      { base := some (.dword .rip) } ∈ Sample.narrowLoad.memories ∧
      (Register.dword .rip).width ≠ .qword ∧
      (Chunk.validate .bits64 Sample.narrowBytes).toOption = some ⟨[]⟩ := by
  decide +kernel

end FaultIsolation
