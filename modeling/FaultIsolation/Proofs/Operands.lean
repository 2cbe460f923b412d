import FaultIsolation.Instruction
import Mathlib.Data.List.Basic

namespace FaultIsolation

def Writes.positions (count : Nat) : Writes → List Nat
  | .nothing | .frame => []
  | .first => [0]
  | .firstOfSeveral => if 2 ≤ count then [0] else []
  | .firstTwo => [0, 1]

namespace Register

section
variable (f : Family)

@[simp] theorem family_dword : (dword f).family = f := rfl

@[simp] theorem family_qword : (qword f).family = f := rfl

end

theorem eq_dword {r : Register} (h : r.isDword = true) : r = .dword r.family := by
  obtain ⟨family, width⟩ := r
  simp_all [isDword, dword]

theorem eq_qword {r : Register} (h : r.isQword = true) : r = .qword r.family := by
  obtain ⟨family, width⟩ := r
  simp_all [isQword, qword]

end Register

theorem Family.points_into_sandbox_iff {f : Family} :
    f.pointsIntoSandbox = true ↔ f = .rsp ∨ f = .rbp ∨ f = .r15 := by
  cases f <;> decide

theorem Opcode.branch_of_call {op : Opcode} (h : op.isCall = true) : op.isBranch = true := by
  have hflow : op.flow = .call := by simpa [Opcode.isCall] using h
  simp [Opcode.isBranch, hflow]

namespace Instruction

def Spells (i : Instruction) (mnemonic : String) (operands : List Operand) : Prop :=
  i.mnemonic = mnemonic ∧ i.operands = operands

instance (i : Instruction) (mnemonic : String) (operands : List Operand) :
    Decidable (i.Spells mnemonic operands) :=
  inferInstanceAs (Decidable (_ ∧ _))

/-- The instruction moves a pointer into the sandbox by adding the base register. -/
def Rebases (i : Instruction) (f : Family) : Prop :=
  i.Spells "add" [.register (.qword f), .register (.qword .r15)]

def CopiesPointer (i : Instruction) : Prop :=
  i.Spells "mov" [.register (.qword .rsp), .register (.qword .rbp)] ∨
    i.Spells "mov" [.register (.qword .rbp), .register (.qword .rsp)]

def AlignsStack (i : Instruction) : Prop :=
  i.mnemonic = "and" ∧ i.register? 0 = some (.qword .rsp) ∧ ∃ mask < 0, i.immediate? 1 = some mask

def destinations (i : Instruction) : List Register :=
  match i.opcode? with
  | none => []
  | some op => (op.writes.positions i.operands.length).filterMap i.register?

/-- The instruction writes the lower half of a register and thereby clears the upper half. -/
def ZeroExtends (i : Instruction) (f : Family) : Prop :=
  .dword f ∈ i.destinations ∧ i.opcode?.any Opcode.zeroExtends = true

instance (i : Instruction) (f : Family) : Decidable (i.ZeroExtends f) :=
  inferInstanceAs (Decidable (_ ∧ _))

variable {i : Instruction} {op : Opcode} {mnemonic : String}

@[simp] theorem is_pair_iff {destination source : Register} :
    i.isPair mnemonic destination source = true ↔
      i.Spells mnemonic [.register destination, .register source] := by
  simp [isPair, Spells]

theorem register_iff {n : Nat} {r : Register} :
    i.register? n = some r ↔ i.operands[n]? = some (.register r) := by
  simp only [register?, operand?, Option.bind_eq_some_iff]
  constructor
  · rintro ⟨o, ho, hr⟩
    cases o <;> simp_all [Operand.register?]
  · exact fun h => ⟨_, h, rfl⟩

theorem immediate_iff {n : Nat} {v : Int} :
    i.immediate? n = some v ↔ i.operands[n]? = some (.immediate v) := by
  simp only [immediate?, operand?, Option.bind_eq_some_iff]
  constructor
  · rintro ⟨o, ho, hv⟩
    cases o <;> simp_all [Operand.immediate?]
  · exact fun h => ⟨_, h, rfl⟩

theorem operands_pair {a b : Operand} (hl : i.operands.length = 2) (ha : i.operands[0]? = some a)
    (hb : i.operands[1]? = some b) : i.operands = [a, b] := by
  obtain ⟨x, y, ho⟩ := List.length_eq_two.mp hl
  simp_all

theorem destinations_eq (h : i.opcode? = some op) :
    i.destinations = (op.writes.positions i.operands.length).filterMap i.register? := by
  simp [destinations, h]

/-- Only a branch with a constant distance has a destination. -/
theorem destination_some {d : Int} (h : i.destination? = some d) :
    i.isBranch = true ∧ ∃ distance, i.operands = [.immediate distance] := by
  unfold destination? at h
  split at h
  · rename_i distance ho
    split at h
    · exact ⟨‹_›, distance, ho⟩
    · cases h
  · cases h

theorem opcode_mem (h : i.opcode? = some op) : op ∈ Opcode.table := by
  unfold opcode? Opcode.find? at h
  exact List.mem_of_find?_eq_some h

/-- The instructions that build and take down a stack frame. -/
theorem frame_writes (h : i.opcode? = some op) (hm : Text.lower i.mnemonic ∈ ["leave", "enter"]) :
    op.writes = .frame := by
  have ht : ∀ m ∈ ["leave", "enter"],
      (Opcode.table.find? (·.mnemonic == m)).map Opcode.writes = some .frame := by decide +kernel
  have hw := ht _ hm
  rw [← Opcode.find?, ← opcode?, h] at hw
  simpa using hw

/-- The table lists every branch as writing nothing. -/
theorem branch_writes (h : i.opcode? = some op) (hb : op.isBranch = true) :
    op.writes = .nothing := by
  have ht : ∀ op ∈ Opcode.table, op.isBranch = true → op.writes = .nothing := by decide +kernel
  exact ht op (opcode_mem h) hb

theorem Spells.opcode {ops : List Operand} (h : i.Spells mnemonic ops) :
    i.opcode? = Opcode.find? mnemonic := by
  rw [opcode?, h.1]

theorem destinations_first {r : Register} (hr : i.register? 0 = some r)
    (ho : i.opcode? = some op) (hw : op.writes = .first) : i.destinations = [r] := by
  simp [destinations_eq ho, hw, Writes.positions, hr]

theorem Spells.first {r : Register} {ops : List Operand}
    (h : i.Spells mnemonic (.register r :: ops)) : i.register? 0 = some r :=
  register_iff.mpr (by simp [h.2])

theorem Spells.destinations {r : Register} {ops : List Operand}
    (h : i.Spells mnemonic (.register r :: ops)) (ho : Opcode.find? mnemonic = some op)
    (hw : op.writes = .first) : i.destinations = [r] :=
  destinations_first h.first (h.opcode.trans ho) hw

end Instruction

end FaultIsolation
