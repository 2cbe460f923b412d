import FaultIsolation.Proofs.Acceptance
import FaultIsolation.Proofs.SingleRule

namespace FaultIsolation

/-- The table knows the instruction and allows it, and a branch goes where its operand says. -/
def Instruction.Permitted (i : Instruction) : Prop :=
  ∃ op, i.opcode? = some op ∧ op.isAllowed = true ∧
    (op.isBranch = true → ∃ distance, i.operands = [.immediate distance])

namespace Rule
variable {mode : Mode} {i : Instruction} {e : Effect}

theorem single_permitted (h : single mode i = .accept e) : i.Permitted := by
  obtain ⟨op, ho, hallowed, ha⟩ := single_accepted h
  refine ⟨op, ho, hallowed, fun hb => ?_⟩
  cases ha with
  | branch distance _ _ direct => exact ⟨distance, direct⟩
  | flat _ sequential => simp [sequential] at hb
  | update _ _ sequential => simp [sequential] at hb
  | access _ _ _ _ sequential => simp [sequential] at hb

theorem Prepares.permitted {r : Register} (h : Prepares i r) : i.Permitted := by
  obtain ⟨op, ho, hallowed, hb, _⟩ := h.opcode
  exact ⟨op, ho, hallowed, by simp [hb]⟩

end Rule

/-- An instruction of a unit is safe by itself, or it is the last of an idiom and those before it
guard it. -/
theorem Scan.Recognized.guarded {mode : Mode} {u : CodeUnit} {before after : List Instruction}
    {i : Instruction} (h : Recognized (.sandbox mode) u) (hm : u.members = before ++ i :: after) :
    i.Permitted ∨
      ∃ head tail, u = .idiom head tail ∧ after = [] ∧ Rule.Guarded mode before i := by
  cases h with
  | single insn effect alone =>
    have hi : i ∈ [insn] := by
      rw [show [insn] = before ++ i :: after from hm]
      simp
    rw [List.mem_singleton.mp hi]
    exact Or.inl (Rule.single_permitted alone)
  | idiom head tail several whole =>
    have hmatch : Rule.idiom mode (head :: tail) ≠ .noMatch := by
      rw [show Rule.idiom mode (head :: tail) = .accept () from whole]
      exact nofun
    obtain ⟨front, last, hsplit, hg⟩ := Rule.idiom_shape hmatch
    have he : front ++ [last] = before ++ i :: after := hsplit.symm.trans hm
    rcases List.eq_nil_or_concat after with rfl | ⟨after, x, rfl⟩
    · obtain ⟨rfl, hlast⟩ := List.append_inj' he rfl
      cases hlast
      exact Or.inr ⟨head, tail, rfl, rfl, hg⟩
    · -- It belongs to the guard.
      rw [List.concat_eq_append, ← List.cons_append, ← List.append_assoc] at he
      obtain ⟨rfl, _⟩ := List.append_inj' he rfl
      obtain ⟨r, hp, _⟩ := hg.front (i := i) (by simp)
      exact Or.inl hp.permitted

/-- In accepted code the table knows and allows every instruction, and a branch among them is a
direct one, unless it is the last instruction of an accepted idiom in one bundle. Then it is a jump
or a call through a register that the idiom rounded down and, in 64-bit code, rebased, or it is a
string operation of 64-bit code whose pointers the idiom rebased. -/
theorem complete_mediation {mode : Mode} {size : Nat} {code before after : List Instruction}
    {i : Instruction} (accepted : Accepts mode size code) (place : code = before ++ i :: after) :
    i.Permitted ∨ ∃ outer front head tail, before = outer ++ front ∧ head :: tail = front ++ [i] ∧
      .idiom head tail ∈ sandboxUnits mode code ∧ Bundle.Holds head.address i.stop ∧
        Rule.Guarded mode front i := by
  have hcode := accepted.chain.2.trans place
  obtain ⟨xs, u, ys, l, r, hus, hmembers, hbefore, _⟩ := Scan.unit_at hcode
  have hu : u ∈ sandboxUnits mode code := by simp [hus]
  obtain ⟨hknown, hbundle⟩ := accepted.recognized hu
  rcases hknown.guarded hmembers with hpermitted | ⟨head, tail, rfl, rfl, hg⟩
  · exact Or.inl hpermitted
  · rw [CodeUnit.stop_eq hmembers] at hbundle
    exact Or.inr ⟨_, l, head, tail, hbefore, hmembers, hu, hbundle, hg⟩

namespace Sample

def roundTarget : Instruction where
  address := 0
  length := 3
  mnemonic := "and"
  operands := [.register (.dword .rax), .immediate (-32)]
  disassembly := "and eax, 0xffffffe0"

def rebaseTarget : Instruction where
  address := 3
  length := 3
  mnemonic := "add"
  operands := [.register (.qword .rax), .register (.qword .r15)]
  disassembly := "add rax, r15"

def jumpThrough : Instruction where
  address := 6
  length := 2
  mnemonic := "jmp"
  operands := [.register (.qword .rax)]
  disassembly := "jmp rax"

def idiomBundle : List Instruction :=
  [roundTarget, rebaseTarget, jumpThrough] ++ [8, 16, 24].map (nop · 8)

end Sample

theorem complete_mediation_jump :
    Accepts .bits64 32 Sample.idiomBundle ∧ ¬Sample.jumpThrough.Permitted ∧
      ∃ outer front head tail, [Sample.roundTarget, Sample.rebaseTarget] = outer ++ front ∧
        head :: tail = front ++ [Sample.jumpThrough] ∧
        .idiom head tail ∈ sandboxUnits .bits64 Sample.idiomBundle ∧
        Bundle.Holds head.address Sample.jumpThrough.stop ∧
        Rule.Guarded .bits64 front Sample.jumpThrough := by
  have accepted : Accepts .bits64 32 Sample.idiomBundle := by decide +kernel
  have place : Sample.idiomBundle = [Sample.roundTarget, Sample.rebaseTarget] ++
    Sample.jumpThrough :: Sample.idiomBundle.drop 3 := rfl
  have indirect : ¬Sample.jumpThrough.Permitted := by
    rintro ⟨op, ho, _, direct⟩
    have hop : Sample.jumpThrough.opcode?.any Opcode.isBranch = true := by decide +kernel
    obtain ⟨distance, hd⟩ := direct (by simpa [ho] using hop)
    simp [Sample.jumpThrough] at hd
  exact ⟨accepted, indirect, (complete_mediation accepted place).resolve_left indirect⟩

end FaultIsolation
