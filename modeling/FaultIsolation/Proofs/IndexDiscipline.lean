import FaultIsolation.Proofs.Carrying

namespace FaultIsolation

section
variable {size : Nat} {code before after : List Instruction} {i : Instruction} {e : Effect}
  {op : Opcode}

theorem pointer_base {base : Register} (hf : base.family.pointsIntoSandbox = true)
    (hw : base.isQword = true) : base ∈ [.qword .r15, .qword .rsp, .qword .rbp] := by
  rw [Register.eq_qword hw]
  rcases Family.points_into_sandbox_iff.mp hf with hf | hf | hf <;> simp [hf]

/-- In accepted 64-bit code an access of an instruction on its own, other than a branch or an update
of a sandbox pointer, has no segment override and stays with the sandbox's own bases. An index is a
full register that holds no sandbox pointer, and the instruction just before it, in the same bundle
and on its own, zero-extended it. -/
theorem memory_access_discipline (tiles : Tiles 0 code size) (accepted : Accepts .bits64 size code)
    (alone : .single i e ∈ sandboxUnits .bits64 code) (place : code = before ++ i :: after)
    (opcode : i.opcode? = some op) (dereferences : op.dereferences = true)
    (sequential : op.isBranch = false) (ordinary : Rule.pointerUpdate? i = none) :
    i.prefixes.segment = false ∧ ∀ m ∈ i.memories, ∃ base, m.base = some base ∧
      (base ∈ [.qword .r15, .qword .rsp, .qword .rbp] ∨ base.family = .rip) ∧
      (base.family = .rip → m.index = none) ∧
      ∀ index, m.index = some index → index.width = .qword ∧
        index.family ∉ [.rsp, .rbp, .r15] ∧ ExtendedBefore code before i index.family := by
  have hsingle := accepted.single alone
  refine ⟨Rule.single_segment hsingle opcode sequential, fun m hm => ?_⟩
  have hrefs := Rule.single_references hsingle opcode dereferences ordinary
  obtain ⟨need, href, hneed⟩ := hrefs.each m hm
  cases href with
  | relative base based family unindexed =>
    exact ⟨base, based, Or.inr family, fun _ => unindexed, by simp [unindexed]⟩
  | pointer base based family wide unindexed =>
    exact ⟨base, based, Or.inl (pointer_base family wide), fun _ => unindexed, by simp [unindexed]⟩
  | indexed base index based family wide indexed wideIndex free =>
    refine ⟨base, based, Or.inl (pointer_base family wide), ?_, ?_⟩
    · intro hrip
      simp [hrip, Family.pointsIntoSandbox] at family
    · intro x hx
      cases indexed.symm.trans hx
      have hextended : e.pre = .zeroExtended index.family := hneed _ rfl
      refine ⟨by simpa [Register.isQword] using wideIndex, ?_,
        accepted.extended_before tiles alone place (Or.inr hextended)⟩
      intro hmem
      have hpointer := Family.points_into_sandbox_iff.mpr (by simpa using hmem)
      simp [free] at hpointer

theorem memory_access_discipline_store :
    Tiles 0 Sample.bundle 32 ∧ Accepts .bits64 32 Sample.bundle ∧
      .single Sample.store { pre := .zeroExtended .rax } ∈ sandboxUnits .bits64 Sample.bundle ∧
      Sample.store.prefixes.segment = false ∧
      ExtendedBefore Sample.bundle [Sample.extend] Sample.store .rax := by
  have tiles : Tiles 0 Sample.bundle 32 := by decide
  have accepted : Accepts .bits64 32 Sample.bundle := by decide +kernel
  have alone : .single Sample.store { pre := .zeroExtended .rax } ∈
      sandboxUnits .bits64 Sample.bundle := by decide +kernel
  have opcode : Sample.store.opcode? = some { mnemonic := "mov" } := by decide +kernel
  have place : Sample.bundle = [Sample.extend] ++ Sample.store :: Sample.bundle.drop 2 := rfl
  obtain ⟨segment, each⟩ :=
    memory_access_discipline tiles accepted alone place opcode rfl rfl (by decide +kernel)
  have mem : { base := some (.qword .r15), index := some (.qword .rax) } ∈
      Sample.store.memories := by decide
  obtain ⟨_, _, _, _, index⟩ := each _ mem
  exact ⟨tiles, accepted, alone, segment, (index (.qword .rax) rfl).2.2⟩

end

end FaultIsolation
