import JoltWasm.Backend.Step

/-!
# Straight-line rows

Rows that neither touch memory nor jump act on the register file alone.  Executing a block of them
with the machine is folding that action over the block.
-/

namespace JoltWasm

/-- A row without memory access or jump that the constraints may reject only by its assert. -/
def Ir.isStraight : Ir → Bool
  | alu .. | advice .. | assert .. => true
  | _ => false

/-- The register file after a straight-line row, `none` when its assert fails. -/
def Ir.execute (prover : Prover) (regs : Reg → U64) : Ir → Option (Reg → U64)
  | alu op rd rs1 rs2 => some (writeReg regs rd (op.evaluate (regs rs1) (rs2.value regs)))
  | advice hint rd rs1 rs2 => some (writeReg regs rd (prover hint (regs rs1) (regs rs2)))
  | assert op _ rs1 rs2 => if op.evaluate (regs rs1) (rs2.value regs) = 1 then some regs else none
  | _ => none

/-- The register file after a block of straight-line rows. -/
def executeRows (prover : Prover) : List Ir → (Reg → U64) → Option (Reg → U64)
  | [], regs => some regs
  | row :: rows, regs => (row.execute prover regs).bind (executeRows prover rows)

@[simp] theorem executeRows_nil (prover : Prover) (regs : Reg → U64) :
    executeRows prover [] regs = some regs := rfl

@[simp] theorem executeRows_alu (prover : Prover) (op : AluOp) (rd rs1 : Reg) (rs2 : Operand)
    (rows : List Ir) (regs : Reg → U64) :
    executeRows prover (.alu op rd rs1 rs2 :: rows) regs =
      executeRows prover rows (writeReg regs rd (op.evaluate (regs rs1) (rs2.value regs))) := by
  rw [executeRows, Ir.execute, Option.bind_some]

@[simp] theorem executeRows_advice (prover : Prover) (hint : AdviceHint) (rd rs1 rs2 : Reg)
    (rows : List Ir) (regs : Reg → U64) :
    executeRows prover (.advice hint rd rs1 rs2 :: rows) regs =
      executeRows prover rows (writeReg regs rd (prover hint (regs rs1) (regs rs2))) := by
  rw [executeRows, Ir.execute, Option.bind_some]

@[simp] theorem executeRows_assert (prover : Prover) (op : AluOp) (failure : AssertFailure)
    (rs1 : Reg) (rs2 : Operand) (rows : List Ir) (regs : Reg → U64) :
    executeRows prover (.assert op failure rs1 rs2 :: rows) regs =
      if op.evaluate (regs rs1) (rs2.value regs) = 1 then executeRows prover rows regs
      else none := by
  rw [executeRows, Ir.execute]
  split_ifs <;> rfl

@[simp] theorem executeRows_aluImm (prover : Prover) (op : AluOp) (rd rs1 : Reg) (imm : U64)
    (rows : List Ir) (regs : Reg → U64) :
    executeRows prover (.aluImm op rd rs1 imm :: rows) regs =
      executeRows prover rows (writeReg regs rd (op.evaluate (regs rs1) imm)) := by
  rw [Ir.aluImm, executeRows_alu, Operand.value]

@[simp] theorem executeRows_mov (prover : Prover) (rd rs : Reg) (rows : List Ir)
    (regs : Reg → U64) :
    executeRows prover (.mov rd rs :: rows) regs =
      executeRows prover rows (writeReg regs rd (regs rs)) := by
  rw [Ir.mov, executeRows_alu, AluOp.evaluate_add64, Operand.value]
  exact congrArg _ (congrArg _ (BitVec.add_zero _))

theorem executeRows_append (prover : Prover) (first second : List Ir) (regs : Reg → U64) :
    executeRows prover (first ++ second) regs =
      (executeRows prover first regs).bind (executeRows prover second) := by
  induction first generalizing regs with
  | nil => rfl
  | cons row first ih =>
      simp only [List.cons_append, executeRows, ih, Option.bind_assoc]

namespace Machine

/-- The machine after `n` rows. -/
def steps (prover : Prover) (code : List Ir) : ℕ → Machine → Except Trap Machine
  | 0, m => .ok m
  | n + 1, m =>
      match stepWith prover code m with
      | .error trap => .error trap
      | .ok (_, next) => steps prover code n next

/-- A straight-line row moves to the next pc with its register action, or fails its assert. -/
theorem stepWith_straight (prover : Prover) {code : List Ir} {m : Machine} {row : Ir}
    (fetch : code[m.pc.toNat]? = some row) (straight : row.isStraight = true) :
    (∃ regs record, row.execute prover m.regs = some regs ∧
        stepWith prover code m = .ok (record, ⟨regs, m.pc + 1, m.memory⟩)) ∨
      row.execute prover m.regs = none ∧ ∃ trap, stepWith prover code m = .error trap := by
  cases row with
  | alu op rd rs1 rs2 => exact .inl ⟨_, _, rfl, stepWith_alu prover fetch⟩
  | advice hint rd rs1 rs2 => exact .inl ⟨_, _, rfl, stepWith_advice prover fetch⟩
  | assert op failure rs1 rs2 =>
      have step := stepWith_assert prover fetch
      by_cases holds : op.evaluate (m.regs rs1) (rs2.value m.regs) = 1
      · rw [if_pos holds] at step
        exact .inl ⟨m.regs, _, if_pos holds, step⟩
      · rw [if_neg holds] at step
        exact .inr ⟨if_neg holds, _, step⟩
  | _ => cases straight

/-- Executing a block of straight-line rows is folding their register actions. -/
theorem steps_straight (prover : Prover) (code rows : List Ir) (m final : Machine)
    (located : rows <+: code.drop m.pc.toNat) (inRange : m.pc.toNat + rows.length ≤ 2 ^ 32)
    (straight : ∀ row ∈ rows, row.isStraight = true) :
    steps prover code rows.length m = .ok final ↔
      ∃ regs, executeRows prover rows m.regs = some regs ∧
        final = ⟨regs, m.pc + BitVec.ofNat 32 rows.length, m.memory⟩ := by
  induction rows generalizing m with
  | nil =>
      simp only [List.length_nil, steps, executeRows_nil, BitVec.add_zero, Except.ok.injEq,
        Option.some.injEq]
      constructor
      · rintro rfl
        exact ⟨_, rfl, rfl⟩
      · rintro ⟨_, rfl, rfl⟩
        rfl
  | cons row rows ih =>
      obtain ⟨rest, split⟩ := located
      have fetch : code[m.pc.toNat]? = some row := by
        rw [← Nat.add_zero m.pc.toNat, ← List.getElem?_drop, ← split]
        rfl
      have tail : code.drop (m.pc.toNat + 1) = rows ++ rest := by
        rw [← List.drop_drop, ← split]
        rfl
      simp only [List.length_cons, steps, executeRows] at inRange ⊢
      rcases stepWith_straight prover fetch (straight row List.mem_cons_self) with
        ⟨regs, record, action, step⟩ | ⟨action, trap, step⟩
      · rw [step, action]
        simp only [Option.bind_some]
        by_cases last : rows = []
        · subst last
          simp only [List.length_nil, steps, executeRows_nil, Except.ok.injEq, Option.some.injEq,
            Nat.zero_add]
          constructor
          · rintro rfl
            exact ⟨_, rfl, rfl⟩
          · rintro ⟨_, rfl, rfl⟩
            rfl
        · have positive := List.length_pos_iff.mpr last
          have next : (m.pc + 1).toNat = m.pc.toNat + 1 := by
            rw [BitVec.toNat_add]
            exact Nat.mod_eq_of_lt (by change m.pc.toNat + 1 < _; omega)
          rw [ih ⟨regs, m.pc + 1, m.memory⟩ ⟨rest, by rw [next, tail]⟩ (by rw [next]; omega)
            fun r member => straight r (List.mem_cons_of_mem _ member)]
          have shift : m.pc + 1 + BitVec.ofNat 32 rows.length =
              m.pc + BitVec.ofNat 32 (rows.length + 1) := by
            rw [BitVec.ofNat_add, BitVec.add_assoc, BitVec.add_comm 1]
            rfl
          rw [shift]
      · rw [step, action]
        simp

end Machine

end JoltWasm
