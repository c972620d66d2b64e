import JoltWasm.Backend.Straight
import JoltWasm.Frontend.Emitter

/-!
# Integer division from an advised quotient

The emitter divides by asking the prover for a quotient and asserting what pins it down.  Here the
rows of the four division operators are executed against an arbitrary advice value.
-/

namespace JoltWasm

/-! ## WebAssembly division -/

/-- The four division operators. -/
def BinaryOp.isDivision : BinaryOp → Bool
  | divU | remU | divS | remS => true
  | _ => false

/-- WebAssembly division of `n`-bit integers, `none` when it traps. -/
def wasmDivisionBits {n : ℕ} (op : BinaryOp) (a b : BitVec n) : Option (BitVec n) :=
  match op with
  | .divU => if b = 0 then none else some (a / b)
  | .remU => if b = 0 then none else some (a % b)
  | .divS =>
      if b = 0 ∨ (a = BitVec.intMin n ∧ b = BitVec.allOnes n) then none else some (a.sdiv b)
  | .remS => if b = 0 then none else some (a.srem b)
  | _ => none

/-- WebAssembly division of canonical register values: an `i32` result is zero-extended. -/
def wasmDivision (width : Width) (op : BinaryOp) (a b : U64) : Option U64 :=
  match width with
  | .w64 => wasmDivisionBits op a b
  | .w32 => (wasmDivisionBits op (a.setWidth 32) (b.setWidth 32)).map (BitVec.setWidth 64)

/-! ## The asserts -/

/-- The asserts of `unsignedDivmodRows` accept the quotient `q`. -/
def divmodAccepts (width : Width) (a b q : U64) : Prop :=
  (width = .w64 → q.toNat * b.toNat < 2 ^ 64) ∧ q * b ≤ a ∧ a - q * b < b

/-- The quotient of `a + k · 2^64` for some positive `k`, whose product with `b` is between
`k · 2^64` and `k · 2^64 + a`. -/
def WrappedQuotient (a b q : U64) (k : ℕ) : Prop :=
  1 ≤ k ∧ q.toNat = (a.toNat + k * 2 ^ 64) / b.toNat ∧ (a.toNat + k * 2 ^ 64) % b.toNat ≤ a.toNat

/-- The advice values that pass the asserts of an operator without being its quotient: only the
32-bit unsigned operators, whose product the rows do not keep from wrapping, have any. -/
def UncheckedWrap (width : Width) (op : BinaryOp) (a b q : U64) : Prop :=
  width = .w32 ∧ ∃ k, WrappedQuotient a b q k ∧
    (op = .divU ∨ op = .remU ∧ ¬ b.toNat ∣ k * 2 ^ 64)

/-- A quotient whose product does not wrap is the quotient. -/
theorem divmod_exact {a b q : U64} (fits : q.toNat * b.toNat < 2 ^ 64) (below : q * b ≤ a)
    (close : a - q * b < b) : q = a / b ∧ a - q * b = a % b := by
  have product : (q * b).toNat = q.toNat * b.toNat := by
    rw [BitVec.toNat_mul, Nat.mod_eq_of_lt fits]
  have lower : q.toNat * b.toNat ≤ a.toNat := product ▸ BitVec.le_def.mp below
  have difference : (a - q * b).toNat = a.toNat - q.toNat * b.toNat := by
    rw [BitVec.toNat_sub_of_le below, product]
  have upper : a.toNat - q.toNat * b.toNat < b.toNat := difference ▸ BitVec.lt_def.mp close
  have split : a.toNat = (a.toNat - q.toNat * b.toNat) + b.toNat * q.toNat := by
    rw [Nat.mul_comm b.toNat]
    omega
  have positive : 0 < b.toNat := by omega
  constructor
  · apply BitVec.eq_of_toNat_eq
    rw [BitVec.toNat_udiv, split, Nat.add_mul_div_left _ _ positive, Nat.div_eq_of_lt upper,
      Nat.zero_add]
  · apply BitVec.eq_of_toNat_eq
    rw [difference, BitVec.toNat_umod, split, Nat.add_mul_mod_self_left, Nat.mod_eq_of_lt upper]
    omega

/-- The exact quotient passes the asserts. -/
theorem divmodAccepts_exact (width : Width) {a b : U64} (nonzero : b ≠ 0) :
    divmodAccepts width a b (a / b) := by
  have positive : 0 < b.toNat := by
    rw [Nat.pos_iff_ne_zero]
    exact fun zero => nonzero (BitVec.eq_of_toNat_eq zero)
  have bound : (a / b).toNat * b.toNat ≤ a.toNat := by
    rw [BitVec.toNat_udiv]
    exact Nat.div_mul_le_self _ _
  have fits : (a / b).toNat * b.toNat < 2 ^ 64 := lt_of_le_of_lt bound a.isLt
  have product : (a / b * b).toNat = (a / b).toNat * b.toNat := by
    rw [BitVec.toNat_mul, Nat.mod_eq_of_lt fits]
  have below : a / b * b ≤ a := by
    rw [BitVec.le_def, product]
    exact bound
  refine ⟨fun _ => fits, below, ?_⟩
  rw [BitVec.lt_def, BitVec.toNat_sub_of_le below, product, BitVec.toNat_udiv]
  have split := Nat.div_add_mod a.toNat b.toNat
  have remainder := Nat.mod_lt a.toNat positive
  rw [Nat.mul_comm b.toNat] at split
  omega

/-- The product of a quotient of `a + k · 2^64` wraps to `a` less the remainder. -/
theorem wrappedProduct {a b q : U64} {k : ℕ}
    (quotient : q.toNat = (a.toNat + k * 2 ^ 64) / b.toNat)
    (within : (a.toNat + k * 2 ^ 64) % b.toNat ≤ a.toNat) :
    (q * b).toNat = a.toNat - (a.toNat + k * 2 ^ 64) % b.toNat := by
  have small := a.isLt
  have split := Nat.div_add_mod (a.toNat + k * 2 ^ 64) b.toNat
  rw [Nat.mul_comm, ← quotient] at split
  rw [BitVec.toNat_mul]
  omega

/-- Without the overflow assert, the asserts accept exactly the quotients of the dividends
`a + k · 2^64` whose product stays above `k · 2^64`. -/
theorem divmodAccepts_w32_iff {a b q : U64} (nonzero : b ≠ 0) :
    divmodAccepts .w32 a b q ↔
      ∃ k, q.toNat = (a.toNat + k * 2 ^ 64) / b.toNat ∧
        (a.toNat + k * 2 ^ 64) % b.toNat ≤ a.toNat := by
  have positive : 0 < b.toNat := by
    rw [Nat.pos_iff_ne_zero]
    exact fun zero => nonzero (BitVec.eq_of_toNat_eq zero)
  have wrapped : (q * b).toNat = q.toNat * b.toNat % 2 ^ 64 := BitVec.toNat_mul q b
  have small := a.isLt
  constructor
  · rintro ⟨-, below, close⟩
    have lower := BitVec.le_def.mp below
    have upper := BitVec.lt_def.mp close
    rw [BitVec.toNat_sub_of_le below] at upper
    have dividend : a.toNat + q.toNat * b.toNat / 2 ^ 64 * 2 ^ 64 =
        (a.toNat - (q * b).toNat) + b.toNat * q.toNat := by
      rw [Nat.mul_comm b.toNat]
      omega
    refine ⟨q.toNat * b.toNat / 2 ^ 64, ?_, ?_⟩
    · rw [dividend, Nat.add_mul_div_left _ _ positive, Nat.div_eq_of_lt upper, Nat.zero_add]
    · rw [dividend, Nat.add_mul_mod_self_left, Nat.mod_eq_of_lt upper]
      omega
  · rintro ⟨k, quotient, within⟩
    have product := wrappedProduct quotient within
    have remainder := Nat.mod_lt (a.toNat + k * 2 ^ 64) positive
    have below : q * b ≤ a := by
      rw [BitVec.le_def]
      omega
    refine ⟨by simp, below, ?_⟩
    rw [BitVec.lt_def, BitVec.toNat_sub_of_le below]
    omega

/-- A wrapped quotient is not the quotient. -/
theorem WrappedQuotient.ne_quotient {a b q : U64} {k : ℕ} (wrapped : WrappedQuotient a b q k) :
    q ≠ a / b := by
  obtain ⟨wraps, quotient, within⟩ := wrapped
  rintro rfl
  have split := Nat.div_add_mod (a.toNat + k * 2 ^ 64) b.toNat
  have bound := Nat.div_mul_le_self a.toNat b.toNat
  rw [← quotient, BitVec.toNat_udiv, Nat.mul_comm] at split
  have small := a.isLt
  omega

theorem WrappedQuotient.nonzero {a b q : U64} {k : ℕ} (wrapped : WrappedQuotient a b q k) :
    b ≠ 0 := by
  rintro rfl
  obtain ⟨wraps, -, within⟩ := wrapped
  change (a.toNat + k * 2 ^ 64) % 0 ≤ a.toNat at within
  rw [Nat.mod_zero] at within
  omega

/-- The remainder left by a quotient of `a + k · 2^64` is the remainder of `a` exactly when the
divisor divides `k · 2^64`. -/
theorem divmod_remainder {a b q : U64} {k : ℕ}
    (quotient : q.toNat = (a.toNat + k * 2 ^ 64) / b.toNat)
    (within : (a.toNat + k * 2 ^ 64) % b.toNat ≤ a.toNat) :
    a - q * b = a % b ↔ b.toNat ∣ k * 2 ^ 64 := by
  have product := wrappedProduct quotient within
  have below : q * b ≤ a := by
    rw [BitVec.le_def]
    omega
  rw [← BitVec.toNat_inj, BitVec.toNat_sub_of_le below, BitVec.toNat_umod, product,
    Nat.sub_sub_self within]
  constructor
  · intro same
    exact (Nat.modEq_iff_dvd' (Nat.le_add_right _ _)).mp same.symm |>.trans (by simp)
  · rintro ⟨c, multiple⟩
    rw [multiple, Nat.add_mul_mod_self_left]

/-! ## The rows -/

/-- A register of the function's frame, where the lowering keeps operands. -/
def Reg.IsFrame (r : Reg) : Prop := Reg.frameBase ≤ r.val

/-- Frame registers are none of the machine's own. -/
theorem Reg.IsFrame.ne {r : Reg} (frame : r.IsFrame) {s : Reg} (own : s.val < Reg.frameBase) :
    r ≠ s := by
  rintro rfl
  exact absurd own (Nat.not_lt.mpr frame)

/-- Registers an unsigned division leaves: quotient, product and remainder. -/
def divmodRegs (regs : Reg → U64) (a b q : U64) : Reg → U64 :=
  writeReg (writeReg (writeReg regs Reg.t3 q) Reg.t2 (q * b)) Reg.t4 (a - q * b)

/-- The rows of an unsigned division accept exactly the advice the asserts accept. -/
theorem execute_unsignedDivmod (width : Width) {a b : Reg}
    (outsideA : a ≠ Reg.t2 ∧ a ≠ Reg.t3) (outsideB : b ≠ Reg.t2 ∧ b ≠ Reg.t3 ∧ b ≠ Reg.t4)
    (q : U64) (regs regs' : Reg → U64) :
    executeRows (constantProver q) (unsignedDivmodRows width a b) regs = some regs' ↔
      divmodAccepts width (regs a) (regs b) q ∧
        regs' = divmodRegs regs (regs a) (regs b) q := by
  obtain ⟨a2, a3⟩ := outsideA
  obtain ⟨b2, b3, b4⟩ := outsideB
  have z2 : Reg.t2 ≠ Reg.zero := by decide
  have z3 : Reg.t3 ≠ Reg.zero := by decide
  have z4 : Reg.t4 ≠ Reg.zero := by decide
  cases width <;>
    simp [unsignedDivmodRows, mul64, Operand.value, constantProver, divmodAccepts, divmodRegs,
      a2, a3, b2, b3, b4, z2, z3, z4, and_assoc, @eq_comm _ _ regs']

/-- The value an unsigned operator takes from the registers of the division. -/
def unsignedOutcome (op : BinaryOp) (a b q : U64) : U64 :=
  if op = .divU then q else a - q * b

/-- The value the rows leave in `rd`, `none` when an assert fails. -/
def rowsResult (q : U64) (rows : List Ir) (regs : Reg → U64) (rd : Reg) : Option U64 :=
  (executeRows (constantProver q) rows regs).map fun regs' => regs' rd

/-- The rows of `div_u` and `rem_u`. -/
theorem rowsResult_unsigned (width : Width) {op : BinaryOp} (unsigned : op = .divU ∨ op = .remU)
    {rd a b : Reg} (frameRd : rd.IsFrame) (frameA : a.IsFrame) (frameB : b.IsFrame) (q : U64)
    (regs : Reg → U64) (v : U64) :
    rowsResult q (binaryRows width op rd a (.reg b)) regs rd = some v ↔
      regs b ≠ 0 ∧ divmodAccepts width (regs a) (regs b) q ∧
        v = unsignedOutcome op (regs a) (regs b) q := by
  have rows : binaryRows width op rd a (.reg b) =
      .assert .ne .divideByZero b (.imm 0) :: (unsignedDivmodRows width a b ++
        [.alu (.add .w64) rd (if op = .divU then Reg.t3 else Reg.t4) (.imm 0)]) := by
    rcases unsigned with rfl | rfl <;> rfl
  have divmod := execute_unsignedDivmod width
    ⟨frameA.ne (s := Reg.t2) (by decide), frameA.ne (s := Reg.t3) (by decide)⟩
    ⟨frameB.ne (s := Reg.t2) (by decide), frameB.ne (s := Reg.t3) (by decide),
      frameB.ne (s := Reg.t4) (by decide)⟩ q regs
  have nonzero : rd ≠ Reg.zero := frameRd.ne (by decide)
  have magnitude : divmodRegs regs (regs a) (regs b) q (if op = .divU then Reg.t3 else Reg.t4) =
      unsignedOutcome op (regs a) (regs b) q := by
    rcases unsigned with rfl | rfl <;> rfl
  rw [rowsResult, rows, executeRows_assert, Operand.value, executeRows_append,
    Option.map_eq_some_iff]
  by_cases divisor : regs b = 0#64
  · simp [divisor]
  · simp only [AluOp.evaluate_ne, BitVec.ofNat_eq_ofNat, ne_eq, divisor, not_false_eq_true,
      if_true, Option.bind_eq_some_iff, divmod, executeRows_alu, executeRows_nil, true_and]
    constructor
    · rintro ⟨_, ⟨_, ⟨accepts, rfl⟩, ⟨⟩⟩, rfl⟩
      refine ⟨accepts, ?_⟩
      rw [writeReg_same _ nonzero, AluOp.evaluate_add64, magnitude, Operand.value]
      exact BitVec.add_zero _
    · rintro ⟨accepts, rfl⟩
      refine ⟨_, ⟨_, ⟨accepts, rfl⟩, rfl⟩, ?_⟩
      rw [writeReg_same _ nonzero, AluOp.evaluate_add64, magnitude, Operand.value]
      exact BitVec.add_zero _

/-- A canonical register value read as a signed integer of the width, in 64 bits. -/
def Width.signed (width : Width) (v : U64) : U64 :=
  match width with
  | .w64 => v
  | .w32 => (v.setWidth 32).signExtend 64

/-- The magnitude of a canonical register value. -/
def Width.magnitude (width : Width) (v : U64) : U64 := negateBy (width.signed v) (width.signed v)

/-- The value a signed operator makes of the magnitudes' division. -/
def signedOutcome (width : Width) (op : BinaryOp) (a b q : U64) : U64 :=
  width.canonical (if op = .divS then negateBy (width.signed (a ^^^ b)) q
    else negateBy (width.signed a) (width.magnitude a - q * width.magnitude b))

theorem evaluate_signExtendWord_zero (v : U64) :
    AluOp.signExtendWord.evaluate v 0#64 = Width.w32.signed v := by
  simp [AluOp.evaluate, Width.signed]

theorem evaluate_lowerHalfWord_zero (v : U64) :
    AluOp.lowerHalfWord.evaluate v 0#64 = Width.w32.canonical v := by
  simp [AluOp.evaluate, Width.canonical]

/-- The overflow rows fail exactly on the overflow pair. -/
theorem evaluate_overflow (x y m n : U64) :
    AluOp.and.evaluate (AluOp.eq.evaluate x m) (AluOp.eq.evaluate y n) = 0#64 ↔
      ¬ (x = m ∧ y = n) := by
  by_cases hx : x = m <;> by_cases hy : y = n <;> simp [AluOp.evaluate, hx, hy, U64.ofBool]

/-- The temporaries are different registers. -/
theorem Reg.temporaries_distinct :
    (t0 ≠ zero ∧ t1 ≠ zero ∧ t2 ≠ zero ∧ t3 ≠ zero ∧ t4 ≠ zero) ∧
    (t0 ≠ t1 ∧ t0 ≠ t2 ∧ t0 ≠ t3 ∧ t0 ≠ t4 ∧ t1 ≠ t2 ∧ t1 ≠ t3 ∧ t1 ≠ t4) ∧
    t2 ≠ t3 ∧ t2 ≠ t4 ∧ t3 ≠ t2 ∧ t3 ≠ t4 ∧ t4 ≠ t2 ∧ t4 ≠ t3 := by
  decide

/-- The rows of `div_s` and `rem_s`. -/
theorem rowsResult_signed (width : Width) {op : BinaryOp} (signed : op = .divS ∨ op = .remS)
    {rd a b : Reg} (frameRd : rd.IsFrame) (frameA : a.IsFrame) (frameB : b.IsFrame) (q : U64)
    (regs : Reg → U64) (v : U64)
    (accepted : rowsResult q (binaryRows width op rd a (.reg b)) regs rd = some v) :
    regs b ≠ 0 ∧
      (op = .divS → ¬ (regs a = (signedOverflowPair width).1 ∧
        regs b = (signedOverflowPair width).2)) ∧
      divmodAccepts .w64 (width.magnitude (regs a)) (width.magnitude (regs b)) q ∧
      v = signedOutcome width op (regs a) (regs b) q := by
  have a0 : a ≠ Reg.t0 := frameA.ne (by decide)
  have a1 : a ≠ Reg.t1 := frameA.ne (by decide)
  have a2 : a ≠ Reg.t2 := frameA.ne (by decide)
  have a3 : a ≠ Reg.t3 := frameA.ne (by decide)
  have a4 : a ≠ Reg.t4 := frameA.ne (by decide)
  have b0 : b ≠ Reg.t0 := frameB.ne (by decide)
  have b1 : b ≠ Reg.t1 := frameB.ne (by decide)
  have b2 : b ≠ Reg.t2 := frameB.ne (by decide)
  have b3 : b ≠ Reg.t3 := frameB.ne (by decide)
  have b4 : b ≠ Reg.t4 := frameB.ne (by decide)
  have nonzero : rd ≠ Reg.zero := frameRd.ne (by decide)
  have divmod := fun regs => execute_unsignedDivmod .w64 (a := Reg.t0) (b := Reg.t1)
    (by decide) (by decide) q regs
  rcases signed with rfl | rfl <;> cases width <;>
    simp [rowsResult, binaryRows, directTable, expandBinaryRows, signedDivmodRows,
      assertNonzeroRows, executeRows_append, Operand.value, Option.bind_eq_some_iff, divmod,
      divmodRegs, a0, a1, a2, a3, a4, b0, b1, b2, b3, b4, nonzero, Reg.temporaries_distinct,
      AluOp.evaluate_negateIf, evaluate_signExtendWord_zero, evaluate_lowerHalfWord_zero,
      evaluate_overflow] at accepted
  all_goals
    simp only [signedOutcome, if_true, reduceCtorEq, if_false, Width.magnitude]
  · obtain ⟨⟨divisor, pair, accepts⟩, rfl⟩ := accepted
    exact ⟨divisor, fun _ both => pair both.1 both.2, accepts, rfl⟩
  · obtain ⟨⟨divisor, pair, accepts⟩, rfl⟩ := accepted
    simp only [Width.canonical, Width.signed]
    exact ⟨divisor, fun _ both => pair both.1 both.2, accepts, trivial⟩
  · obtain ⟨⟨divisor, accepts⟩, rfl⟩ := accepted
    exact ⟨divisor, False.elim, accepts, rfl⟩
  · obtain ⟨⟨divisor, accepts⟩, rfl⟩ := accepted
    simp only [Width.canonical, Width.signed]
    exact ⟨divisor, False.elim, accepts, trivial⟩

/-! ## Division through magnitudes -/

theorem sdiv_negateBy {n : ℕ} (a b : BitVec n) :
    a.sdiv b = negateBy (a ^^^ b) (negateBy a a / negateBy b b) := by
  rw [BitVec.sdiv_eq]
  cases ha : a.msb <;> cases hb : b.msb <;> simp [negateBy, ha, hb]

theorem srem_negateBy {n : ℕ} (a b : BitVec n) :
    a.srem b = negateBy a (negateBy a a % negateBy b b) := by
  rw [BitVec.srem_eq]
  cases ha : a.msb <;> cases hb : b.msb <;> simp [negateBy, ha, hb]

/-- The sign of a sign-extended value. -/
theorem negateBy_signed {m : ℕ} (v : U64) (x : BitVec m) :
    negateBy (Width.w32.signed v) x = negateBy (v.setWidth 32) x := by
  simp [negateBy, Width.signed, BitVec.msb_signExtend]

/-- The magnitude of an `i32` fits in 32 bits. -/
theorem magnitude_w32 (v : U64) :
    Width.w32.magnitude v = (negateBy (v.setWidth 32) (v.setWidth 32)).setWidth 64 := by
  rw [Width.magnitude, negateBy_signed]
  unfold negateBy Width.signed
  generalize v.setWidth 32 = x
  have small := x.isLt
  cases sign : x.msb
  · rw [if_neg (by simp), if_neg (by simp), BitVec.signExtend_eq_setWidth_of_msb_false sign]
  · have large : 2 ^ 31 ≤ x.toNat := by
      simpa [BitVec.msb_eq_decide] using sign
    rw [if_pos rfl, if_pos rfl]
    apply BitVec.eq_of_toNat_eq
    rw [BitVec.toNat_neg, BitVec.toNat_signExtend, if_pos sign, BitVec.toNat_setWidth,
      BitVec.toNat_setWidth, BitVec.toNat_neg]
    omega

theorem canonical_negateBy {n : ℕ} (sign : BitVec n) (x : BitVec 32) :
    Width.w32.canonical (negateBy sign (x.setWidth 64)) = (negateBy sign x).setWidth 64 := by
  simp only [Width.canonical, U64.low32, negateBy]
  congr 1
  cases sign.msb
  · simp
  · rw [if_pos rfl, if_pos rfl]
    apply BitVec.eq_of_toNat_eq
    simp only [BitVec.toNat_setWidth, BitVec.toNat_neg]
    have small := x.isLt
    omega

theorem toNat_setWidth_word (x : BitVec 32) : (x.setWidth 64).toNat = x.toNat := by
  have small := x.isLt
  rw [BitVec.toNat_setWidth, Nat.mod_eq_of_lt (by omega)]

theorem setWidth_udiv (x y : BitVec 32) :
    x.setWidth 64 / y.setWidth 64 = (x / y).setWidth 64 := by
  apply BitVec.eq_of_toNat_eq
  simp only [BitVec.toNat_udiv, toNat_setWidth_word]

theorem setWidth_umod (x y : BitVec 32) :
    x.setWidth 64 % y.setWidth 64 = (x % y).setWidth 64 := by
  apply BitVec.eq_of_toNat_eq
  simp only [BitVec.toNat_umod, toNat_setWidth_word]

/-- A canonical value is its low word, zero-extended. -/
theorem canonical_w32_eq {v : U64} (canonical : Width.w32.canonical v = v) :
    (v.setWidth 32).setWidth 64 = v := canonical

/-- A canonical value is zero when its low word is. -/
theorem setWidth_ne_zero {v : U64} (canonical : Width.w32.canonical v = v) (nonzero : v ≠ 0) :
    v.setWidth 32 ≠ 0 := by
  intro zero
  rw [← canonical_w32_eq canonical, zero] at nonzero
  exact nonzero rfl

/-- The accepted quotient of the magnitudes gives the signed result. -/
theorem signedOutcome_eq (width : Width) {op : BinaryOp} (signed : op = .divS ∨ op = .remS)
    {a b q : U64} (canonicalA : width.canonical a = a) (canonicalB : width.canonical b = b)
    (nonzero : b ≠ 0)
    (pair : op = .divS → ¬ (a = (signedOverflowPair width).1 ∧ b = (signedOverflowPair width).2))
    (accepts : divmodAccepts .w64 (width.magnitude a) (width.magnitude b) q) :
    wasmDivision width op a b = some (signedOutcome width op a b q) := by
  obtain ⟨quotient, remainder⟩ := divmod_exact (accepts.1 rfl) accepts.2.1 accepts.2.2
  cases width with
  | w64 =>
      rcases signed with rfl | rfl
      · have noOverflow : ¬ (b = 0 ∨ (a = BitVec.intMin 64 ∧ b = BitVec.allOnes 64)) := by
          rintro (zero | both)
          · exact nonzero zero
          · exact pair rfl both
        simp only [wasmDivision, wasmDivisionBits, if_neg noOverflow, sdiv_negateBy, signedOutcome,
          if_true, Width.canonical, quotient]
        rfl
      · simp only [wasmDivision, wasmDivisionBits, if_neg nonzero, srem_negateBy, signedOutcome,
          reduceCtorEq, if_false, Width.canonical, remainder]
        rfl
  | w32 =>
      have nonzero32 := setWidth_ne_zero canonicalB nonzero
      rw [magnitude_w32, magnitude_w32] at quotient remainder
      rw [setWidth_udiv] at quotient
      rw [setWidth_umod] at remainder
      rcases signed with rfl | rfl
      · have noOverflow : ¬ (b.setWidth 32 = 0 ∨
            (a.setWidth 32 = BitVec.intMin 32 ∧ b.setWidth 32 = BitVec.allOnes 32)) := by
          rintro (zero | ⟨minimum, minusOne⟩)
          · exact nonzero32 zero
          · refine pair rfl ⟨?_, ?_⟩
            · rw [← canonical_w32_eq canonicalA, minimum]
              rfl
            · rw [← canonical_w32_eq canonicalB, minusOne]
              rfl
        simp only [wasmDivision, wasmDivisionBits, if_neg noOverflow, sdiv_negateBy, signedOutcome,
          if_true, Option.map_some, quotient, negateBy_signed, BitVec.setWidth_xor,
          canonical_negateBy]
      · simp only [wasmDivision, wasmDivisionBits, if_neg nonzero32, srem_negateBy, signedOutcome,
          reduceCtorEq, if_false, Option.map_some, magnitude_w32, remainder, negateBy_signed,
          canonical_negateBy]

/-! ## Soundness of the emitted rows -/

/-- The rows of a division neither touch memory nor jump. -/
theorem binaryRows_straight (width : Width) {op : BinaryOp} (division : op.isDivision = true)
    (rd a b : Reg) : ∀ row ∈ binaryRows width op rd a (.reg b), row.isStraight = true := by
  rw [← List.all_eq_true]
  cases op <;> cases width <;> first | exact absurd division (by decide) | rfl

/-- Running the emitted rows gives `rowsResult`. -/
theorem emitBinary_result (width : Width) {op : BinaryOp} (division : op.isDivision = true)
    {rd a b : Reg} {e e' : Emitter}
    (emitted : Emitter.emitBinary width op rd a (.reg b) e = .ok ((), e')) (q : U64)
    (regs : Reg → U64) (memory : Memory) (v : U64) :
    (∃ final, Machine.steps (constantProver q) e'.code (e'.code.length - e.code.length)
        ⟨regs, BitVec.ofNat 32 e.code.length, memory⟩ = .ok final ∧ final.regs rd = v) ↔
      rowsResult q (binaryRows width op rd a (.reg b)) regs rd = some v := by
  obtain ⟨bound, rfl⟩ := Emitter.emitAll_ok emitted
  have rows : 0 < (binaryRows width op rd a (.reg b)).length := by
    cases op <;> cases width <;> first | exact absurd division (by decide) | exact Nat.zero_lt_succ _
  have fits : e.code.length + (binaryRows width op rd a (.reg b)).length ≤ 2 ^ 32 := by
    rcases bound with empty | bound
    · rw [empty] at rows
      cases rows
    · exact bound
  have start : (BitVec.ofNat 32 e.code.length).toNat = e.code.length := by
    rw [BitVec.toNat_ofNat, Nat.mod_eq_of_lt (by omega)]
  have run := fun final => Machine.steps_straight (constantProver q)
    (e.code ++ binaryRows width op rd a (.reg b)) (binaryRows width op rd a (.reg b))
    ⟨regs, BitVec.ofNat 32 e.code.length, memory⟩ final
    (by rw [start, List.drop_left]) (by rw [start]; exact fits)
    (binaryRows_straight width division rd a b)
  simp only [List.length_append, Nat.add_sub_cancel_left, run, rowsResult, Option.map_eq_some_iff]
  constructor
  · rintro ⟨final, ⟨regs', executed, rfl⟩, value⟩
    exact ⟨regs', executed, value⟩
  · rintro ⟨regs', executed, value⟩
    exact ⟨_, ⟨regs', executed, rfl⟩, value⟩

/-- The WebAssembly result of the unsigned operators. -/
theorem wasmDivision_unsigned (width : Width) {op : BinaryOp} (unsigned : op = .divU ∨ op = .remU)
    {a b : U64} (canonicalA : width.canonical a = a) (canonicalB : width.canonical b = b)
    (nonzero : b ≠ 0) :
    wasmDivision width op a b = some (if op = .divU then a / b else a % b) := by
  cases width with
  | w64 =>
      rcases unsigned with rfl | rfl
      · exact if_neg nonzero
      · exact if_neg nonzero
  | w32 =>
      have nonzero32 := setWidth_ne_zero canonicalB nonzero
      have divided := setWidth_udiv (a.setWidth 32) (b.setWidth 32)
      have reduced := setWidth_umod (a.setWidth 32) (b.setWidth 32)
      rw [canonical_w32_eq canonicalA, canonical_w32_eq canonicalB] at divided reduced
      rcases unsigned with rfl | rfl
      · rw [wasmDivision, wasmDivisionBits, if_neg nonzero32, Option.map_some, if_pos rfl, divided]
      · rw [wasmDivision, wasmDivisionBits, if_neg nonzero32, Option.map_some, if_neg (by decide),
          reduced]

/-- The unsigned operators leave the WebAssembly result unless the advice wraps unchecked. -/
theorem unsigned_sound_iff (width : Width) {op : BinaryOp} (unsigned : op = .divU ∨ op = .remU)
    {a b q : U64} (canonicalA : width.canonical a = a) (canonicalB : width.canonical b = b) :
    (b ≠ 0 → divmodAccepts width a b q →
        wasmDivision width op a b = some (unsignedOutcome op a b q)) ↔
      ¬ UncheckedWrap width op a b q := by
  constructor
  · rintro sound ⟨rfl, k, wrapped, which⟩
    have result := sound wrapped.nonzero
      ((divmodAccepts_w32_iff wrapped.nonzero).mpr ⟨k, wrapped.2⟩)
    rw [wasmDivision_unsigned .w32 unsigned canonicalA canonicalB wrapped.nonzero,
      Option.some.injEq] at result
    rcases which with rfl | ⟨rfl, indivisible⟩
    · exact wrapped.ne_quotient result.symm
    · exact indivisible ((divmod_remainder wrapped.2.1 wrapped.2.2).mp result.symm)
  · intro noWrap nonzero accepts
    rw [wasmDivision_unsigned width unsigned canonicalA canonicalB nonzero, Option.some.injEq]
    cases width with
    | w64 =>
        obtain ⟨quotient, remainder⟩ := divmod_exact (accepts.1 rfl) accepts.2.1 accepts.2.2
        rw [unsignedOutcome, quotient, ← quotient, remainder]
    | w32 =>
        obtain ⟨k, quotient, within⟩ := (divmodAccepts_w32_iff nonzero).mp accepts
        by_cases wraps : 1 ≤ k
        · rcases unsigned with rfl | rfl
          · exact absurd ⟨rfl, k, ⟨wraps, quotient, within⟩, .inl rfl⟩ noWrap
          · have divides : b.toNat ∣ k * 2 ^ 64 := by
              by_contra indivisible
              exact noWrap ⟨rfl, k, ⟨wraps, quotient, within⟩, .inr ⟨rfl, indivisible⟩⟩
            exact ((divmod_remainder quotient within).mpr divides).symm
        · obtain rfl : k = 0 := by omega
          rcases unsigned with rfl | rfl
          · apply BitVec.eq_of_toNat_eq
            rw [if_pos rfl, BitVec.toNat_udiv, unsignedOutcome, if_pos rfl, quotient, Nat.zero_mul,
              Nat.add_zero]
          · exact ((divmod_remainder quotient within).mpr (by simp)).symm

/-- Whatever value the prover supplies for the advice row, when every assert of the emitted rows
passes `rd` holds the WebAssembly result, exactly when the advice is no unchecked wrap. -/
theorem emitBinary_division_sound_iff (width : Width) {op : BinaryOp}
    (division : op.isDivision = true) {rd a b : Reg} (frameRd : rd.IsFrame) (frameA : a.IsFrame)
    (frameB : b.IsFrame) {e e' : Emitter}
    (emitted : Emitter.emitBinary width op rd a (.reg b) e = .ok ((), e')) (regs : Reg → U64)
    (memory : Memory) (canonicalA : width.canonical (regs a) = regs a)
    (canonicalB : width.canonical (regs b) = regs b) (q : U64) :
    (∀ final, Machine.steps (constantProver q) e'.code (e'.code.length - e.code.length)
        ⟨regs, BitVec.ofNat 32 e.code.length, memory⟩ = .ok final →
          wasmDivision width op (regs a) (regs b) = some (final.regs rd)) ↔
      ¬ UncheckedWrap width op (regs a) (regs b) q := by
  have result := emitBinary_result width division emitted q regs memory
  have outcomes : (∀ final, Machine.steps (constantProver q) e'.code
        (e'.code.length - e.code.length) ⟨regs, BitVec.ofNat 32 e.code.length, memory⟩ =
          .ok final → wasmDivision width op (regs a) (regs b) = some (final.regs rd)) ↔
      ∀ v, rowsResult q (binaryRows width op rd a (.reg b)) regs rd = some v →
        wasmDivision width op (regs a) (regs b) = some v := by
    constructor
    · intro sound v executed
      obtain ⟨final, ran, rfl⟩ := (result v).mpr executed
      exact sound final ran
    · intro sound final ran
      exact sound _ ((result _).mp ⟨final, ran, rfl⟩)
  rw [outcomes]
  have kinds : (op = .divU ∨ op = .remU) ∨ (op = .divS ∨ op = .remS) := by
    cases op <;> first | exact absurd division (by decide) | simp
  rcases kinds with unsigned | signed
  · rw [← unsigned_sound_iff width unsigned canonicalA canonicalB]
    simp only [rowsResult_unsigned width unsigned frameRd frameA frameB]
    constructor
    · intro sound nonzero accepts
      exact sound _ ⟨nonzero, accepts, rfl⟩
    · rintro sound v ⟨nonzero, accepts, rfl⟩
      exact sound nonzero accepts
  · have noWrap : ¬ UncheckedWrap width op (regs a) (regs b) q := by
      rintro ⟨-, k, -, rfl | ⟨rfl, -⟩⟩ <;> simp at signed
    refine iff_of_true (fun v executed => ?_) noWrap
    obtain ⟨nonzero, pair, accepts, rfl⟩ :=
      rowsResult_signed width signed frameRd frameA frameB q regs v executed
    exact signedOutcome_eq width signed canonicalA canonicalB nonzero pair accepts

/-- The registers of a division: `dividend` and `divisor` in the second and third frame slots. -/
def divisionRegs (dividend divisor : U64) : Reg → U64 :=
  fun r => if r = 13 then dividend else if r = 14 then divisor else 0

/-- The 32-bit division of 7 by 2. -/
theorem emitBinary_division_sound_seven :
    (∀ final, Machine.steps (constantProver 3)
        ([.halt] ++ binaryRows .w32 .divU 12 13 (.reg 14)) 7
        ⟨divisionRegs 7 2, 1, Memory.new ⟨0, 0⟩ [] []⟩ = .ok final →
          wasmDivision .w32 .divU 7 2 = some (final.regs 12)) ↔
      ¬ UncheckedWrap .w32 .divU 7 2 3 :=
  @emitBinary_division_sound_iff .w32 .divU rfl 12 13 14 (by unfold Reg.IsFrame; decide)
    (by unfold Reg.IsFrame; decide) (by unfold Reg.IsFrame; decide) {}
    { code := [.halt] ++ binaryRows .w32 .divU 12 13 (.reg 14) } rfl (divisionRegs 7 2)
    (Memory.new ⟨0, 0⟩ [] []) rfl rfl 3

/-- One divided by three: the asserts pass a quotient of `1 + 2 · 2^64`, and `rd` is not even
canonical. -/
theorem divU_unchecked_wrap :
    Emitter.emitBinary .w32 .divU 12 13 (.reg 14) {} =
        .ok ((), { code := [.halt] ++ binaryRows .w32 .divU 12 13 (.reg 14) }) ∧
      Width.w32.canonical (divisionRegs 1 3 13) = divisionRegs 1 3 13 ∧
      Width.w32.canonical (divisionRegs 1 3 14) = divisionRegs 1 3 14 ∧
      ∃ final, Machine.steps (constantProver 0xAAAAAAAAAAAAAAAB)
          ([.halt] ++ binaryRows .w32 .divU 12 13 (.reg 14)) 7
          ⟨divisionRegs 1 3, 1, Memory.new ⟨0, 0⟩ [] []⟩ = .ok final ∧
        final.regs 12 = 0xAAAAAAAAAAAAAAAB ∧
        wasmDivision .w32 .divU (divisionRegs 1 3 13) (divisionRegs 1 3 14) = some 0 ∧
        Width.w32.canonical (final.regs 12) ≠ final.regs 12 := by
  refine ⟨rfl, rfl, rfl, ?_⟩
  have frame : ∀ r : Reg, 12 ≤ r.val → r.IsFrame := fun _ h => h
  have result := @emitBinary_result .w32 .divU rfl 12 13 14 {}
    { code := [.halt] ++ binaryRows .w32 .divU 12 13 (.reg 14) } rfl 0xAAAAAAAAAAAAAAAB
    (divisionRegs 1 3) (Memory.new ⟨0, 0⟩ [] []) 0xAAAAAAAAAAAAAAAB
  obtain ⟨final, ran, value⟩ := result.mpr
    ((rowsResult_unsigned .w32 (.inl rfl) (frame 12 (by decide)) (frame 13 (by decide))
      (frame 14 (by decide)) _ _ _).mpr ⟨by decide, ⟨by decide, by decide, by decide⟩, rfl⟩)
  refine ⟨final, ran, value, by decide, ?_⟩
  rw [value]
  decide

end JoltWasm
