import JoltWasm.Lib.Carry
import JoltWasm.Poly.EqTables
import JoltWasm.Claims.Dimensions

/-!
# The shifted slice of the equality polynomial

The verifier's value for the program image: the slice of weights from the image's start address, taken at
the opening point by an automaton that adds the start to an index bit by bit and carries over.  The prover
builds the same slice as a table.
-/

namespace JoltWasm.ProgramImageClaimReduction

open Finset Lib

section

variable {F : Type} [Field F]

/-- One bit of the addition, from the lowest; the two sums belong to a carry of zero and of one. -/
def shiftedEqStep (rAddrBe : List F) (startIndex : ℕ) (openingPointBe : List F) (dp : F × F) (lsb : ℕ) : F × F :=
  let rA := rAddrBe.getD (rAddrBe.length - 1 - lsb) 0
  let rY := if lsb < openingPointBe.length then openingPointBe.getD (openingPointBe.length - 1 - lsb) 0 else 0
  let eq := rA * rY + (1 - rA) * (1 - rY)
  let carryGen := rY * (1 - rA)
  let carryUse := (1 - rY) * rA
  if (startIndex >>> lsb) &&& 1 = 0 then (dp.1 * eq + dp.2 * carryUse, dp.2 * carryGen)
  else (dp.1 * carryUse, dp.1 * carryGen + dp.2 * eq)

def evalShiftedEqPolyAtOpeningPoint (rAddrBe : List F) (startIndex : ℕ) (openingPointBe : List F) :
    Except JoltFormulaPointError F :=
  let ell := rAddrBe.length
  let m := openingPointBe.length
  if ell < m then .error (.openingPointLengthMismatch ell m)
  else
    let dp := (List.range ell).foldl (shiftedEqStep rAddrBe startIndex openingPointBe) (1, 0)
    -- The carry out of the last bit is dropped.
    .ok (dp.1 + dp.2)

/-! ## The automaton -/

/-- The opening point, with zeros for the bits that the index does not have. -/
def window (ell : ℕ) (openingPointBe : List F) : List F :=
  List.replicate (ell - openingPointBe.length) 0 ++ openingPointBe

theorem length_window {ell : ℕ} {openingPointBe : List F} (fits : openingPointBe.length ≤ ell) :
    (window ell openingPointBe).length = ell := by
  rw [window, List.length_append, List.length_replicate, Nat.sub_add_cancel fits]

theorem getD_window {ell lsb : ℕ} {openingPointBe : List F} (fits : openingPointBe.length ≤ ell) (inside : lsb < ell) :
    (if lsb < openingPointBe.length then openingPointBe.getD (openingPointBe.length - 1 - lsb) 0 else 0) =
      (window ell openingPointBe).getD (ell - 1 - lsb) 0 := by
  rw [window]
  split_ifs with low
  · rw [List.getD_append_right _ _ _ _ (by rw [List.length_replicate]; omega), List.length_replicate]
    congr 1
    omega
  · rw [List.getD_append _ _ _ _ (by rw [List.length_replicate]; omega)]
    exact (List.getD_replicate _ (by omega)).symm

theorem bit_clear (startIndex lsb : ℕ) : ((startIndex >>> lsb) &&& 1 = 0) ↔ startIndex.testBit lsb = false := by
  rw [Nat.testBit, Nat.and_comm]
  simp

/-- After the low bits of both points, the two sums over the indices of those bits. -/
theorem shiftedEq_prefix (startIndex : ℕ) (address point opening : List F) (high : List F)
    (same : address.length = point.length) (fits : opening.length ≤ (high ++ address).length)
    (low : ∃ rest, window (high ++ address).length opening = rest ++ point) :
    (List.range address.length).foldl (shiftedEqStep (high ++ address) startIndex opening) (1, 0) =
      (carrySum address point startIndex 0, carrySum address point startIndex 1) := by
  induction address generalizing point high with
  | nil =>
    obtain rfl := List.length_eq_zero_iff.mp same.symm
    obtain ⟨none, one⟩ := carrySum_nil ([] : List F) startIndex
    rw [none, one, eqWeight, List.length_nil, List.range_zero, List.foldl_nil]
  | cons a address ih =>
    obtain ⟨y, point, rfl⟩ := List.exists_cons_of_length_eq_add_one same.symm
    obtain ⟨rest, split⟩ := low
    have smaller : address.length = point.length := by simpa using same
    have before := ih point (high ++ [a]) smaller (by simpa using fits)
      ⟨rest ++ [y], by simpa [List.append_assoc] using split⟩
    rw [List.append_assoc, List.singleton_append] at before
    have ell : (high ++ a :: address).length = high.length + 1 + address.length := by
      rw [List.length_append, List.length_cons]
      omega
    -- the coordinates of the next bit
    have nextA : (high ++ a :: address).getD ((high ++ a :: address).length - 1 - address.length) 0 = a := by
      rw [ell, List.getD_append_right _ _ _ _ (by omega), show high.length + 1 + address.length - 1 - address.length -
        high.length = 0 by omega, List.getD_cons_zero]
    have nextY : (window (high ++ a :: address).length opening).getD
        ((high ++ a :: address).length - 1 - address.length) 0 = y := by
      have total := congrArg List.length split
      rw [length_window fits, ell, List.length_append, List.length_cons, ← smaller] at total
      rw [split, List.getD_append_right _ _ _ _ (by rw [ell]; omega), show (high ++ a :: address).length - 1 - address.length -
        rest.length = 0 by rw [ell]; omega, List.getD_cons_zero]
    rw [List.length_cons, List.range_succ, List.foldl_append, before, List.foldl_cons, List.foldl_nil,
      shiftedEqStep, getD_window fits (by omega), nextA, nextY, carrySum_cons smaller, ← smaller]
    cases bit : startIndex.testBit address.length with
    | false => rw [if_pos ((bit_clear _ _).mpr bit), if_neg (by decide)]
    | true => rw [if_neg (by rw [bit_clear, bit]; decide), if_pos rfl]

/-- The entry of the slice: the product formula at the bits of the shifted index, which wraps. -/
def sliceEntry (rAddrBe : List F) (startIndex j : ℕ) : F :=
  eqMle rAddrBe (bitPoint F rAddrBe.length ((startIndex + j) % 2 ^ rAddrBe.length))

theorem sliceEntry_eq (rAddrBe : List F) (startIndex j : ℕ) :
    sliceEntry rAddrBe startIndex j = eqWeight rAddrBe (startIndex + j) := by
  rw [sliceEntry, ← EqPolynomial.eqWeight_eq_eqMle rAddrBe (Nat.mod_lt _ (Nat.two_pow_pos _)), eqWeight_mod]

end

/-- The verifier's value is the extension of the slice of weights, whose entries wrap at the end of the
address space, and the table that the prover builds is that slice. -/
theorem evalShiftedEqPolyAtOpeningPoint_eq {F : Type} [Field F] {rAddrBe : List F} (narrow : rAddrBe.length < 64)
    (startIndex : ℕ) {openingPointBe : List F} (fits : openingPointBe.length ≤ rAddrBe.length) :
    evalShiftedEqPolyAtOpeningPoint rAddrBe startIndex openingPointBe =
        .ok (extension (sliceEntry rAddrBe startIndex) openingPointBe) ∧
      EqPolynomial.shiftedEqSlice rAddrBe startIndex (2 ^ openingPointBe.length) =
        some ((List.range (2 ^ openingPointBe.length)).map (sliceEntry rAddrBe startIndex)) := by
  have whole := shiftedEq_prefix startIndex rAddrBe (window rAddrBe.length openingPointBe) openingPointBe []
    (length_window fits).symm fits ⟨[], rfl⟩
  rw [List.nil_append] at whole
  constructor
  · have total : carrySum rAddrBe (window rAddrBe.length openingPointBe) startIndex 0 +
        carrySum rAddrBe (window rAddrBe.length openingPointBe) startIndex 1 =
          extension (sliceEntry rAddrBe startIndex) openingPointBe := by
      rw [carrySum_add, window, extension_zeros]
      exact extension_congr fun j _ => (sliceEntry_eq _ _ j).symm
    rw [evalShiftedEqPolyAtOpeningPoint, if_neg (Nat.not_lt.mpr fits), whole]
    exact congrArg Except.ok total
  · rw [EqPolynomial.shiftedEqSlice_eq narrow]
    exact congrArg some (List.map_congr_left fun j _ => (sliceEntry_eq _ _ j).symm)

/-- Four addresses and a slice of two that starts at the last one and wraps. -/
theorem evalShiftedEqPolyAtOpeningPoint_wraps :
    evalShiftedEqPolyAtOpeningPoint [(2 : ℚ), 3] 3 [5] =
        .ok (extension (sliceEntry [(2 : ℚ), 3] 3) [5]) ∧
      EqPolynomial.shiftedEqSlice [(2 : ℚ), 3] 3 2 =
        some ((List.range 2).map (sliceEntry [(2 : ℚ), 3] 3)) :=
  @evalShiftedEqPolyAtOpeningPoint_eq ℚ _ [2, 3] (by decide) 3 [5] (by decide)

end JoltWasm.ProgramImageClaimReduction
