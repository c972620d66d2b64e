import Mathlib.Data.Nat.Log
import JoltWasm.Ir.Alu
import JoltWasm.Lib.Extension

/-!
# Closed-form multilinear extensions

The verifier's evaluations at a point, most significant variable first: the equality polynomial, sparse
vectors given by segments of words, and the mask of a range.
-/

namespace JoltWasm

open Lib

inductive MleError where
  | equalityArityMismatch (left right : ℕ)
  | invalidRange (start end_ : ℕ)
  | domainTooLarge (arity : ℕ)
  | rangeEndOutOfDomain (end_ domainSize : ℕ)
  | blockVariablesExceedArity (blockVars arity : ℕ)
  | blockStartUnaligned (startIndex blockSize : ℕ)
  | blockEndOutOfDomain (end_ domainSize : ℕ)
  deriving DecidableEq

/-- The bit of an index that is at most 128 bits wide. -/
def msbBit (value len position : ℕ) : Bool :=
  let shift := len - 1 - position
  if shift < 128 then value.testBit shift else false

/-- `1u128.checked_shl`. -/
def checkedShl (shift : ℕ) : Option ℕ := if shift < 128 then some (2 ^ shift) else none

/-- The shift's argument is a `u32`. -/
theorem checkedShl_of_lt {shift : ℕ} (small : shift < 128) : checkedShl (shift % 2 ^ 32) = some (2 ^ shift) := by
  rw [Nat.mod_eq_of_lt (small.trans (by norm_num)), checkedShl, if_pos small]

/-- An index of at most 128 bits has no bit past them. -/
theorem msbBit_eq {value : ℕ} (small : value < 2 ^ 128) {len position : ℕ} {α : Type} {point : List α}
    (rest : position + (point.length + 1) = len) :
    msbBit value len position = value.testBit point.length := by
  have shift : len - 1 - position = point.length := by omega
  unfold msbBit
  rw [shift]
  simp only
  split_ifs with inside
  · rfl
  · exact (Nat.testBit_lt_two_pow (small.trans_le
      (Nat.pow_le_pow_right two_pos (Nat.not_lt.mp inside)))).symm

section

variable {F : Type} [Field F]

/-- The product over the coordinates, from position `position` on. -/
def eqIndexLoop (len index : ℕ) : ℕ → F → List F → F
  | _, eq, [] => eq
  | position, eq, challenge :: point =>
      eqIndexLoop len index (position + 1)
        (if msbBit index len position then eq * challenge else eq * (1 - challenge)) point

def eqIndexMsb (point : List F) (index : ℕ) : F := eqIndexLoop point.length index 0 1 point

/-- `EqPolynomial::mle`. -/
def eqMle (left right : List F) : F :=
  (List.zipWith (fun r p => r * p + (1 - r) * (1 - p)) left right).prod

/-- `EqPolynomial::evals`: every coordinate splits each entry in two. -/
def eqEvals (point : List F) : List F :=
  point.foldl (fun evals r => evals.flatMap fun scalar => [scalar - scalar * r, scalar * r]) [1]

def tryEqMle (left right : List F) : Except MleError F :=
  if left.length ≠ right.length then .error (.equalityArityMismatch left.length right.length)
  else .ok (eqMle left right)

def sparseMleMsb (startIndex : ℕ) (values : List U64) (point : List F) : F :=
  (values.zipIdx.map fun (value, offset) =>
    (value.toNat : F) * eqIndexMsb point (startIndex + offset)).sum

def sparseSegmentsMleMsb (segments : List (ℕ × List U64)) (point : List F) : F :=
  (segments.map fun (startIndex, values) => sparseMleMsb startIndex values point).sum

/-- The running weights of the indices below the bound and of the one that equals it. -/
def lessThanLoop (len bound : ℕ) : ℕ → F → F → List F → F
  | _, lt, _, [] => lt
  | position, lt, eq, challenge :: point =>
      if msbBit bound len position then
        lessThanLoop len bound (position + 1) (lt + eq * (1 - challenge)) (eq * challenge) point
      else lessThanLoop len bound (position + 1) lt (eq * (1 - challenge)) point

def lessThanMleMsb (bound : ℕ) (point : List F) : F :=
  if some bound = checkedShl (point.length % 2 ^ 32) then 1
  else lessThanLoop point.length bound 0 0 1 point

def rangeMaskMleMsb (rangeStart rangeEnd : ℕ) (point : List F) : Except MleError F :=
  if rangeEnd ≤ rangeStart then .error (.invalidRange rangeStart rangeEnd)
  else
    match checkedShl (point.length % 2 ^ 32) with
    | none => .error (.domainTooLarge point.length)
    | some domainSize =>
        if domainSize < rangeEnd then .error (.rangeEndOutOfDomain rangeEnd domainSize)
        else .ok (lessThanMleMsb rangeEnd point - lessThanMleMsb rangeStart point)

/-! ## Each is the extension of its vector -/

theorem eqIndexLoop_eq {index : ℕ} (small : index < 2 ^ 128) {len position : ℕ} (eq : F)
    {point : List F} (rest : position + point.length = len) :
    eqIndexLoop len index position eq point = eq * eqWeight point index := by
  induction point generalizing position eq with
  | nil => exact (mul_one eq).symm
  | cons challenge point ih =>
      rw [eqIndexLoop, ih _ (by rw [← rest, List.length_cons]; omega), eqWeight,
        msbBit_eq small rest]
      split_ifs <;> ring

theorem eqIndexMsb_eq {index : ℕ} (small : index < 2 ^ 128) (point : List F) :
    eqIndexMsb point index = eqWeight point index := by
  rw [eqIndexMsb, eqIndexLoop_eq small 1 (Nat.zero_add _), one_mul]

/-- The equality polynomial is the extension of the weights of its other point. -/
theorem eqMle_eq {left right : List F} (same : left.length = right.length) :
    eqMle left right = extension (eqWeight left) right := by
  induction left generalizing right with
  | nil =>
      obtain rfl := List.eq_nil_of_length_eq_zero same.symm
      simp [eqMle, extension, eqWeight]
  | cons r left ih =>
      cases right with
      | nil => cases same
      | cons p right =>
          have rest : left.length = right.length := Nat.succ.inj same
          have low : extension (eqWeight (r :: left)) right =
              (1 - r) * extension (eqWeight left) right := by
            rw [← extension_mul]
            exact extension_congr fun k small => eqWeight_cons_low r left (by rwa [rest])
          have high : extension (fun k => eqWeight (r :: left) (k + 2 ^ right.length)) right =
              r * extension (eqWeight left) right := by
            rw [← extension_mul, ← rest]
            exact extension_congr fun k small => eqWeight_cons_high r left (by rwa [rest])
          rw [extension_cons, low, high, ← ih rest, eqMle, List.zipWith_cons_cons, List.prod_cons,
            ← eqMle]
          ring

theorem eqMle_comm (left right : List F) : eqMle left right = eqMle right left := by
  unfold eqMle
  rw [List.zipWith_comm]
  congr 2
  funext r p
  ring

/-- The entries are the weights of the indices. -/
theorem eqEvals_eq (point : List F) :
    eqEvals point = (List.range (2 ^ point.length)).map (eqWeight point) := by
  -- The coordinates are split off from the last one on.
  induction point using List.reverseRecOn with
  | nil => rfl
  | append_singleton point r ih =>
      have double (n : ℕ) : List.range (2 * n) = (List.range n).flatMap fun k => [2 * k, 2 * k + 1] := by
        induction n with
        | zero => rfl
        | succ n ih =>
            rw [List.range_succ, List.flatMap_append, ← ih, Nat.mul_succ, List.range_succ,
              List.range_succ]
            simp
      rw [eqEvals, List.foldl_append, ← eqEvals, ih, List.foldl_cons, List.foldl_nil,
        List.length_append, List.length_singleton, pow_succ', double, List.flatMap_map,
        List.map_flatMap]
      refine List.flatMap_congr fun k _ => ?_
      have even : (2 * k) / 2 ^ [r].length = k := by simp
      have odd : (2 * k + 1) / 2 ^ [r].length = k := by
        rw [List.length_singleton, pow_one]
        omega
      have evenBit : (2 * k).testBit 0 = false := by simp
      have oddBit : (2 * k + 1).testBit 0 = true := by simp
      simp only [List.map_cons, List.map_nil, eqWeight_append, even, odd, eqWeight, List.length_nil,
        evenBit, oddBit]
      simp
      ring

@[simp] theorem length_eqEvals (point : List F) : (eqEvals point).length = 2 ^ point.length := by
  rw [eqEvals_eq, List.length_map, List.length_range]

theorem getD_eqEvals (point : List F) {k : ℕ} (small : k < 2 ^ point.length) :
    (eqEvals point).getD k 0 = eqWeight point k := by
  rw [eqEvals_eq, List.getD_eq_getElem _ _ (by simpa using small), List.getElem_map,
    List.getElem_range]

/-- A segment as a sum over its words. -/
theorem sparseMleMsb_eq_sum (startIndex : ℕ) (values : List U64) (point : List F) :
    sparseMleMsb startIndex values point = ∑ j ∈ Finset.range values.length,
      eqIndexMsb point (startIndex + j) * ((values.getD j 0).toNat : F) := by
  induction values using List.reverseRecOn with
  | nil => simp [sparseMleMsb]
  | append_singleton values value ih =>
      rw [List.length_append, List.length_singleton, Finset.sum_range_succ,
        List.getD_append_right _ _ _ _ le_rfl, Nat.sub_self]
      have before : ∑ j ∈ Finset.range values.length, eqIndexMsb point (startIndex + j) *
            (((values ++ [value]).getD j 0).toNat : F) =
          ∑ j ∈ Finset.range values.length, eqIndexMsb point (startIndex + j) *
            ((values.getD j 0).toNat : F) :=
        Finset.sum_congr rfl fun j member => by
          rw [List.getD_append _ _ _ _ (Finset.mem_range.mp member)]
      rw [before, ← ih]
      unfold sparseMleMsb
      rw [List.zipIdx_append, List.map_append, List.sum_append, Nat.zero_add]
      simp [mul_comm]

/-- The word that segments give an index; overlapping segments add up. -/
def segmentWord (startIndex : ℕ) (values : List U64) (k : ℕ) : U64 :=
  if startIndex ≤ k then values.getD (k - startIndex) 0 else 0

theorem sparseMleMsb_extension {startIndex : ℕ} {values : List U64} {point : List F}
    (inside : values ≠ [] → startIndex + values.length ≤ 2 ^ point.length)
    (addresses : values ≠ [] → startIndex + values.length ≤ 2 ^ 128) :
    sparseMleMsb startIndex values point =
      extension (fun k => ((segmentWord startIndex values k).toNat : F)) point := by
  -- The segment is an initial part of the values; it grows by one value at a time.
  induction values using List.reverseRecOn with
  | nil => simp [sparseMleMsb, segmentWord, extension_zero]
  | append_singleton values value ih =>
      have inside := inside (by simp)
      have addresses := addresses (by simp)
      rw [List.length_append, List.length_singleton] at inside addresses
      have grown : (fun k => ((segmentWord startIndex (values ++ [value]) k).toNat : F)) = fun k =>
          ((segmentWord startIndex values k).toNat : F) +
            if k = startIndex + values.length then (value.toNat : F) else 0 := by
        funext k
        unfold segmentWord
        by_cases before : startIndex ≤ k
        · rw [if_pos before, if_pos before]
          rcases Nat.lt_trichotomy (k - startIndex) values.length with low | here | high
          · rw [List.getD_append _ _ _ _ low, if_neg (by omega), add_zero]
          · rw [here, List.getD_append_right _ _ _ _ le_rfl, Nat.sub_self,
              List.getD_eq_default values _ le_rfl, if_pos (by omega)]
            simp
          · rw [List.getD_eq_default _ _ (by rw [List.length_append, List.length_singleton]; omega),
              List.getD_eq_default _ _ high.le, if_neg (by omega), add_zero]
        · rw [if_neg before, if_neg before, if_neg (by omega), add_zero]
      rw [grown, extension_add, extension_single point (by omega), ← ih (fun _ => by omega) fun _ => by omega]
      unfold sparseMleMsb
      rw [List.zipIdx_append, List.map_append, List.sum_append, Nat.zero_add]
      simp only [List.zipIdx_singleton, List.map_cons, List.map_nil, List.sum_cons, List.sum_nil,
        add_zero]
      rw [eqIndexMsb_eq (by omega)]

theorem sparseMleMsb_eq {startIndex : ℕ} {values : List U64} {point : List F}
    (inside : values ≠ [] → startIndex + values.length ≤ 2 ^ point.length)
    (small : point.length ≤ 128) :
    sparseMleMsb startIndex values point =
      extension (fun k => ((segmentWord startIndex values k).toNat : F)) point :=
  sparseMleMsb_extension inside fun nonempty =>
    (inside nonempty).trans (Nat.pow_le_pow_right two_pos small)

theorem lessThanLoop_eq {bound : ℕ} (small : bound < 2 ^ 128) {len position : ℕ} (lt eq : F)
    {point : List F} (rest : position + point.length = len) :
    lessThanLoop len bound position lt eq point =
      lt + eq * extension (fun k => if k < bound % 2 ^ point.length then 1 else 0) point := by
  induction point generalizing position lt eq with
  | nil => simp [lessThanLoop, extension, Nat.mod_one]
  | cons challenge point ih =>
      have rest' : position + 1 + point.length = len := by
        rw [← rest, List.length_cons]
        omega
      have below : bound % 2 ^ point.length < 2 ^ point.length := Nat.mod_lt _ (Nat.two_pow_pos _)
      have split : bound % 2 ^ (challenge :: point).length =
          bound % 2 ^ point.length + if bound.testBit point.length then 2 ^ point.length else 0 := by
        rw [List.length_cons, Nat.mod_pow_succ, ← Nat.toNat_testBit]
        cases bound.testBit point.length <;> simp
      rw [lessThanLoop, msbBit_eq small rest, extension_cons, split]
      by_cases bit : bound.testBit point.length = true
      · rw [if_pos bit, if_pos bit, ih _ _ rest']
        rw [show extension (fun k => if k < bound % 2 ^ point.length + 2 ^ point.length then 1 else 0)
            point = (1 : F) from (extension_congr fun k low => if_pos (by omega)).trans
              (extension_one point)]
        simp only [Nat.add_lt_add_iff_right]
        ring
      · rw [if_neg bit, if_neg bit, ih _ _ rest', Nat.add_zero]
        rw [show extension (fun k => if k + 2 ^ point.length < bound % 2 ^ point.length then 1 else 0)
            point = (0 : F) from (extension_congr fun k low => if_neg (by omega)).trans
              (extension_zero point)]
        ring

theorem lessThanMleMsb_eq {bound : ℕ} {point : List F} (small : point.length < 128)
    (inside : bound ≤ 2 ^ point.length) :
    lessThanMleMsb bound point = extension (fun k => if k < bound then 1 else 0) point := by
  have wide : 2 ^ point.length < 2 ^ 128 := Nat.pow_lt_pow_right one_lt_two small
  rw [lessThanMleMsb, checkedShl_of_lt small]
  split_ifs with whole
  · rw [Option.some_inj] at whole
    rw [whole]
    exact ((extension_congr fun k low => if_pos low).trans (extension_one point)).symm
  · have : bound < 2 ^ point.length := lt_of_le_of_ne inside fun same => whole (by rw [same])
    rw [lessThanLoop_eq (by omega) 0 1 (Nat.zero_add _), Nat.mod_eq_of_lt this, zero_add, one_mul]

/-- The mask of a range inside the domain. -/
theorem rangeMaskMleMsb_eq {rangeStart rangeEnd : ℕ} {point : List F} (small : point.length < 128)
    (nonempty : rangeStart < rangeEnd) (inside : rangeEnd ≤ 2 ^ point.length) :
    rangeMaskMleMsb rangeStart rangeEnd point =
      .ok (extension (fun k => if rangeStart ≤ k ∧ k < rangeEnd then 1 else 0) point) := by
  unfold rangeMaskMleMsb
  rw [if_neg (Nat.not_le.mpr nonempty), checkedShl_of_lt small]
  simp only
  rw [if_neg (Nat.not_lt.mpr inside), lessThanMleMsb_eq small inside,
    lessThanMleMsb_eq small (nonempty.le.trans inside), ← extension_sub]
  refine congrArg Except.ok (extension_congr fun k _ => ?_)
  by_cases low : k < rangeStart
  · rw [if_pos (low.trans nonempty), if_pos low, if_neg (by omega), sub_self]
  · by_cases high : k < rangeEnd
    · rw [if_pos high, if_neg low, if_pos ⟨by omega, high⟩, sub_zero]
    · rw [if_neg high, if_neg low, if_neg (by omega), sub_zero]

end

end JoltWasm
