import Mathlib.Algebra.Field.ZMod
import Mathlib.Order.Interval.Finset.Nat
import JoltWasm.Poly.Mle

/-!
# Evaluations of ranges, segments and blocks

What the closed forms return at any point: the weights of a range, the extension of a segment of words, and
the weight of an aligned block.  An empty range and a domain past 128 bits are rejected.
-/

namespace JoltWasm

open Lib Finset

variable {F : Type} [Field F]

/-- `u128::checked_add`. -/
def checkedAddU128 (a b : ℕ) : Option ℕ := if a + b < 2 ^ 128 then some (a + b) else none

/-- The weight of the block's index at the high coordinates. -/
def blockSelectorMleMsb (startIndex blockNumVars : ℕ) (point : List F) : Except MleError F :=
  if point.length < blockNumVars then .error (.blockVariablesExceedArity blockNumVars point.length)
  else if 64 ≤ blockNumVars then .error (.domainTooLarge blockNumVars)
  else
    match checkedShl (blockNumVars % 2 ^ 32), checkedShl (point.length % 2 ^ 32) with
    | none, _ => .error (.domainTooLarge blockNumVars)
    | some _, none => .error (.domainTooLarge point.length)
    | some blockSize, some domainSize =>
        if startIndex % blockSize ≠ 0 then .error (.blockStartUnaligned startIndex blockSize)
        else
          match checkedAddU128 startIndex blockSize with
          | none => .error (.domainTooLarge point.length)
          | some end_ =>
              if domainSize < end_ then .error (.blockEndOutOfDomain end_ domainSize)
              else .ok (eqIndexMsb (point.take (point.length - blockNumVars)) (startIndex / blockSize))

/-- The extension of an indicator adds the weights of what it selects. -/
theorem extension_indicator (p : ℕ → Prop) [DecidablePred p] (point : List F) :
    extension (fun k => if p k then 1 else 0) point =
      ∑ k ∈ (range (2 ^ point.length)).filter p, eqWeight point k := by
  rw [extension, sum_filter]
  exact sum_congr rfl fun k _ => by rw [ite_mul, one_mul, zero_mul]

theorem sum_Ico_eqWeight {start end_ : ℕ} {point : List F} (inside : end_ ≤ 2 ^ point.length) :
    extension (fun k => if start ≤ k ∧ k < end_ then 1 else 0) point = ∑ i ∈ Ico start end_, eqWeight point i := by
  rw [extension_indicator]
  refine sum_congr (ext fun k => ?_) fun _ _ => rfl
  rw [mem_filter, mem_range, mem_Ico]
  exact ⟨fun both => both.2, fun both => ⟨both.2.trans_le inside, both⟩⟩

/-- The indicator of an aligned block is the weight of its index at the high coordinates. -/
theorem extension_block {high low : List F} {index : ℕ} (inside : index < 2 ^ high.length) :
    extension (fun k => if index * 2 ^ low.length ≤ k ∧ k < (index + 1) * 2 ^ low.length then 1 else 0)
      (high ++ low) = eqWeight high index := by
  have split : ∀ k, (if index * 2 ^ low.length ≤ k ∧ k < (index + 1) * 2 ^ low.length then (1 : F) else 0) =
      (fun a => if a = index then 1 else 0) (k / 2 ^ low.length) * (fun _ => 1) (k % 2 ^ low.length) := by
    intro k
    have same : index * 2 ^ low.length ≤ k ∧ k < (index + 1) * 2 ^ low.length ↔ k / 2 ^ low.length = index := by
      rw [Nat.div_eq_iff (Nat.two_pow_pos _), Nat.add_mul, Nat.one_mul]
      have positive := Nat.two_pow_pos low.length
      omega
    simp only [same, mul_one]
  rw [funext split]
  refine (extension_append_mul (fun a => if a = index then 1 else 0) (fun _ => 1) high low).trans ?_
  rw [extension_single high inside, extension_one, one_mul, mul_one]

/-- What the evaluations return at a point of `n` coordinates. -/
structure EvaluatesRanges (point : List F) : Prop where
  range : ∀ {start end_ : ℕ}, start < end_ → end_ ≤ 2 ^ point.length → point.length < 128 →
    rangeMaskMleMsb start end_ point = .ok (∑ i ∈ Ico start end_, eqWeight point i)
  emptyRange : ∀ bound, rangeMaskMleMsb bound bound point = .error (.invalidRange bound bound)
  segment : ∀ {startIndex : ℕ} {values : List U64}, startIndex + values.length ≤ 2 ^ point.length →
    startIndex + values.length ≤ 2 ^ 128 →
    sparseMleMsb startIndex values point = extension (fun k => ((segmentWord startIndex values k).toNat : F)) point
  block : ∀ {startIndex blockNumVars : ℕ}, blockNumVars ≤ point.length → blockNumVars < 64 →
    2 ^ blockNumVars ∣ startIndex → startIndex + 2 ^ blockNumVars ≤ 2 ^ point.length → point.length < 128 →
    blockSelectorMleMsb startIndex blockNumVars point =
      .ok (extension (fun k => if startIndex ≤ k ∧ k < startIndex + 2 ^ blockNumVars then 1 else 0) point)
  wideDomain : 128 ≤ point.length → point.length < 2 ^ 32 →
    (∀ {start end_ : ℕ}, start < end_ → rangeMaskMleMsb start end_ point = .error (.domainTooLarge point.length)) ∧
    ∀ {startIndex blockNumVars : ℕ}, blockNumVars < 64 →
      blockSelectorMleMsb startIndex blockNumVars point = .error (.domainTooLarge point.length)

theorem checkedShl_of_le {shift : ℕ} (wide : 128 ≤ shift) (small : shift < 2 ^ 32) :
    checkedShl (shift % 2 ^ 32) = none := by
  rw [Nat.mod_eq_of_lt small, checkedShl, if_neg (Nat.not_lt.mpr wide)]

theorem blockSelectorMleMsb_eq {startIndex blockNumVars : ℕ} {point : List F}
    (fits : blockNumVars ≤ point.length) (shiftable : blockNumVars < 64) (aligned : 2 ^ blockNumVars ∣ startIndex)
    (inside : startIndex + 2 ^ blockNumVars ≤ 2 ^ point.length) (small : point.length < 128) :
    blockSelectorMleMsb startIndex blockNumVars point =
      .ok (extension (fun k => if startIndex ≤ k ∧ k < startIndex + 2 ^ blockNumVars then 1 else 0) point) := by
  obtain ⟨index, rfl⟩ := aligned
  have positive := Nat.two_pow_pos blockNumVars
  have total : 2 ^ point.length = 2 ^ blockNumVars * 2 ^ (point.length - blockNumVars) := by
    rw [← pow_add, Nat.add_sub_cancel' fits]
  have below : index < 2 ^ (point.length - blockNumVars) := by
    rw [total, ← Nat.mul_succ] at inside
    exact Nat.le_of_mul_le_mul_left inside positive
  have noWrap : 2 ^ blockNumVars * index + 2 ^ blockNumVars < 2 ^ 128 :=
    inside.trans_lt (Nat.pow_lt_pow_right one_lt_two small)
  rw [blockSelectorMleMsb, if_neg (Nat.not_lt.mpr fits), if_neg (Nat.not_le.mpr shiftable),
    checkedShl_of_lt (shiftable.trans (by norm_num)), checkedShl_of_lt small]
  simp only
  rw [if_neg (not_not_intro (Nat.mul_mod_right _ _)), checkedAddU128, if_pos noWrap]
  simp only
  rw [if_neg (Nat.not_lt.mpr inside), Nat.mul_div_cancel_left _ positive]
  -- The block's index is the weight of the high coordinates.
  obtain ⟨high, low, rfl, lengths⟩ : ∃ high low, point = high ++ low ∧ low.length = blockNumVars :=
    ⟨_, _, (List.take_append_drop (point.length - blockNumVars) point).symm, by
      rw [List.length_drop, Nat.sub_sub_self fits]⟩
  rw [← lengths, List.length_append, Nat.add_sub_cancel] at below ⊢
  have bounds : ∀ k, 2 ^ low.length * index ≤ k ∧ k < 2 ^ low.length * index + 2 ^ low.length ↔
      index * 2 ^ low.length ≤ k ∧ k < (index + 1) * 2 ^ low.length := fun k => by
    rw [Nat.mul_comm, ← Nat.succ_mul]
  simp only [bounds]
  rw [extension_block below, List.take_left', eqIndexMsb_eq]
  · exact below.trans_le (Nat.pow_le_pow_right two_pos (by rw [List.length_append] at small; omega))
  · rfl

/-- At every point, in every domain that the arithmetic holds. -/
theorem evaluatesRanges (point : List F) : EvaluatesRanges point where
  range nonempty inside small := by rw [rangeMaskMleMsb_eq small nonempty inside, sum_Ico_eqWeight inside]
  emptyRange bound := by rw [rangeMaskMleMsb, if_pos le_rfl]
  segment inside addresses := sparseMleMsb_extension (fun _ => inside) (fun _ => addresses)
  block := blockSelectorMleMsb_eq
  wideDomain wide narrow := by
    refine ⟨fun nonempty => ?_, fun shiftable => ?_⟩
    · rw [rangeMaskMleMsb, if_neg (Nat.not_le.mpr nonempty), checkedShl_of_le wide narrow]
    · rw [blockSelectorMleMsb, if_neg (by omega), if_neg (Nat.not_le.mpr shiftable),
        checkedShl_of_lt (shiftable.trans (by norm_num)), checkedShl_of_le wide narrow]

/-- An empty range is no range for the verifier's mask. -/
theorem rangeMaskMleMsb_empty : ¬ ∀ (point : List (ZMod 3)) (start end_ : ℕ), start ≤ end_ →
    end_ ≤ 2 ^ point.length →
      rangeMaskMleMsb start end_ point = .ok (∑ i ∈ Ico start end_, eqWeight point i) := by
  intro always
  have empty := always [1] 0 0 le_rfl (Nat.zero_le _)
  rw [rangeMaskMleMsb, if_pos le_rfl] at empty
  cases empty

end JoltWasm
