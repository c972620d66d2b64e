import Mathlib.Data.List.Basic

/-!
# Loops split among threads

A range of indices is cut into consecutive ranges, each of them is worked on from the start value, and the
results are merged in any order of bracketing.
-/

namespace JoltWasm.Lib

/-- How a loop is split, and how the parts are merged. -/
inductive Plan where
  | part (start stop : ℕ)
  | identity
  | merge (left right : Plan)

namespace Plan

/-- The indices that the parts visit, from left to right. -/
def indices : Plan → List ℕ
  | part start stop => List.range' start (stop - start)
  | identity => []
  | merge left right => left.indices ++ right.indices

/-- The parts, from left to right. -/
def leaves : Plan → List (ℕ × ℕ)
  | part start stop => [(start, stop)]
  | identity => []
  | merge left right => left.leaves ++ right.leaves

/-- The plan visits every index below a bound once and in order. -/
def Covers (plan : Plan) (total : ℕ) : Prop := plan.indices = List.range total

/-- The value of a plan. -/
def reduce {M : Type*} (work : List ℕ → M) (start : M) (combine : M → M → M) : Plan → M
  | part first stop => work (List.range' first (stop - first))
  | identity => start
  | merge left right => combine (left.reduce work start combine) (right.reduce work start combine)

/-- The whole loop as one part. -/
theorem covers_part (total : ℕ) : (part 0 total).Covers total := by
  rw [Covers, indices, Nat.sub_zero, List.range_eq_range']

/-- Work that joins along lists does not depend on the plan. -/
theorem reduce_eq {M : Type*} {work : List ℕ → M} {start : M} {combine : M → M → M} (none : start = work [])
    (join : ∀ first second, combine (work first) (work second) = work (first ++ second)) (plan : Plan) :
    plan.reduce work start combine = work plan.indices := by
  induction plan with
  | part first stop => rfl
  | identity => exact none
  | merge left right ihLeft ihRight => rw [reduce, ihLeft, ihRight, join, indices]

/-- The parts of one length, the last of them cut off. -/
theorem range_chunks (chunk count total : ℕ) (few : total ≤ count * chunk) :
    ((List.range count).flatMap fun k => List.range' (k * chunk) (min (k * chunk + chunk) total - k * chunk)) =
      List.range total := by
  have upTo : ∀ m, ((List.range m).flatMap fun k =>
      List.range' (k * chunk) (min (k * chunk + chunk) total - k * chunk)) = List.range (min (m * chunk) total) := by
    intro m
    induction m with
    | zero => simp
    | succ m ih =>
      rw [List.range_succ, List.flatMap_append, List.flatMap_singleton, ih, Nat.succ_mul, List.range_eq_range',
        List.range_eq_range']
      obtain inside | past := Nat.le_total (m * chunk) total
      · have joined (a b : ℕ) : List.range' 0 a ++ List.range' a b = List.range' 0 (a + b) := by
          simpa using @List.range'_append 0 a b 1
        rw [Nat.min_eq_left inside, joined]
        congr 1
        omega
      · rw [Nat.min_eq_right past, Nat.min_eq_right (by omega), Nat.sub_eq_zero_of_le (by omega), List.range'_zero,
          List.append_nil]
  rw [upTo, Nat.min_eq_right few]

end Plan

end JoltWasm.Lib
