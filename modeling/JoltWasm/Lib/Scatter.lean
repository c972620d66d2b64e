import Mathlib.Algebra.BigOperators.Ring.Finset
import Mathlib.Algebra.BigOperators.Group.Finset.Piecewise
import Mathlib.Data.List.GetD
import JoltWasm.Lib.Numerals

/-!
# Tables of scattered values

A table of sums: every update adds its value at its position.  Such a table is used through its sums
against weights, to which an update contributes its value times the weight of its position.
-/

namespace JoltWasm.Lib

open Finset

variable {F : Type*} [CommSemiring F]

/-- Each value added at its position. -/
def scatter (table : List F) (updates : List (ℕ × F)) : List F :=
  updates.foldl (fun table update => table.modify update.1 (· + update.2)) table

/-- The sum of the updates of a position. -/
def hits (updates : List (ℕ × F)) (i : ℕ) : F :=
  (updates.map fun update => if update.1 = i then update.2 else 0).sum

@[simp] theorem hits_nil (i : ℕ) : hits ([] : List (ℕ × F)) i = 0 := rfl

@[simp] theorem hits_append (first second : List (ℕ × F)) (i : ℕ) :
    hits (first ++ second) i = hits first i + hits second i := by
  simp [hits]

theorem hits_cons (update : ℕ × F) (updates : List (ℕ × F)) (i : ℕ) :
    hits (update :: updates) i = (if update.1 = i then update.2 else 0) + hits updates i := by
  simp [hits]

theorem hits_flatMap {α : Type*} (updates : α → List (ℕ × F)) (items : List α) (i : ℕ) :
    hits (items.flatMap updates) i = (items.map fun item => hits (updates item) i).sum := by
  induction items with
  | nil => rfl
  | cons item items ih => rw [List.flatMap_cons, hits_append, ih, List.map_cons, List.sum_cons]

theorem hits_singleton (j : ℕ) (v : F) (i : ℕ) : hits [(j, v)] i = if j = i then v else 0 := by
  simp [hits]

/-- A position that no update names. -/
theorem hits_eq_zero {updates : List (ℕ × F)} {i : ℕ} (other : ∀ update ∈ updates, update.1 ≠ i) :
    hits updates i = 0 := by
  refine List.sum_eq_zero fun v member => ?_
  obtain ⟨update, inside, rfl⟩ := List.mem_map.mp member
  exact if_neg (other update inside)

@[simp] theorem length_scatter (table : List F) (updates : List (ℕ × F)) :
    (scatter table updates).length = table.length := by
  unfold scatter
  induction updates generalizing table with
  | nil => rfl
  | cons update updates ih => rw [List.foldl_cons, ih, List.length_modify]

theorem scatter_append (table : List F) (first second : List (ℕ × F)) :
    scatter table (first ++ second) = scatter (scatter table first) second :=
  List.foldl_append

/-- Updates made item by item. -/
theorem foldl_scatter {α : Type*} (updates : α → List (ℕ × F)) (items : List α) (table : List F) :
    items.foldl (fun table item => scatter table (updates item)) table =
      scatter table (items.flatMap updates) := by
  induction items generalizing table with
  | nil => rfl
  | cons item items ih => rw [List.foldl_cons, ih, List.flatMap_cons, scatter_append]

theorem getD_scatter (table : List F) (updates : List (ℕ × F)) {i : ℕ} (inside : i < table.length) :
    (scatter table updates).getD i 0 = table.getD i 0 + hits updates i := by
  unfold scatter
  induction updates generalizing table with
  | nil => simp
  | cons update updates ih =>
      rw [List.foldl_cons, ih _ (by rwa [List.length_modify]), hits_cons, ← add_assoc]
      congr 1
      rw [List.getD_eq_getElem _ _ (by rwa [List.length_modify]), List.getD_eq_getElem _ _ inside,
        List.getElem_modify]
      split_ifs <;> simp

theorem getD_scatter_zero (n : ℕ) (updates : List (ℕ × F)) {i : ℕ} (inside : i < n) :
    (scatter (List.replicate n 0) updates).getD i 0 = hits updates i := by
  rw [getD_scatter _ _ (by rwa [List.length_replicate]), List.getD_eq_getElem _ _
    (by rwa [List.length_replicate]), List.getElem_replicate, zero_add]

/-- The table that starts with zeros. -/
theorem scatter_eq_map (n : ℕ) (updates : List (ℕ × F)) :
    scatter (List.replicate n 0) updates = (List.range n).map (hits updates) := by
  refine List.ext_getElem (by simp) fun i inside _ => ?_
  rw [length_scatter, List.length_replicate] at inside
  rw [List.getElem_map, List.getElem_range, ← getD_scatter_zero n updates inside, List.getD_eq_getElem]

/-- Updates against weights. -/
theorem sum_hits {n : ℕ} {updates : List (ℕ × F)} (inside : ∀ update ∈ updates, update.1 < n)
    (weight : ℕ → F) :
    ∑ i ∈ range n, hits updates i * weight i =
      (updates.map fun update => update.2 * weight update.1).sum := by
  induction updates with
  | nil => simp
  | cons update updates ih =>
      have first : ∑ i ∈ range n, (if update.1 = i then update.2 else 0) * weight i =
          update.2 * weight update.1 := by
        simp only [ite_mul, zero_mul]
        rw [sum_ite_eq, if_pos (mem_range.mpr (inside update List.mem_cons_self))]
      simp only [hits_cons, add_mul, sum_add_distrib, List.map_cons, List.sum_cons]
      rw [first, ih fun later member => inside later (List.mem_cons_of_mem _ member)]

/-- A scattered table against weights. -/
theorem sum_scatter {n : ℕ} {updates : List (ℕ × F)} (inside : ∀ update ∈ updates, update.1 < n)
    (weight : ℕ → F) :
    ∑ i ∈ range n, (scatter (List.replicate n 0) updates).getD i 0 * weight i =
      (updates.map fun update => update.2 * weight update.1).sum := by
  rw [← sum_hits inside]
  exact sum_congr rfl fun i member => by rw [getD_scatter_zero n updates (mem_range.mp member)]

/-! ## Sums of lists by position -/

theorem sum_zipIdx {α : Type*} (g : α × ℕ → F) (d : α) (items : List α) :
    (items.zipIdx.map g).sum = ∑ i ∈ range items.length, g (items.getD i d, i) := by
  induction items using List.reverseRecOn with
  | nil => rfl
  | append_singleton items item ih =>
      have before : ∑ i ∈ range items.length, g ((items ++ [item]).getD i d, i) =
          ∑ i ∈ range items.length, g (items.getD i d, i) :=
        sum_congr rfl fun i member => by rw [List.getD_append _ _ _ _ (mem_range.mp member)]
      rw [List.zipIdx_append, List.map_append, List.sum_append, ih, List.length_append,
        List.length_singleton, sum_range_succ, before, List.getD_append_right _ _ _ _ le_rfl]
      simp

theorem sum_zipWith {α β : Type*} (f : α → β → F) (a : α) (b : β) {n : ℕ} {first : List α}
    {second : List β} (length : first.length = n) (length' : second.length = n) :
    (List.zipWith f first second).sum = ∑ i ∈ range n, f (first.getD i a) (second.getD i b) := by
  induction n generalizing first second with
  | zero =>
      rw [List.length_eq_zero_iff] at length
      rw [length]
      rfl
  | succ n ih =>
      obtain ⟨x, first, rfl⟩ := List.exists_of_length_succ first length
      obtain ⟨y, second, rfl⟩ := List.exists_of_length_succ second length'
      rw [List.length_cons, Nat.add_right_cancel_iff] at length length'
      rw [List.zipWith_cons_cons, List.sum_cons, sum_range_succ', ih length length', add_comm]
      rfl

end JoltWasm.Lib
