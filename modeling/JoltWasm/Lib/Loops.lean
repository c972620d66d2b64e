import Mathlib.Algebra.BigOperators.Group.List.Basic
import Mathlib.Data.List.Forall2
import JoltWasm.Lib.Numerals

/-!
# Loops and ranges

Loops that may stop, and the indices of rows that lie one after the other.
-/

namespace JoltWasm.Lib

variable {α β : Type*}

/-- A loop that ran has one result for each item, in its place. -/
theorem forall₂_of_mapM {f : α → Option β} {l : List α} {r : List β} (ran : l.mapM f = some r) :
    List.Forall₂ (fun x y => f x = some y) l r := by
  induction l generalizing r with
  | nil =>
      obtain rfl := Option.some.inj ran
      exact .nil
  | cons x l ih =>
      rw [List.mapM_cons] at ran
      obtain ⟨y, found, ran⟩ := Option.bind_eq_some_iff.mp ran
      obtain ⟨ys, rest, ran⟩ := Option.bind_eq_some_iff.mp ran
      obtain rfl := Option.some.inj ran
      exact .cons found (ih rest)

theorem length_of_mapM {f : α → Option β} {l : List α} {r : List β} (ran : l.mapM f = some r) : r.length = l.length :=
  (forall₂_of_mapM ran).length_eq.symm

theorem getElem?_of_mapM {f : α → Option β} {l : List α} {r : List β} (ran : l.mapM f = some r) {i : ℕ} {x : α}
    (here : l[i]? = some x) : ∃ y, f x = some y ∧ r[i]? = some y := by
  have each := forall₂_of_mapM ran
  clear ran
  induction each generalizing i with
  | nil => simp at here
  | cons found _ ih =>
      cases i with
      | zero =>
          obtain rfl := Option.some.inj here
          exact ⟨_, found, rfl⟩
      | succ i => exact ih here

/-- A loop that never stops. -/
theorem foldlM_of_some {f : β → α → Option β} {g : β → α → β} {l : List α} (each : ∀ b, ∀ a ∈ l, f b a = some (g b a))
    (b : β) : l.foldlM f b = some (l.foldl g b) := by
  induction l generalizing b with
  | nil => rfl
  | cons a l ih =>
      rw [List.foldlM_cons, each b a List.mem_cons_self, Option.bind_eq_bind, Option.bind_some,
        ih fun b a member => each b a (List.mem_cons_of_mem _ member), List.foldl_cons]

/-- A loop that adds. -/
theorem foldl_add {M : Type*} [AddCommMonoid M] (l : List α) (v : α → M) (a : M) :
    l.foldl (fun acc x => acc + v x) a = a + (l.map v).sum := by
  induction l generalizing a with
  | nil => exact (add_zero a).symm
  | cons x l ih => rw [List.foldl_cons, ih, List.map_cons, List.sum_cons, ← add_assoc]

/-- The rows of a block, one after the other. -/
theorem range_blocks (m n : ℕ) :
    List.range (m * n) = (List.range m).flatMap fun x => (List.range n).map fun y => x * n + y := by
  induction m with
  | zero => simp
  | succ m ih => rw [Nat.succ_mul, List.range_add, ih, List.range_succ, List.flatMap_append, List.flatMap_singleton]

end JoltWasm.Lib
