import Mathlib.Data.List.Basic

/-!
# Codes that show where they end

A code of values by lists, from which a part of the value and the place where the code ends can be read,
whatever follows.  Such codes can be written one after the other.
-/

namespace JoltWasm.Lib

variable {α δ β γ γ' : Type*} {code code' : α → List β} {key : α → γ} {key' : α → γ'}

/-- The code of a value, with anything after it, determines the key of the value and what comes after. -/
def Delimits (code : α → List β) (key : α → γ) : Prop :=
  ∀ ⦃a b : α⦄ ⦃r s : List β⦄, code a ++ r = code b ++ s → key a = key b ∧ r = s

namespace Delimits

theorem comp (d : Delimits code key) (f : δ → α) : Delimits (fun x => code (f x)) fun x => key (f x) :=
  fun _ _ _ _ same => d same

/-- A weaker key. -/
theorem weaken (d : Delimits code key) (determined : ∀ a b, key a = key b → key' a = key' b) : Delimits code key' :=
  fun a b _ _ same => ⟨determined a b (d same).1, (d same).2⟩

/-- A second code that can be told apart once the key of the first is known. -/
theorem append (first : Delimits code key)
    (second : ∀ ⦃a b : α⦄ ⦃r s : List β⦄, key a = key b → code' a ++ r = code' b ++ s → key' a = key' b ∧ r = s) :
    Delimits (fun a => code a ++ code' a) key' := by
  intro a b r s same
  rw [List.append_assoc, List.append_assoc] at same
  obtain ⟨keys, rest⟩ := first same
  exact second keys rest

/-- Lists of one length. -/
theorem flatMap_length (d : Delimits code key) {xs ys : List α} (length : xs.length = ys.length) {r s : List β}
    (same : xs.flatMap code ++ r = ys.flatMap code ++ s) : xs.map key = ys.map key ∧ r = s := by
  induction xs generalizing ys with
  | nil =>
    obtain rfl := List.length_eq_zero_iff.mp length.symm
    exact ⟨rfl, same⟩
  | cons x xs ih =>
    obtain ⟨y, ys, rfl⟩ := List.exists_cons_of_length_eq_add_one length.symm
    rw [List.flatMap_cons, List.flatMap_cons, List.append_assoc, List.append_assoc] at same
    obtain ⟨first, rest⟩ := d same
    obtain ⟨keys, after⟩ := ih (by simpa using length) rest
    exact ⟨by rw [List.map_cons, List.map_cons, first, keys], after⟩

/-- Lists of any length, when no code is empty and nothing follows. -/
theorem flatMap (d : Delimits code key) (nonempty : ∀ a, code a ≠ []) {xs ys : List α}
    (same : xs.flatMap code = ys.flatMap code) : xs.map key = ys.map key := by
  induction xs generalizing ys with
  | nil =>
    cases ys with
    | nil => rfl
    | cons y ys => exact absurd (List.append_eq_nil_iff.mp same.symm).1 (nonempty y)
  | cons x xs ih =>
    cases ys with
    | nil => exact absurd (List.append_eq_nil_iff.mp same).1 (nonempty x)
    | cons y ys =>
      obtain ⟨first, rest⟩ := d same
      rw [List.map_cons, List.map_cons, first, ih rest]

end Delimits

end JoltWasm.Lib
