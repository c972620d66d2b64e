import Mathlib.Data.BitVec

/-!
# Bitwise joins

Maps of bit vectors that preserve bitwise or: shifts, masks and truncations, and what is composed
of them.  Two such maps are equal when they agree on the vectors with one bit set.
-/

namespace JoltWasm.Lib

variable {n m k : ℕ}

/-- A map of bit vectors that preserves zero and bitwise or. -/
structure IsJoinHom (f : BitVec n → BitVec m) : Prop where
  zero : f 0 = 0
  or : ∀ x y, f (x ||| y) = f x ||| f y

namespace IsJoinHom

theorem id : IsJoinHom (fun x : BitVec n => x) := ⟨rfl, fun _ _ => rfl⟩

theorem comp {g : BitVec m → BitVec k} {f : BitVec n → BitVec m} (hg : IsJoinHom g)
    (hf : IsJoinHom f) : IsJoinHom fun x => g (f x) :=
  ⟨by rw [hf.zero, hg.zero], fun x y => by rw [hf.or, hg.or]⟩

theorem shiftLeft (s : ℕ) : IsJoinHom fun x : BitVec n => x <<< s :=
  ⟨by simp, fun x y => BitVec.shiftLeft_or_distrib x y s⟩

theorem ushiftRight (s : ℕ) : IsJoinHom fun x : BitVec n => x >>> s :=
  ⟨by simp, fun x y => BitVec.ushiftRight_or_distrib x y s⟩

theorem and (mask : BitVec n) : IsJoinHom fun x : BitVec n => x &&& mask :=
  ⟨by simp, fun x y => by ext i; simp [Bool.and_or_distrib_right]⟩

theorem setWidth : IsJoinHom fun x : BitVec n => x.setWidth m :=
  ⟨by simp, fun x y => BitVec.setWidth_or⟩

theorem join {f g : BitVec n → BitVec m} (hf : IsJoinHom f) (hg : IsJoinHom g) :
    IsJoinHom fun x => f x ||| g x :=
  ⟨by rw [hf.zero, hg.zero, BitVec.or_self], fun x y => by
    rw [hf.or, hg.or]
    ext i
    simp only [BitVec.getElem_or]
    cases (f x)[i] <;> cases (f y)[i] <;> cases (g x)[i] <;> rfl⟩

/-- Clearing the highest bit that may be set. -/
private theorem eq_clear_or (x : BitVec n) (i : ℕ) :
    x = (x &&& ~~~BitVec.twoPow n i) ||| if x.getLsbD i then BitVec.twoPow n i else 0 := by
  ext j hj
  rw [BitVec.getElem_or, BitVec.getElem_and, BitVec.getElem_not, BitVec.getElem_twoPow]
  by_cases same : j = i
  · subst same
    have bit : x.getLsbD j = x[j] := BitVec.getLsbD_eq_getElem hj
    cases set : x[j] <;> simp [bit, set]
  · cases x.getLsbD i <;> simp [same]

/-- Two maps that preserve bitwise or are equal when they agree on single bits. -/
theorem ext {f g : BitVec n → BitVec m} (hf : IsJoinHom f) (hg : IsJoinHom g)
    (single : ∀ i < n, f (BitVec.twoPow n i) = g (BitVec.twoPow n i)) (x : BitVec n) :
    f x = g x := by
  have low : ∀ k ≤ n, ∀ x : BitVec n, (∀ j, k ≤ j → x.getLsbD j = false) → f x = g x := by
    intro k
    induction k with
    | zero =>
        intro _ x clear
        have : x = 0 := BitVec.eq_of_getLsbD_eq fun j _ => by
          rw [clear j (Nat.zero_le j)]
          simp
        rw [this, hf.zero, hg.zero]
    | succ k ih =>
        intro bound x clear
        have cleared := ih (by omega) (x &&& ~~~BitVec.twoPow n k) fun j hj => by
          by_cases same : k = j
          · subst same
            simp [show k < n by omega]
          · rw [BitVec.getLsbD_and, clear j (by omega), Bool.false_and]
        rw [eq_clear_or x k, hf.or, hg.or, cleared]
        split
        · rw [single k (by omega)]
        · rw [hf.zero, hg.zero]
  exact low n le_rfl x fun j hj => BitVec.getLsbD_of_ge x j hj

end IsJoinHom

end JoltWasm.Lib
