import JoltWasm.Lib.Multilinear

/-!
# Sums and products over pairs of coordinates

Two words, interleaved most significant bit first, are compared, combined and shifted by sums and
products over the pairs of their bits.  Each of these is a multilinear function, splits over a
concatenation, and at a boolean point is the operation on the words.
-/

namespace JoltWasm.Lib

variable {F : Type*} [CommRing F]

/-! ## Single coordinates -/

/-- A word, most significant bit first. -/
def word : List F → F
  | [] => 0
  | x :: p => x * 2 ^ p.length + word p

/-- One where every coordinate is zero. -/
def allZero : List F → F
  | [] => 1
  | x :: p => (1 - x) * allZero p

/-- Two to the power of a word. -/
def twoPow : List F → F
  | [] => 1
  | x :: p => (1 + (2 ^ 2 ^ p.length - 1) * x) * twoPow p

/-! ## Pairs of coordinates -/

/-- A word whose bits are `g` of the pairs. -/
def pairWord (g : F → F → F) : List F → F
  | x :: y :: p => g x y * 2 ^ (p.length / 2) + pairWord g p
  | _ => 0

/-- The sum of `g` over the pairs. -/
def pairSum (g : F → F → F) : List F → F
  | x :: y :: p => g x y + pairSum g p
  | _ => 0

/-- The product of `g` over the pairs. -/
def pairProd (g : F → F → F) : List F → F
  | x :: y :: p => g x y * pairProd g p
  | _ => 1

/-- One where the pair is equal. -/
def pairEq (x y : F) : F := x * y + (1 - x) * (1 - y)

/-- One where the first word is less than the second. -/
def pairLess : List F → F
  | x :: y :: p => (1 - x) * y + pairEq x y * pairLess p
  | _ => 0

/-- The bits of the first word under the ones of the second, gathered. -/
def pairGather : List F → F
  | x :: y :: p => x * y * pairProd (fun _ y => 1 + y) p + pairGather p
  | _ => 0

/-- The bits of the first word under the zeros of the second, each moved up by the ones above it. -/
def pairRaise : List F → F
  | x :: y :: p => x * (1 - y) * 2 ^ (p.length / 2) + (1 + y) * pairRaise p
  | _ => 0

/-- The zeros of the second word, least significant bit first. -/
def pairFill : List F → F
  | _ :: y :: p => (1 - y) + 2 * pairFill p
  | _ => 0

/-- The zeros of the first word above its first one. -/
def pairLeadingZeros : List F → F
  | x :: _ :: p => (1 - x) * (1 + pairLeadingZeros p)
  | _ => 0

/-- The zeros of the first word below its last one. -/
def pairTrailingZeros : List F → F
  | x :: _ :: p => pairTrailingZeros p + (1 - x) * pairProd (fun x _ => 1 - x) p
  | _ => 0

/-! ## Multilinearity -/

namespace Multilinear

/-- A recursion on the first coordinate. -/
theorem of_head {f : List F → F} {α β γ δ : ℕ → F}
    (step : ∀ x p, f (x :: p) = γ p.length + δ p.length * x +
      (α p.length + β p.length * x) * f p) : Multilinear f := by
  intro a
  induction a with
  | nil =>
    intro b t
    simp only [List.nil_append, step]
    ring
  | cons x a ih =>
    intro b t
    have lengths : (a ++ t :: b).length = (a ++ 0 :: b).length ∧
        (a ++ t :: b).length = (a ++ 1 :: b).length := by simp
    simp only [List.cons_append, step, ← lengths.1, ← lengths.2]
    linear_combination (α (a ++ t :: b).length + β (a ++ t :: b).length * x) * ih b t

theorem word : Multilinear (word : List F → F) :=
  of_head (α := fun _ => 1) (β := fun _ => 0) (γ := fun _ => 0) (δ := fun n => 2 ^ n) fun x p => by
    rw [Lib.word]
    ring

theorem allZero : Multilinear (allZero : List F → F) :=
  of_head (α := fun _ => 1) (β := fun _ => -1) (γ := fun _ => 0) (δ := fun _ => 0) fun x p => by
    rw [Lib.allZero]
    ring

theorem twoPow : Multilinear (twoPow : List F → F) :=
  of_head (α := fun _ => 1) (β := fun n => 2 ^ 2 ^ n - 1) (γ := fun _ => 0) (δ := fun _ => 0)
    fun x p => by
      rw [Lib.twoPow]
      ring

end Multilinear

namespace BiAffine

theorem fst : BiAffine fun x _ : F => x := ⟨0, 1, 0, 0, fun x y => by ring⟩

theorem snd : BiAffine fun _ y : F => y := ⟨0, 0, 1, 0, fun x y => by ring⟩

theorem const (c : F) : BiAffine fun _ _ : F => c := ⟨c, 0, 0, 0, fun x y => by ring⟩

theorem pairEq : BiAffine (pairEq : F → F → F) :=
  ⟨1, -1, -1, 2, fun x y => by
    unfold Lib.pairEq
    ring⟩

theorem zeroFst : BiAffine fun x _ : F => 1 - x := ⟨1, -1, 0, 0, fun x y => by ring⟩

theorem zeroSnd : BiAffine fun _ y : F => 1 - y := ⟨1, 0, -1, 0, fun x y => by ring⟩

theorem oneAddSnd : BiAffine fun _ y : F => 1 + y := ⟨1, 0, 1, 0, fun x y => by ring⟩

theorem mul_right {g : F → F → F} (hg : BiAffine g) (c : F) : BiAffine fun x y => g x y * c := by
  obtain ⟨a, b, c', d, hg⟩ := hg
  refine ⟨a * c, b * c, c' * c, d * c, ?_⟩
  intro x y
  simp only [hg]
  ring

end BiAffine

namespace Multilinear

variable {g : F → F → F}

theorem pairWord (hg : BiAffine g) : Multilinear (pairWord g) :=
  of_pairs (α := fun _ _ => 1) (β := fun _ _ => 0) (γ := fun n x y => g x y * 2 ^ (n / 2))
    (.const 1) (.const 0) (fun n => hg.mul_right _) (const 0) 0 (fun _ => rfl) fun x y p => by
      rw [Lib.pairWord]
      ring

theorem pairSum (hg : BiAffine g) : Multilinear (pairSum g) :=
  of_pairs (α := fun _ _ => 1) (β := fun _ _ => 0) (γ := fun _ => g)
    (.const 1) (.const 0) (fun _ => hg) (const 0) 0 (fun _ => rfl) fun x y p => by
      rw [Lib.pairSum]
      ring

theorem pairProd (hg : BiAffine g) : Multilinear (pairProd g) :=
  of_pairs (α := g) (β := fun _ _ => 0) (γ := fun _ _ _ => 0)
    hg (.const 0) (fun _ => .const 0) (const 0) 1 (fun _ => rfl) fun x y p => by
      rw [Lib.pairProd]
      ring

theorem pairLess : Multilinear (pairLess : List F → F) :=
  of_pairs (α := Lib.pairEq) (β := fun _ _ => 0) (γ := fun _ x y => (1 - x) * y)
    .pairEq (.const 0) (fun _ => ⟨0, 0, 1, -1, fun x y => by ring⟩) (const 0) 0 (fun _ => rfl)
    fun x y p => by
      rw [Lib.pairLess]
      ring

theorem pairGather : Multilinear (pairGather : List F → F) :=
  of_pairs (α := fun _ _ => 1) (β := fun x y => x * y) (γ := fun _ _ _ => 0)
    (.const 1) ⟨0, 0, 0, 1, fun x y => by ring⟩ (fun _ => .const 0) (pairProd .oneAddSnd) 0
    (fun _ => rfl) fun x y p => by
      rw [Lib.pairGather]
      ring

theorem pairRaise : Multilinear (pairRaise : List F → F) :=
  of_pairs (α := fun _ y => 1 + y) (β := fun _ _ => 0)
    (γ := fun n x y => x * (1 - y) * 2 ^ (n / 2))
    .oneAddSnd (.const 0)
    (fun n => BiAffine.mul_right ⟨0, 1, 0, -1, fun x y => by ring⟩ _) (const 0) 0 (fun _ => rfl)
    fun x y p => by
      rw [Lib.pairRaise]
      ring

theorem pairFill : Multilinear (pairFill : List F → F) :=
  of_pairs (α := fun _ _ => 2) (β := fun _ _ => 0) (γ := fun _ _ y => 1 - y)
    (.const 2) (.const 0) (fun _ => .zeroSnd) (const 0) 0 (fun _ => rfl) fun x y p => by
      rw [Lib.pairFill]
      ring

theorem pairLeadingZeros : Multilinear (pairLeadingZeros : List F → F) :=
  of_pairs (α := fun x _ => 1 - x) (β := fun _ _ => 0) (γ := fun _ x _ => 1 - x)
    .zeroFst (.const 0) (fun _ => .zeroFst) (const 0) 0 (fun _ => rfl) fun x y p => by
      rw [Lib.pairLeadingZeros]
      ring

theorem pairTrailingZeros : Multilinear (pairTrailingZeros : List F → F) :=
  of_pairs (α := fun _ _ => 1) (β := fun x _ => 1 - x) (γ := fun _ _ _ => 0)
    (.const 1) .zeroFst (fun _ => .const 0) (pairProd .zeroFst) 0 (fun _ => rfl) fun x y p => by
      rw [Lib.pairTrailingZeros]
      ring

end Multilinear

/-! ## Concatenation -/

omit [CommRing F] in
theorem even_pair {x y : F} {p : List F} : Even (x :: y :: p).length ↔ Even p.length := by
  simp only [List.length_cons, Nat.even_iff]
  omega

omit [CommRing F] in
/-- An induction over the pairs of a list of even length. -/
theorem pairInduction {motive : (p : List F) → Even p.length → Prop} (nil : motive [] (by simp))
    (pair : ∀ x y p (tail : Even p.length), motive p tail → motive (x :: y :: p) (even_pair.mpr tail))
    (p : List F) (even : Even p.length) : motive p even := by
  induction p using List.twoStepInduction with
  | nil => exact nil
  | singleton x => exact absurd even (by simp)
  | cons_cons x y p ih _ => exact pair x y p (even_pair.mp even) (ih (even_pair.mp even))

theorem word_append (p q : List F) : word (p ++ q) = 2 ^ q.length * word p + word q := by
  induction p with
  | nil => simp [word]
  | cons x p ih =>
    rw [List.cons_append, word, word, ih, List.length_append, pow_add]
    ring

theorem allZero_append (p q : List F) : allZero (p ++ q) = allZero p * allZero q := by
  induction p with
  | nil => simp [allZero]
  | cons x p ih =>
    rw [List.cons_append, allZero, allZero, ih]
    ring

section

variable {g : F → F → F} {p : List F} (q : List F) (even : Even p.length)

include even

theorem pairWord_append (evenTail : Even q.length) :
    pairWord g (p ++ q) = 2 ^ (q.length / 2) * pairWord g p + pairWord g q := by
  induction p, even using pairInduction with
  | nil => simp [pairWord]
  | pair x y p tail ih =>
    have half : (p ++ q).length / 2 = p.length / 2 + q.length / 2 := by
      rw [List.length_append]
      rw [Nat.even_iff] at tail evenTail
      omega
    rw [List.cons_append, List.cons_append, pairWord, pairWord, ih, half, pow_add]
    ring

theorem pairSum_append : pairSum g (p ++ q) = pairSum g p + pairSum g q := by
  induction p, even using pairInduction with
  | nil => simp [pairSum]
  | pair x y p tail ih =>
    rw [List.cons_append, List.cons_append, pairSum, pairSum, ih, add_assoc]

theorem pairProd_append : pairProd g (p ++ q) = pairProd g p * pairProd g q := by
  induction p, even using pairInduction with
  | nil => simp [pairProd]
  | pair x y p tail ih =>
    rw [List.cons_append, List.cons_append, pairProd, pairProd, ih, mul_assoc]

theorem pairLess_append :
    pairLess (p ++ q) = pairLess p + pairProd pairEq p * pairLess q := by
  induction p, even using pairInduction with
  | nil => simp [pairLess, pairProd]
  | pair x y p tail ih =>
    rw [List.cons_append, List.cons_append, pairLess, pairLess, pairProd, ih]
    ring

theorem pairGather_append :
    pairGather (p ++ q) = pairGather p * pairProd (fun _ y => 1 + y) q + pairGather q := by
  induction p, even using pairInduction with
  | nil => simp [pairGather]
  | pair x y p tail ih =>
    rw [List.cons_append, List.cons_append, pairGather, pairGather, ih, pairProd_append q tail]
    ring

theorem pairRaise_append (evenTail : Even q.length) :
    pairRaise (p ++ q) =
      2 ^ (q.length / 2) * pairRaise p + pairProd (fun _ y => 1 + y) p * pairRaise q := by
  induction p, even using pairInduction with
  | nil => simp [pairRaise, pairProd]
  | pair x y p tail ih =>
    have half : (p ++ q).length / 2 = p.length / 2 + q.length / 2 := by
      rw [List.length_append]
      rw [Nat.even_iff] at tail evenTail
      omega
    rw [List.cons_append, List.cons_append, pairRaise, pairRaise, pairProd, ih, half, pow_add]
    ring

theorem pairFill_append : pairFill (p ++ q) = pairFill p + 2 ^ (p.length / 2) * pairFill q := by
  induction p, even using pairInduction with
  | nil => simp [pairFill]
  | pair x y p tail ih =>
    have half : (x :: y :: p).length / 2 = p.length / 2 + 1 := by
      simp only [List.length_cons]
      omega
    rw [List.cons_append, List.cons_append, pairFill, pairFill, ih, half]
    ring

theorem pairLeadingZeros_append :
    pairLeadingZeros (p ++ q) =
      pairLeadingZeros p + pairProd (fun x _ => 1 - x) p * pairLeadingZeros q := by
  induction p, even using pairInduction with
  | nil => simp [pairLeadingZeros, pairProd]
  | pair x y p tail ih =>
    rw [List.cons_append, List.cons_append, pairLeadingZeros, pairLeadingZeros, pairProd, ih]
    ring

theorem pairTrailingZeros_append :
    pairTrailingZeros (p ++ q) =
      pairTrailingZeros q + pairProd (fun x _ => 1 - x) q * pairTrailingZeros p := by
  induction p, even using pairInduction with
  | nil => simp [pairTrailingZeros]
  | pair x y p tail ih =>
    rw [List.cons_append, List.cons_append, pairTrailingZeros, pairTrailingZeros, ih,
      pairProd_append q tail]
    ring

end

end JoltWasm.Lib
