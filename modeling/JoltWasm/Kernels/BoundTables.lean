import JoltWasm.Kernels.Support
import JoltWasm.Lib.Ordering
import JoltWasm.Lib.Rounds

/-!
# Kernels over bound tables

The tables of two multilinear functions, bound from the last variable on, beside the split equality tables of
a point.  The cubic that a round returns is the polynomial of the sum over the cube.
-/

namespace JoltWasm

open Lib Finset GruenSplitEqPolynomial EqPolynomial

open UnivariatePoly (DistinctNodes)

variable {F : Type} [Field F]

/-- The table of a function with its last coordinates fixed. -/
def tabulatedPolynomial (f : List F → F) (n : ℕ) (low : List F) : DensePolynomial F :=
  ⟨tabulated f [] n low, n, .inr (length_tabulated f [] n low)⟩

theorem new_tabulated (f : List F → F) (n : ℕ) (low : List F) :
    DensePolynomial.new (tabulated f [] n low) = some (tabulatedPolynomial f n low) := by
  have length := length_tabulated f [] n low
  rw [DensePolynomial.new, dif_neg (by rw [length]; exact (Nat.two_pow_pos _).ne'),
    dif_pos (by rw [length, Nat.log_pow one_lt_two])]
  simp only [tabulatedPolynomial, length, Nat.log_pow one_lt_two]

theorem evals_tabulatedPolynomial (f : ℕ → F) (n : ℕ) : (tabulatedPolynomial (extension f) n []).evals = listed n f :=
  (tabulated_nil (extension f) n).trans (listed_congr fun _ inside => extension_bitPoint f inside)

theorem new_listed (n : ℕ) (f : ℕ → F) :
    DensePolynomial.new (listed n f) = some (tabulatedPolynomial (extension f) n []) := by
  rw [← new_tabulated, ← evals_tabulatedPolynomial]
  rfl

theorem bindLowToHigh_tabulated {f : List F → F} (hf : Multilinear f) (n : ℕ) (low : List F) (challenge : F) :
    (tabulatedPolynomial f (n + 1) low).bindLowToHigh challenge = some (tabulatedPolynomial f n (challenge :: low)) := by
  rw [DensePolynomial.bindLowToHigh, dif_pos (show 0 < (tabulatedPolynomial f (n + 1) low).numVars from Nat.succ_pos n)]
  simp only [tabulatedPolynomial, bindPairs_tabulated hf, Nat.add_sub_cancel]

/-- Any number of bindings, as many as there are variables. -/
theorem foldlM_tabulated {f : List F → F} (hf : Multilinear f) {challenges : List F} {n : ℕ} (few : challenges.length ≤ n)
    (low : List F) : challenges.foldlM DensePolynomial.bindLowToHigh (tabulatedPolynomial f n low) =
      some (tabulatedPolynomial f (n - challenges.length) (challenges.reverse ++ low)) := by
  induction challenges generalizing n low with
  | nil => rfl
  | cons challenge challenges ih =>
      obtain ⟨n, rfl⟩ : ∃ k, n = k + 1 := ⟨n - 1, by rw [List.length_cons] at few; omega⟩
      rw [List.foldlM_cons, bindLowToHigh_tabulated hf, Option.bind_eq_bind, Option.bind_some,
        ih (Nat.le_of_succ_le_succ few), List.length_cons, Nat.add_sub_add_right, List.reverse_cons, List.append_assoc,
        List.singleton_append]

/-- Every binding uses up a variable. -/
theorem numVars_of_binds {challenges : List F} {p q : DensePolynomial F}
    (ran : challenges.foldlM DensePolynomial.bindLowToHigh p = some q) : q.numVars + challenges.length = p.numVars := by
  induction challenges generalizing p with
  | nil =>
      obtain rfl := Option.some.inj ran
      rfl
  | cons challenge challenges ih =>
      rw [List.foldlM_cons] at ran
      obtain ⟨next, bound, rest⟩ := Option.bind_eq_some_iff.mp ran
      rw [DensePolynomial.bindLowToHigh] at bound
      split_ifs at bound with positive
      obtain rfl := Option.some.inj bound
      have used := ih rest
      simp only [List.length_cons] at used ⊢
      omega

/-- A pair of entries, as a linear polynomial, gives the function along its last free coordinate. -/
theorem eval_rowPolynomial {f : List F → F} (hf : Multilinear f) {n j : ℕ} (inside : j < 2 ^ n) (low : List F) (t : F) :
    (rowPolynomial (tabulatedPolynomial f (n + 1) low) j).eval t = f (bitPoint F n j ++ t :: low) := by
  obtain ⟨even, odd⟩ := bitPoint_double (F := F) n j
  have affine := hf (bitPoint F n j) low t
  rw [rowPolynomial, eval_linear, DensePolynomial.sumcheckEvalPair]
  simp only [tabulatedPolynomial]
  rw [getD_tabulated _ _ _ (by rw [pow_succ]; omega), getD_tabulated _ _ _ (by rw [pow_succ]; omega), even, odd]
  simp only [List.nil_append, List.append_assoc, List.cons_append]
  rw [affine]
  ring

/-- The weight of the bound coordinates is in the scalar. -/
theorem tablePolynomial_eq (scale : F) (w : List F) {m : ℕ} {low : List F} (lengths : m + low.length = w.length) :
    tablePolynomial (scale * equal (w.drop m) low) (w.take m) =
      tabulatedPolynomial (fun x => scale * equal w x) m low := by
  have count : (w.take m).length = m := by
    rw [List.length_take]
    omega
  have entries : table (scale * equal (w.drop m) low) (w.take m) = tabulated (fun x => scale * equal w x) [] m low := by
    rw [table, count, tabulated]
    refine listed_congr fun k inside => ?_
    have whole : equal (w.take m ++ w.drop m) (bitPoint F m k ++ low) =
        equal (w.take m) (bitPoint F m k) * equal (w.drop m) low :=
      equal_append (by rw [count, length_bitPoint]) (by rw [List.length_drop]; omega)
    have atPoint : equal (w.take m) (bitPoint F m k) = eqWeight (w.take m) k := extension_bitPoint _ inside
    rw [List.take_append_drop, atPoint] at whole
    rw [List.nil_append, whole]
    ring
  simp only [tablePolynomial, tabulatedPolynomial, entries, count]

/-- The scalar after one more challenge. -/
theorem scale_bind (scale challenge : F) {w low : List F} {m : ℕ} {c : F} (here : w[m]? = some c)
    (lengths : m + 1 + low.length = w.length) :
    scale * equal (w.drop (m + 1)) low * boundWeight c challenge = scale * equal (w.drop m) (challenge :: low) := by
  obtain ⟨inside, rfl⟩ := List.getElem?_eq_some_iff.mp here
  rw [List.drop_eq_getElem_cons inside, equal_cons (by rw [List.length_drop]; omega), boundWeight, pairEq]
  ring

variable [DecidableEq F]

/-- The summand: the equality polynomial times the two functions. -/
def productSummand (scale : F) (w : List F) (f g : List F → F) (x : List F) : F := scale * equal w x * (f x * g x)

/-- The message of a round is its polynomial. -/
theorem gruenPolyDeg3_isRound (distinct : DistinctNodes F 4) {p : GruenSplitEqPolynomial F} {w low : List F} {m : ℕ} {c scale : F}
    (here : w[m]? = some c) (lengths : m + 1 + low.length = w.length)
    (bound : LowBound p w (m + 1) (scale * equal (w.drop (m + 1)) low))
    (nonzero : scale * equal (w.drop (m + 1)) low * c ≠ 0) {f g : List F → F} (hf : Multilinear f) (hg : Multilinear g) :
    ∃ message, p.gruenPolyDeg3
        (p.productEndpoints (tabulatedPolynomial f (m + 1) low) (tabulatedPolynomial g (m + 1) low)).1
        (p.productEndpoints (tabulatedPolynomial f (m + 1) low) (tabulatedPolynomial g (m + 1) low)).2
        (restSum (productSummand scale w f g) (m + 1) low) = some message ∧
      IsRound 3 (productSummand scale w f g) m low message.polynomial := by
  set dense := tablePolynomial (scale * equal (w.drop (m + 1)) low) (w.take (m + 1)) with denseIs
  set rows := fun j => rowPolynomial (tabulatedPolynomial f (m + 1) low) j *
    rowPolynomial (tabulatedPolynomial g (m + 1) low) j with rowsAre
  have free : w.take (m + 1) ≠ [] := by
    rw [ne_eq, ← List.length_eq_zero_iff, List.length_take]
    omega
  obtain ⟨l, a, b, found, entries⟩ := bound.holds.entries free
  have atOne : l.2 ≠ 0 := by
    obtain ⟨c', current, rfl⟩ := currentPoint_of_linear found
    rw [bound.current, here] at current
    obtain rfl := Option.some.inj current
    rwa [bound.scalar]
  have degree : (innerPolynomial p rows).natDegree ≤ 2 := natDegree_innerPolynomial p fun j => by
    refine Polynomial.natDegree_mul_le_of_le (m := 1) (n := 1) ?_ ?_
    · rw [rowPolynomial, linear]; compute_degree
    · rw [rowPolynomial, linear]; compute_degree
  have product : GruenSplitEqPolynomial.roundPolynomial dense .lowToHigh rows = linear l * innerPolynomial p rows := by
    rw [← bound.order]
    exact entries.roundPolynomial_eq rows
  have whole : dense = tabulatedPolynomial (fun x => scale * equal w x) (m + 1) low := tablePolynomial_eq scale w lengths
  have value (t : F) : (linear l * innerPolynomial p rows).eval t =
      restSum (productSummand scale w f g) m (t :: low) := by
    have length : dense.evals.length / 2 = 2 ^ m := by
      rw [whole, tabulatedPolynomial, length_tabulated, half_pow_succ]
    rw [← product, GruenSplitEqPolynomial.roundPolynomial, length, Polynomial.eval_finsetSum, restSum, cubeSum_eq_sum]
    refine sum_congr rfl fun j member => ?_
    have inside := mem_range.mp member
    rw [Polynomial.eval_mul, rowsAre, Polynomial.eval_mul, eval_rowPolynomial hf inside, eval_rowPolynomial hg inside,
      whole, ← rowPolynomial, eval_rowPolynomial ((multilinear_equal w).const_mul scale) inside]
    rfl
  have some_ : p.eOutCurrent ≠ [] := by
    rw [← List.length_pos_iff, entries.lengthOut]
    exact Nat.two_pow_pos a
  obtain ⟨message, returned, same⟩ := gruenPolyDeg3_eq distinct found atOne degree
  refine ⟨message, ?_, ?_, fun t => ?_⟩
  · rw [productEndpoints_eq bound.order some_, restSum_succ, ← value, ← value]
    exact returned
  · rw [same]
    exact natDegree_linear_mul l degree
  · rw [same, value]

end JoltWasm
