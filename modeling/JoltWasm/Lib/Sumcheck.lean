import Mathlib.Algebra.MvPolynomial.Degrees
import Mathlib.Algebra.Polynomial.BigOperators
import Mathlib.Algebra.Polynomial.Roots
import Mathlib.Algebra.Polynomial.AlgebraMap
import Mathlib.Data.Fin.Tuple.Basic
import Mathlib.Data.List.GetD
import JoltWasm.Lib.Numerals

/-!
# Sum-check

A polynomial in `n` variables, summed over the `n`-th power of a domain.  Fixing the first variables
to challenges leaves a partial sum; leaving one more variable free, a round polynomial.  A run that
starts from a wrong sum and ends at the right value has a round whose polynomial is not the true one
although the two agree at the challenge.
-/

namespace JoltWasm.Lib

open Polynomial

section

variable {F : Type*} [CommRing F] {n m : ℕ} (g : MvPolynomial (Fin n) F) (domain : Fin m → F)

/-- The value of `g` at a list of coordinates. -/
noncomputable def evalAt {A : Type*} [CommRing A] [Algebra F A] (point : List A) : A :=
  MvPolynomial.aeval (fun j : Fin n => point.getD j 0) g

/-- The sum of `g` over the domain in the `k` coordinates after `point`. -/
noncomputable def partialSum (k : ℕ) (point : List F) : F :=
  ∑ x : Fin k → Fin m, evalAt g (point ++ List.ofFn fun j => domain (x j))

/-- The sum of `g` over the whole domain. -/
noncomputable def domainSum : F := partialSum g domain n []

/-- The round polynomial after `point`: the next coordinate is free, the others are summed. -/
noncomputable def roundPolynomial (point : List F) : F[X] :=
  ∑ x : Fin (n - (point.length + 1)) → Fin m,
    evalAt g (point.map C ++ X :: List.ofFn fun j => C (domain (x j)))

theorem partialSum_zero (point : List F) : partialSum g domain 0 point = evalAt g point := by
  simp [partialSum]

/-- A partial sum, by its first summed coordinate. -/
theorem partialSum_succ (k : ℕ) (point : List F) :
    partialSum g domain (k + 1) point =
      ∑ t, partialSum g domain k (point ++ [domain t]) := by
  unfold partialSum
  rw [← (Fin.consEquiv fun _ : Fin (k + 1) => Fin m).sum_comp, Fintype.sum_prod_type]
  refine Finset.sum_congr rfl fun t _ => Finset.sum_congr rfl fun x _ => ?_
  congr 1
  simp [Fin.consEquiv, List.ofFn_succ]

/-- A round polynomial at a challenge is the partial sum with that coordinate fixed. -/
theorem eval_roundPolynomial (point : List F) (r : F) :
    (roundPolynomial g domain point).eval r =
      partialSum g domain (n - (point.length + 1)) (point ++ [r]) := by
  unfold roundPolynomial partialSum evalAt
  rw [eval_finsetSum]
  refine Finset.sum_congr rfl fun x _ => ?_
  rw [← coe_aeval_eq_eval, ← AlgHom.comp_apply, MvPolynomial.comp_aeval]
  congr 2
  funext j
  have pulled := List.getD_map (l := point.map C ++ X :: List.ofFn fun j => C (domain (x j)))
    (d := (0 : F[X])) (n := j) (aeval r)
  rw [← pulled, map_zero]
  congr 1
  simp [Function.comp_def]

/-- The true partial sum is the round polynomial summed over the domain. -/
theorem sum_eval_roundPolynomial {k : ℕ} {point : List F} (dims : point.length + (k + 1) = n) :
    ∑ t, (roundPolynomial g domain point).eval (domain t) = partialSum g domain (k + 1) point := by
  rw [partialSum_succ]
  refine Finset.sum_congr rfl fun t _ => ?_
  rw [eval_roundPolynomial, show n - (point.length + 1) = k by omega]

/-- A round polynomial has the degree of `g` in its variable. -/
theorem natDegree_roundPolynomial {d : ℕ} (degree : ∀ j, g.degreeOf j ≤ d) {point : List F}
    (short : point.length < n) : (roundPolynomial g domain point).natDegree ≤ d := by
  refine natDegree_sum_le_of_forall_le _ _ fun x _ => ?_
  unfold evalAt
  rw [MvPolynomial.aeval_def, MvPolynomial.eval₂_eq']
  refine natDegree_sum_le_of_forall_le _ _ fun s support => ?_
  let i : Fin n := ⟨point.length, short⟩
  -- Only the free coordinate is no constant.
  have coordinate (j : Fin n) : ((point.map C ++ X :: List.ofFn fun j => C (domain (x j))).getD j 0 :
      F[X]).natDegree ≤ if j = i then 1 else 0 := by
    rcases lt_trichotomy j.val point.length with before | here | after
    · rw [if_neg (by simp [i, Fin.ext_iff]; omega), List.getD_eq_getElem?_getD,
        List.getElem?_append_left (by simpa using before), List.getElem?_map,
        List.getElem?_eq_getElem before]
      exact (natDegree_C _).le
    · rw [if_pos (Fin.ext here), List.getD_eq_getElem?_getD,
        List.getElem?_append_right (by simp [here]), List.length_map, here, Nat.sub_self]
      exact natDegree_X_le
    · rw [if_neg (by simp [i, Fin.ext_iff]; omega), List.getD_eq_getElem?_getD,
        List.getElem?_append_right (by simp; omega), List.length_map,
        show j.val - point.length = j.val - point.length - 1 + 1 by omega, List.getElem?_cons_succ,
        List.getElem?_ofFn]
      split
      · exact (natDegree_C _).le
      · exact natDegree_zero.le
  calc _ ≤ (∏ j : Fin n, (point.map C ++ X :: List.ofFn fun j => C (domain (x j))).getD j 0 ^ s j).natDegree :=
        natDegree_C_mul_le _ _
    _ ≤ ∑ j : Fin n, s j * (if j = i then 1 else 0) :=
        (natDegree_prod_le _ _).trans (Finset.sum_le_sum fun j _ =>
          (natDegree_pow_le).trans (Nat.mul_le_mul_left _ (coordinate j)))
    _ = s i := by simp
    _ ≤ d := (MvPolynomial.degreeOf_le_iff.mp (degree i) s support)

end

section

variable {F : Type*} [CommRing F] [IsDomain F] [DecidableEq F]

/-- The rounds of an accepted run: each polynomial sums to the running claim, which its value at the
challenge replaces. -/
def Accepts {m : ℕ} (domain : Fin m → F) : F → List (F[X] × F) → F → Prop
  | claim, [], value => value = claim
  | claim, (p, r) :: rounds, value =>
      ∑ t, p.eval (domain t) = claim ∧ Accepts domain (p.eval r) rounds value

/-- The challenge of a round is one of at most `d` at which a wrong polynomial goes unnoticed. -/
structure Fooled (d : ℕ) (accepted true_ : F[X]) (r : F) : Prop where
  differs : accepted ≠ true_
  agrees : accepted.eval r = true_.eval r
  root : r ∈ (accepted - true_).roots.toFinset
  few : (accepted - true_).roots.toFinset.card ≤ d

theorem Fooled.of {d : ℕ} {accepted true_ : F[X]} {r : F} (differs : accepted ≠ true_)
    (agrees : accepted.eval r = true_.eval r) (acceptedDegree : accepted.natDegree ≤ d)
    (trueDegree : true_.natDegree ≤ d) : Fooled d accepted true_ r where
  differs := differs
  agrees := agrees
  root := by
    rw [Multiset.mem_toFinset, mem_roots (sub_ne_zero.mpr differs), IsRoot.def, eval_sub, agrees,
      sub_self]
  few :=
    calc (accepted - true_).roots.toFinset.card ≤ Multiset.card (accepted - true_).roots :=
          Multiset.toFinset_card_le _
      _ ≤ (accepted - true_).natDegree := card_roots' _
      _ ≤ max accepted.natDegree true_.natDegree := natDegree_sub_le _ _
      _ ≤ d := max_le acceptedDegree trueDegree

variable {n m d : ℕ} {g : MvPolynomial (Fin n) F} {domain : Fin m → F}

/-- Soundness after the challenges `point`: if the running claim is wrong and the final value is
right, some later round is fooled. -/
theorem exists_fooled_after (degree : ∀ j, g.degreeOf j ≤ d) {rounds : List (F[X] × F)}
    (small : ∀ round ∈ rounds, round.1.natDegree ≤ d) {point : List F} {claim value : F}
    (dims : point.length + rounds.length = n)
    (wrong : claim ≠ partialSum g domain rounds.length point)
    (accepts : Accepts domain claim rounds value)
    (final : value = evalAt g (point ++ rounds.map Prod.snd)) :
    ∃ before round after, rounds = before ++ round :: after ∧
      Fooled d round.1 (roundPolynomial g domain (point ++ before.map Prod.snd)) round.2 := by
  induction rounds generalizing point claim with
  | nil =>
      rw [List.map_nil, List.append_nil] at final
      exact absurd (accepts.symm.trans final) (by rwa [List.length_nil, partialSum_zero] at wrong)
  | cons round rounds ih =>
      obtain ⟨p, r⟩ := round
      obtain ⟨sum, accepts⟩ := accepts
      have tail : point.length + (rounds.length + 1) = n := dims
      have true_ := sum_eval_roundPolynomial g domain tail
      have differs : p ≠ roundPolynomial g domain point := by
        rintro rfl
        exact wrong (sum.symm.trans true_)
      by_cases agrees : p.eval r = (roundPolynomial g domain point).eval r
      · refine ⟨[], (p, r), rounds, rfl, ?_⟩
        rw [List.map_nil, List.append_nil]
        exact .of differs agrees (small _ List.mem_cons_self)
          (natDegree_roundPolynomial g domain degree (by omega))
      · have still : p.eval r ≠ partialSum g domain rounds.length (point ++ [r]) := by
          rwa [eval_roundPolynomial, show n - (point.length + 1) = rounds.length by omega] at agrees
        obtain ⟨before, round, after, rfl, fooled⟩ :=
          ih (fun round member => small round (List.mem_cons_of_mem _ member))
            (by rw [List.length_append, List.length_singleton]; omega) still accepts
            (by rw [final, List.map_cons, List.append_assoc, List.singleton_append])
        refine ⟨(p, r) :: before, round, after, rfl, ?_⟩
        rwa [List.map_cons, ← List.singleton_append, ← List.append_assoc]

/-- Soundness: an accepted run from a wrong sum to the right value has a fooled round. -/
theorem exists_fooled (degree : ∀ j, g.degreeOf j ≤ d) {rounds : List (F[X] × F)}
    (small : ∀ round ∈ rounds, round.1.natDegree ≤ d) {claim value : F} (dims : rounds.length = n)
    (wrong : claim ≠ domainSum g domain) (accepts : Accepts domain claim rounds value)
    (final : value = evalAt g (rounds.map Prod.snd)) :
    ∃ (i : ℕ) (p : F[X]) (r : F), rounds[i]? = some (p, r) ∧
      Fooled d p (roundPolynomial g domain ((rounds.map Prod.snd).take i)) r := by
  obtain ⟨before, round, after, rfl, fooled⟩ := exists_fooled_after degree small
    (show ([] : List F).length + rounds.length = n by rwa [List.length_nil, zero_add]) (by rwa [dims]) accepts final
  refine ⟨before.length, round.1, round.2, ?_, ?_⟩
  · rw [List.getElem?_append_right le_rfl, Nat.sub_self]
    rfl
  · rwa [List.map_append, List.take_left' (List.length_map _)]

end

end JoltWasm.Lib
