import Mathlib.RingTheory.SimpleRing.Principal
import Mathlib.Algebra.Field.ZMod
import Mathlib.Algebra.Polynomial.Degree.Lemmas
import JoltWasm.Lib.Keeps
import JoltWasm.Lib.Sumcheck
import JoltWasm.Sumcheck.Verifier

/-!
# Soundness of the sum-check verifier

Both wire forms and both domains give an accepted run in the sense of the general theory: each round
polynomial sums to the running claim over the points of the domain.
-/

namespace JoltWasm

open Polynomial Lib

section

variable {F : Type} [Field F]

/-! ## Round polynomials -/

/-- The polynomial with the given coefficients. -/
noncomputable def ofCoefficients : List F → F[X]
  | [] => 0
  | c :: cs => C c + X * ofCoefficients cs

noncomputable def UnivariatePoly.polynomial (p : UnivariatePoly F) : F[X] :=
  ofCoefficients p.coefficients

theorem eval_ofCoefficients_cons (c : F) (cs : List F) (x : F) :
    (ofCoefficients (c :: cs)).eval x = c + x * (ofCoefficients cs).eval x := by
  simp [ofCoefficients]

/-- One Horner step. -/
theorem eval_ofCoefficients_concat (cs : List F) (c d x : F) :
    (ofCoefficients (cs ++ [d, c])).eval x = (ofCoefficients (cs ++ [c * x + d])).eval x := by
  induction cs with
  | nil =>
      rw [List.nil_append, List.nil_append, eval_ofCoefficients_cons, eval_ofCoefficients_cons,
        eval_ofCoefficients_cons, ofCoefficients, eval_zero]
      ring
  | cons a cs ih =>
      rw [List.cons_append, List.cons_append, eval_ofCoefficients_cons, eval_ofCoefficients_cons, ih]

theorem horner_eq_eval (cs : List F) (c x : F) :
    cs.foldl (fun acc c => acc * x + c) c = (ofCoefficients (cs.reverse ++ [c])).eval x := by
  induction cs generalizing c with
  | nil => simp [ofCoefficients]
  | cons d cs ih =>
      rw [List.foldl_cons, ih, ← eval_ofCoefficients_concat, List.reverse_cons, List.append_assoc]
      rfl

/-- Horner evaluation is evaluation. -/
theorem UnivariatePoly.evaluate_eq_eval (p : UnivariatePoly F) (x : F) :
    p.evaluate x = p.polynomial.eval x := by
  unfold UnivariatePoly.evaluate UnivariatePoly.polynomial
  cases reversed : p.coefficients.reverse with
  | nil =>
      rw [List.reverse_eq_nil_iff.mp reversed]
      exact eval_zero.symm
  | cons c cs =>
      have forward : p.coefficients = cs.reverse ++ [c] := by
        rw [← List.reverse_reverse p.coefficients, reversed, List.reverse_cons]
      rw [forward]
      exact horner_eq_eval cs c x

theorem natDegree_ofCoefficients (cs : List F) :
    (ofCoefficients cs).natDegree ≤ cs.length - 1 := by
  induction cs with
  | nil => exact natDegree_zero.le
  | cons c cs ih =>
      unfold ofCoefficients
      refine natDegree_add_le_of_degree_le ((natDegree_C c).le.trans (Nat.zero_le _)) ?_
      cases cs with
      | nil =>
          rw [ofCoefficients, mul_zero]
          exact natDegree_zero.le
      | cons d cs =>
          refine natDegree_mul_le.trans ?_
          have := natDegree_X_le (R := F)
          simp only [List.length_cons] at ih ⊢
          omega

/-- A polynomial has at most its nominal degree. -/
theorem UnivariatePoly.natDegree_polynomial (p : UnivariatePoly F) :
    p.polynomial.natDegree ≤ p.degree := by
  refine (natDegree_ofCoefficients p.coefficients).trans ?_
  unfold UnivariatePoly.degree
  split
  · next empty =>
      rw [List.isEmpty_iff.mp empty]
      exact Nat.zero_le 0
  · exact le_rfl

/-! ## Domains -/

namespace SumcheckDomain

/-- Number of points. -/
def size : SumcheckDomain → ℕ
  | booleanHypercube => 2
  | centeredInteger domainSize => domainSize

/-- The points: `0, 1`, or consecutive integers centered at zero. -/
def point (domain : SumcheckDomain) (t : Fin domain.size) : F :=
  match domain with
  | booleanHypercube => (t.val : F)
  | centeredInteger domainSize => ((-((domainSize - 1) / 2 : ℕ) + t.val : ℤ) : F)

end SumcheckDomain

/-- The linear combination of coefficients with integer power sums. -/
def dot (cs : List F) (sums : List ℤ) : F := (List.zipWith (· * ·) cs (sums.map Int.cast)).sum

theorem checkedI128_some {v w : ℤ} (fits : checkedI128 v = some w) : w = v := by
  unfold checkedI128 at fits
  split at fits <;> cases fits
  rfl

theorem checkedI64_some {v w : ℤ} (fits : checkedI64 v = some w) : w = v := by
  unfold checkedI64 at fits
  split at fits <;> cases fits
  rfl

/-- Adding the powers of a point adds the value at the point to the linear combination. -/
theorem dot_addPowers {domainSize power : ℕ} {t pow : ℤ} {sums out : List ℤ}
    (added : addPowers domainSize t power pow sums = .ok out) {cs : List F}
    (length : cs.length = sums.length) :
    out.length = sums.length ∧ dot cs out = dot cs sums + pow * (ofCoefficients cs).eval (t : F) := by
  induction sums generalizing cs power pow out with
  | nil =>
      cases added
      rw [List.length_eq_zero_iff.mp length]
      simp [dot, ofCoefficients]
  | cons sum sums ih =>
      obtain ⟨c, cs, rfl⟩ := List.exists_cons_of_length_eq_add_one length
      unfold addPowers at added
      split at added
      · cases added
      next fits =>
        obtain rfl := checkedI128_some fits
        split at added
        next empty =>
          cases added
          subst empty
          obtain rfl := List.length_eq_zero_iff.mp (Nat.succ.inj length)
          refine ⟨rfl, ?_⟩
          simp [dot, ofCoefficients]
          ring
        · split at added
          · cases added
          next fits' =>
            obtain rfl := checkedI128_some fits'
            obtain ⟨rest, tail, added⟩ := except_bind_eq_ok.mp added
            cases added
            obtain ⟨same, value⟩ := ih tail (Nat.succ.inj length)
            refine ⟨congrArg (· + 1) same, ?_⟩
            simp only [dot, List.map_cons, List.zipWith_cons_cons, List.sum_cons] at value ⊢
            rw [value, eval_ofCoefficients_cons]
            push_cast
            ring

/-- Adding the points of a domain adds the values at the points. -/
theorem dot_addPoints {domainSize : ℕ} {start : ℤ} {offsets : List ℕ} {sums out : List ℤ}
    (added : addPoints domainSize start offsets sums = .ok out) {cs : List F}
    (length : cs.length = sums.length) :
    dot cs out = dot cs sums +
      (offsets.map fun offset : ℕ => (ofCoefficients cs).eval ((start + offset : ℤ) : F)).sum := by
  induction offsets generalizing sums with
  | nil =>
      cases added
      simp
  | cons offset offsets ih =>
      unfold addPoints at added
      split at added
      · cases added
      next fits =>
        obtain rfl := checkedI64_some fits
        obtain ⟨next, first, added⟩ := except_bind_eq_ok.mp added
        obtain ⟨same, value⟩ := dot_addPowers first length
        rw [ih added (length.trans same.symm), value]
        simp only [List.map_cons, List.sum_cons]
        push_cast
        ring

theorem dot_replicate_zero (cs : List F) (n : ℕ) : dot cs (List.replicate n 0) = 0 := by
  induction cs generalizing n with
  | nil => rfl
  | cons c cs ih =>
      cases n with
      | zero => rfl
      | succ n =>
          have := ih n
          simp only [dot, List.replicate_succ, List.map_cons, List.zipWith_cons_cons,
            List.sum_cons] at this ⊢
          rw [this]
          simp

/-- The power sums of the centered domain give the sum over its points. -/
theorem dot_centeredPowerSums {domainSize numPowers : ℕ} {sums : List ℤ}
    (found : centeredPowerSums domainSize numPowers = .ok sums) {cs : List F}
    (length : cs.length = numPowers) :
    dot cs sums = ∑ t, (ofCoefficients cs).eval
      ((SumcheckDomain.centeredInteger domainSize).point t : F) := by
  obtain ⟨start, starts, found⟩ := except_bind_eq_ok.mp found
  have first : start = -((domainSize - 1) / 2 : ℕ) := by
    unfold centeredDomainStart at starts
    split_ifs at starts
    exact (Except.ok.inj starts).symm
  split_ifs at found with none_
  · cases found
    subst none_
    rw [List.length_eq_zero_iff.mp length]
    simp [dot, ofCoefficients]
  · rw [dot_addPoints found (by rw [List.length_replicate, length]), dot_replicate_zero, zero_add,
      first]
    exact (Fin.sum_univ_eq_sum_range (fun offset : ℕ =>
      (ofCoefficients cs).eval ((-((domainSize - 1) / 2 : ℕ) + offset : ℤ) : F)) domainSize).symm

/-- The round-sum coefficients give the sum over the domain. -/
theorem combination_roundSumCoefficients {domain : SumcheckDomain} {p : UnivariatePoly F}
    {coefficients : List F} (found : domain.roundSumCoefficients p.degree = .ok coefficients) :
    (List.zipWith (· * ·) p.coefficients coefficients).sum =
      ∑ t, p.polynomial.eval (domain.point t) := by
  unfold UnivariatePoly.polynomial
  by_cases empty : p.coefficients = []
  · rw [empty]
    simp [ofCoefficients]
  have degree : p.degree + 1 = p.coefficients.length := by
    have := List.length_pos_iff.mpr empty
    unfold UnivariatePoly.degree
    rw [if_neg (by rwa [List.isEmpty_iff])]
    omega
  generalize p.coefficients = cs at empty degree ⊢
  cases domain with
  | booleanHypercube =>
      cases found
      obtain ⟨c, cs, rfl⟩ := List.exists_cons_of_ne_nil empty
      obtain ones : p.degree = cs.length := Nat.succ.inj degree
      have tail : (List.zipWith (· * ·) cs (List.replicate cs.length 1)).sum =
          (ofCoefficients cs).eval 1 := by
        clear degree ones empty
        induction cs with
        | nil => simp [ofCoefficients]
        | cons d cs ih =>
            rw [List.length_cons, List.replicate_succ, List.zipWith_cons_cons, List.sum_cons, ih,
              eval_ofCoefficients_cons, mul_one, one_mul]
      change _ = ∑ t : Fin 2, (ofCoefficients (c :: cs)).eval (t.val : F)
      rw [ones, List.zipWith_cons_cons, List.sum_cons, tail, Fin.sum_univ_two,
        eval_ofCoefficients_cons, eval_ofCoefficients_cons]
      simp
      ring
  | centeredInteger domainSize =>
      unfold SumcheckDomain.roundSumCoefficients at found
      simp only at found
      split at found <;> cases found
      next sums found => exact dot_centeredPowerSums found degree.symm

/-- A round that passes the check sums to the running sum. -/
theorem sum_of_checkRoundSum [DecidableEq F] {domain : SumcheckDomain} {index : ℕ} {runningSum : F}
    {round : ClearRound F} (checked : domain.checkRoundSum index runningSum round = .ok ()) :
    ∑ t, round.poly.polynomial.eval (domain.point t) = runningSum := by
  obtain ⟨-, -, checked⟩ := except_bind_eq_ok.mp checked
  obtain ⟨coefficients, found, checked⟩ := except_bind_eq_ok.mp checked
  rw [← combination_roundSumCoefficients found]
  simp only at checked
  split_ifs at checked with count sum
  exact not_not.mp sum

/-! ## Compressed rounds -/

theorem foldl_sub (cs : List F) (a : F) :
    cs.foldl (fun linear c => linear - c) a = a - (ofCoefficients cs).eval 1 := by
  induction cs generalizing a with
  | nil => simp [ofCoefficients]
  | cons c cs ih =>
      rw [List.foldl_cons, ih, eval_ofCoefficients_cons]
      ring

theorem foldl_power (cs : List F) (point power sum : F) :
    (cs.foldl (fun (power, sum) c => (power * point, sum + c * (power * point)))
      (power, sum)).2 = sum + power * point * (ofCoefficients cs).eval point := by
  induction cs generalizing power sum with
  | nil => simp [ofCoefficients]
  | cons c cs ih =>
      rw [List.foldl_cons, ih, eval_ofCoefficients_cons]
      ring

/-- A nonempty compressed polynomial has the values of its decompression, whose values at zero and one
sum to the hint. -/
theorem CompressedPoly.decompress_spec {p : CompressedPoly F} {hint point value : F}
    (evaluated : p.evaluateWithHint hint point = some value) :
    ∃ poly, p.decompress hint = some poly ∧ poly.polynomial.eval point = value ∧
      ∑ t, poly.polynomial.eval (SumcheckDomain.booleanHypercube.point t) = hint ∧
      poly.polynomial.natDegree ≤ p.degree := by
  unfold evaluateWithHint decompress recoverLinearTerm at *
  cases shape : p.coeffsExceptLinearTerm with
  | nil =>
      rw [shape] at evaluated
      cases evaluated
  | cons c0 cs =>
      rw [shape] at evaluated
      have value_ := Option.some.inj evaluated
      rw [foldl_power, foldl_sub] at value_
      refine ⟨_, rfl, ?_, ?_, ?_⟩
      · rw [← value_]
        simp only [UnivariatePoly.polynomial, foldl_sub, eval_ofCoefficients_cons]
        ring
      · change ∑ t : Fin 2, eval (t.val : F) _ = hint
        rw [Fin.sum_univ_two]
        simp only [UnivariatePoly.polynomial, foldl_sub, eval_ofCoefficients_cons, Fin.val_zero,
          Fin.val_one, Nat.cast_zero, Nat.cast_one]
        ring
      · refine (natDegree_ofCoefficients _).trans ?_
        rw [degree, shape]
        rfl

/-! ## Runs -/

variable [DecidableEq F] {T : Type} [Transcript T F] {claim : SumcheckClaim F}

/-- The rounds the verifier accepts are accepted by the theory. -/
theorem accepts_of_verifyRounds {domain : SumcheckDomain} {index : ℕ} {runningSum value : F}
    {rounds : List (ClearRound F)} {challenges : List F} {t t' : T}
    (verified : verifyRounds claim domain index runningSum rounds t = .ok (challenges, value, t')) :
    challenges.length = rounds.length ∧ (∀ round ∈ rounds, round.degree ≤ claim.degree) ∧
      Accepts (domain.point (F := F)) runningSum
        ((rounds.map fun round => round.poly.polynomial).zip challenges) value := by
  induction rounds generalizing index runningSum challenges t with
  | nil =>
      cases verified
      exact ⟨rfl, nofun, rfl⟩
  | cons round rounds ih =>
      unfold verifyRounds at verified
      split_ifs at verified with exceeds
      obtain ⟨⟨⟩, checked, verified⟩ := except_bind_eq_ok.mp verified
      obtain ⟨⟨rest, value', last⟩, tail, verified⟩ := except_bind_eq_ok.mp verified
      cases verified
      obtain ⟨length, degrees, accepts⟩ := ih tail
      refine ⟨congrArg (· + 1) length, ?_, sum_of_checkRoundSum checked, ?_⟩
      · intro other member
        rcases List.mem_cons.mp member with rfl | member
        · exact Nat.not_lt.mp exceeds
        · exact degrees other member
      · rwa [← UnivariatePoly.evaluate_eq_eval]

/-- The compressed rounds the verifier accepts are accepted by the theory, once decompressed. -/
theorem accepts_of_verifyCompressedRounds {label : List UInt8} {index : ℕ} {runningSum value : F}
    {rounds : List (CompressedPoly F)} {challenges : List F} {t t' : T}
    (verified : verifyCompressedRounds claim label index runningSum rounds t =
      .ok (challenges, value, t')) :
    challenges.length = rounds.length ∧
      (decompressRounds runningSum rounds challenges).length = rounds.length ∧
      (∀ poly ∈ decompressRounds runningSum rounds challenges,
        poly.polynomial.natDegree ≤ claim.degree) ∧
      Accepts (SumcheckDomain.booleanHypercube.point (F := F)) runningSum
        (((decompressRounds runningSum rounds challenges).map UnivariatePoly.polynomial).zip
          challenges) value := by
  induction rounds generalizing index runningSum challenges t with
  | nil =>
      cases verified
      exact ⟨rfl, rfl, nofun, rfl⟩
  | cons round rounds ih =>
      unfold verifyCompressedRounds at verified
      simp only at verified
      split_ifs at verified with exceeds empty
      split at verified
      next value' evaluated =>
        obtain ⟨⟨rest, value'', last⟩, tail, verified⟩ := except_bind_eq_ok.mp verified
        cases verified
        obtain ⟨poly, found, atChallenge, sum, degree⟩ := CompressedPoly.decompress_spec evaluated
        obtain ⟨length, count, degrees, accepts⟩ := ih tail
        rw [← atChallenge, ← UnivariatePoly.evaluate_eq_eval] at count degrees accepts
        simp only [decompressRounds, found]
        refine ⟨congrArg (· + 1) length, congrArg (· + 1) count, ?_, sum, ?_⟩
        · intro other member
          rcases List.mem_cons.mp member with rfl | member
          · exact degree.trans (Nat.not_lt.mp exceeds)
          · exact degrees other member
        · rwa [← UnivariatePoly.evaluate_eq_eval]
      · cases verified

/-- A fooled round of `polys` with the challenges `point`. -/
theorem exists_fooled_zip {n d m : ℕ} {g : MvPolynomial (Fin n) F} {domain : Fin m → F}
    (degree : ∀ j, g.degreeOf j ≤ d) {polys : List F[X]} {point : List F} {start value : F}
    (length : point.length = polys.length) (dims : polys.length = n)
    (small : ∀ p ∈ polys, p.natDegree ≤ d) (wrong : start ≠ domainSum g domain)
    (accepts : Accepts domain start (polys.zip point) value) (final : value = evalAt g point) :
    ∃ (i : ℕ) (p : F[X]) (r : F), polys[i]? = some p ∧ point[i]? = some r ∧
      Fooled d p (roundPolynomial g domain (point.take i)) r := by
  have challenges : (polys.zip point).map Prod.snd = point := List.map_snd_zip length.le
  obtain ⟨i, p, r, found, fooled⟩ := exists_fooled degree
    (fun round member => small _ (List.of_mem_zip member).1)
    (by rw [List.length_zip, length, min_self, dims]) wrong accepts (by rwa [challenges])
  rw [challenges] at fooled
  obtain ⟨poly, challenge⟩ := List.getElem?_zip_eq_some.mp found
  exact ⟨i, p, r, poly, challenge, fooled⟩

/-- Soundness of both verifiers: if the claimed sum is wrong and the final value is right, the
challenge of some round is one of at most `d` at which its wrong polynomial goes unnoticed. -/
theorem sumcheck_sound {n d : ℕ} (g : MvPolynomial (Fin n) F) (degree : ∀ j, g.degreeOf j ≤ d)
    (claim : SumcheckClaim F) (numVars : claim.numVars = n) (bound : claim.degree = d) (t t' : T)
    (out : EvaluationClaim F) (final : out.value = evalAt g out.point) :
    (∀ (rounds : List (ClearRound F)) (domain : SumcheckDomain),
      verify claim rounds domain t = .ok (out, t') →
      claim.claimedSum ≠ domainSum g domain.point →
      ∃ (i : ℕ) (round : ClearRound F) (r : F), rounds[i]? = some round ∧ out.point[i]? = some r ∧
        Fooled d round.poly.polynomial (roundPolynomial g domain.point (out.point.take i)) r) ∧
    ∀ (rounds : List (CompressedPoly F)) (label : List UInt8),
      verifyCompressed claim rounds label t = .ok (out, t') →
      claim.claimedSum ≠ domainSum g SumcheckDomain.booleanHypercube.point →
      ∃ (i : ℕ) (poly : UnivariatePoly F) (r : F),
        (decompressRounds claim.claimedSum rounds out.point)[i]? = some poly ∧
        out.point[i]? = some r ∧
        Fooled d poly.polynomial
          (roundPolynomial g SumcheckDomain.booleanHypercube.point (out.point.take i)) r := by
  constructor
  · intro rounds domain verified wrong
    unfold verify at verified
    split_ifs at verified with count
    obtain ⟨⟨challenges, value, last⟩, ran, verified⟩ := except_bind_eq_ok.mp verified
    cases verified
    obtain ⟨length, degrees, accepts⟩ := accepts_of_verifyRounds ran
    obtain ⟨i, p, r, found, challenge, fooled⟩ := exists_fooled_zip degree
      (by rwa [List.length_map]) (by rw [List.length_map, not_not.mp count, numVars])
      (by
        intro p member
        obtain ⟨round, sent, rfl⟩ := List.mem_map.mp member
        exact (round.poly.natDegree_polynomial).trans ((degrees round sent).trans bound.le))
      wrong accepts final
    rw [List.getElem?_map, Option.map_eq_some_iff] at found
    obtain ⟨round, found, rfl⟩ := found
    exact ⟨i, round, r, found, challenge, fooled⟩
  · intro rounds label verified wrong
    unfold verifyCompressed at verified
    split_ifs at verified with count
    obtain ⟨⟨challenges, value, last⟩, ran, verified⟩ := except_bind_eq_ok.mp verified
    cases verified
    obtain ⟨length, decompressed, degrees, accepts⟩ := accepts_of_verifyCompressedRounds ran
    obtain ⟨i, p, r, found, challenge, fooled⟩ := exists_fooled_zip degree
      (by rw [List.length_map, decompressed, length])
      (by rw [List.length_map, decompressed, not_not.mp count, numVars])
      (by
        intro p member
        obtain ⟨poly, sent, rfl⟩ := List.mem_map.mp member
        exact (degrees poly sent).trans bound.le)
      wrong accepts final
    rw [List.getElem?_map, Option.map_eq_some_iff] at found
    obtain ⟨poly, found, rfl⟩ := found
    exact ⟨i, poly, r, found, challenge, fooled⟩

end

/-- A transcript that only holds the challenges to come. -/
instance : Transcript (List (ZMod 3)) (ZMod 3) where
  appendScalar t _ := t
  appendLabel t _ _ := t
  challenge t := (t.headD 0, t.tail)

open MvPolynomial in
/-- The polynomial `x` sums to one; the verifiers accept `2 x` for the sum two at the challenge zero. -/
theorem sumcheck_sound_two :
    (∃ (i : ℕ) (round : ClearRound (ZMod 3)) (r : ZMod 3),
      [(⟨.plain, ⟨[0, 2]⟩⟩ : ClearRound (ZMod 3))][i]? = some round ∧ [(0 : ZMod 3)][i]? = some r ∧
      Fooled 1 round.poly.polynomial
        (roundPolynomial (X 0 : MvPolynomial (Fin 1) (ZMod 3))
          SumcheckDomain.booleanHypercube.point ([0].take i)) r) ∧
    ∃ (i : ℕ) (poly : UnivariatePoly (ZMod 3)) (r : ZMod 3),
      (decompressRounds 2 [⟨[(0 : ZMod 3)]⟩] [0])[i]? = some poly ∧ [(0 : ZMod 3)][i]? = some r ∧
      Fooled 1 poly.polynomial
        (roundPolynomial (X 0 : MvPolynomial (Fin 1) (ZMod 3))
          SumcheckDomain.booleanHypercube.point ([0].take i)) r := by
  have wrong : (2 : ZMod 3) ≠ domainSum (X 0 : MvPolynomial (Fin 1) (ZMod 3))
      SumcheckDomain.booleanHypercube.point := by
    have total : domainSum (X 0 : MvPolynomial (Fin 1) (ZMod 3))
        SumcheckDomain.booleanHypercube.point = ∑ x : Fin 1 → Fin 2, ((x 0).val : ZMod 3) := by
      simp [domainSum, partialSum, evalAt, SumcheckDomain.point]
      rfl
    rw [total]
    decide
  have sound := sumcheck_sound (X 0 : MvPolynomial (Fin 1) (ZMod 3)) (d := 1)
    (fun j => (degreeOf_X j 0).le.trans (by split <;> omega)) ⟨1, 1, 2⟩ rfl rfl [(0 : ZMod 3)] [] ⟨[0], 0⟩ (by simp [evalAt])
  exact ⟨sound.1 _ _ (by decide) wrong, sound.2 _ [] (by decide) wrong⟩

end JoltWasm
