import JoltWasm.Field.MontCorrect
import JoltWasm.Kernels.ProductClaims

/-!
# The product kernel computes the product sum-check

From the rows and the challenges: the polynomial of the first round, the cells of the tables, every round of
the remainder and the output claims.
-/

namespace JoltWasm

open Lib Mont Finset

open GruenSplitEqPolynomial (LowBound lowBound_new)

namespace SpartanProduct

/-- The first round, the tables, the rounds so far and the claims at the end. -/
structure ProductKernelCorrect (ark : ArkFr) (rows : List SpartanProductRow) (tauLow : List Scalar) (tauHigh r : Scalar)
    (challenges : List Scalar) (uniskip : UnivariatePoly Scalar) (prepared : ProductRemainderKernel)
    (messages : List (UnivariatePoly Scalar)) (kernel : ProductRemainderKernel) : Prop where
  exactProducts : ∀ row, ∃ products, extendedProducts row extensionCoefficients = some products ∧
    products.map (fun product => product.toInt Limbs.toNat) = (List.range extendedSize).map (exactProduct row)
  firstRound : uniskip.polynomial = kernelPolynomial tauHigh * t1Polynomial rows tauLow
  leftCells : prepared.left.evals = listed tauLow.length fun j => weight r 0 * leftInput rows j + weight r 1 * lookup rows j
  rightCells : prepared.right.evals =
    listed tauLow.length fun j => weight r 0 * rightInput rows j + weight r 1 * branch rows j
  claim : uniskip.evaluate r = restSum (summand rows tauLow ((kernelPolynomial tauHigh).eval r) r) tauLow.length []
  count : messages.length = challenges.length
  rounds : ∀ i message, messages[i]? = some message →
    IsRound 3 (summand rows tauLow ((kernelPolynomial tauHigh).eval r) r) (tauLow.length - 1 - i) (challenges.take i).reverse
      message.polynomial
  outputs : challenges.length = tauLow.length → kernel.outputClaims ark =
    .ok ⟨extension (leftInput rows) challenges.reverse, extension (rightInput rows) challenges.reverse,
      extension (lookup rows) challenges.reverse, extension (branch rows) challenges.reverse⟩

variable (ark : ArkFr) {rows : List SpartanProductRow} {tauLow : List Scalar} (tauHigh r : Scalar)

theorem eval_kernelPolynomial : (kernelPolynomial tauHigh).eval r =
    ∑ i ∈ range domain, lagrangeWeight domainStart domain tauHigh i * lagrangeWeight domainStart domain r i := by
  rw [kernelPolynomial, Lagrange.interpolate_apply, Polynomial.eval_finsetSum]
  exact sum_congr rfl fun i _ => by rw [Polynomial.eval_mul, Polynomial.eval_C, ← lagrangeWeight]

/-- What the first round leaves is the sum of the remainder. -/
theorem uniskip_claim {uniskip : UnivariatePoly Scalar}
    (same : uniskip.polynomial = kernelPolynomial tauHigh * t1Polynomial rows tauLow) :
    uniskip.evaluate r = restSum (summand rows tauLow ((kernelPolynomial tauHigh).eval r) r) tauLow.length [] := by
  rw [UnivariatePoly.evaluate_eq_eval, same, Polynomial.eval_mul, restSum, cubeSum_eq_sum, t1Polynomial,
    Polynomial.eval_finsetSum, mul_sum]
  refine sum_congr rfl fun j member => ?_
  have inside := mem_range.mp member
  rw [List.append_nil, summand, productSummand, equal, extension_bitPoint _ inside, extension_bitPoint _ inside,
    extension_bitPoint _ inside, Polynomial.eval_mul, Polynomial.eval_mul, Polynomial.eval_C, leftPolynomial,
    rightPolynomial, eval_lanePolynomial, eval_lanePolynomial, leftCell, rightCell]
  ring

/-- The prepared kernel holds the tables of all coordinates. -/
theorem prepare_eq (some_ : tauLow ≠ []) (short : tauLow.length < 64) (all : rows.length = 2 ^ tauLow.length) :
    ∃ kernel, ProductRemainderKernel.prepare ark (parked rows tauLow) ⟨tauLow.length, r, tauHigh⟩ = .ok kernel ∧
      Bound rows tauLow ((kernelPolynomial tauHigh).eval r) r kernel tauLow.length [] := by
  set scale := (kernelPolynomial tauHigh).eval r with scaleIs
  have kernelValue : centeredLagrangeKernel domain tauHigh r = .ok (some scale) := by
    rw [centeredLagrangeKernel_eq (distinctNodes domain_le) (by decide) (by decide), centeredStart_eq, scaleIs,
      eval_kernelPolynomial]
  have bound := lowBound_new some_ (some scale)
  rw [Option.getD_some] at bound
  set splitEq := GruenSplitEqPolynomial.newWithScaling tauLow .lowToHigh (some scale)
  obtain ⟨l, a, b, -, entries⟩ := bound.holds.entries (by rwa [List.take_length])
  have total : tauLow.length = a + b + 1 := by
    have length := entries.length
    rw [List.take_length, GruenSplitEqPolynomial.tablePolynomial, EqPolynomial.length_table] at length
    exact Nat.pow_right_injective le_rfl length
  have row (xOut xIn : ℕ) (below : xOut < 2 ^ a) (below' : xIn < 2 ^ b) : splitEq.groupIndex xOut xIn = xOut * 2 ^ b + xIn := by
    have dense := entries.row xOut xIn below below'
    rwa [GruenSplitEqPolynomial.denseRow, bound.order] at dense
  have written := materialize_eq ark r (by rw [all, total]) entries.lengthOut entries.lengthIn
  rw [← total, sum_pairProducts r entries.lengthOut entries.lengthIn row] at written
  rw [ProductRemainderKernel.prepare, parked, if_neg (not_not.mpr rfl), weights_eq, KernelStop.liftDomain_ok,
    KernelStop.ok_bind, kernelValue, KernelStop.liftDomain_ok, KernelStop.ok_bind, if_pos short, KernelStop.orPanic_some,
    KernelStop.ok_bind]
  change ∃ kernel, (KernelStop.orPanic (materialize ark (weights r) rows splitEq.eOutCurrent splitEq.eInCurrent
    (2 ^ tauLow.length)) >>= _) = _ ∧ _
  rw [written, KernelStop.orPanic_some, KernelStop.ok_bind]
  simp only [new_listed, KernelStop.orPanic_some, KernelStop.ok_bind]
  refine ⟨_, rfl, ⟨rfl, rfl, rfl, ?_, rfl, rfl, ?_⟩⟩
  · rwa [List.drop_length, equal_nil, mul_one]
  · intro endpoints held
    obtain rfl := Option.some.inj held
    rw [total]

/-- The run returns, and what it returns is correct, when no linear factor vanishes at one. -/
theorem productKernel_correct (some_ : tauLow ≠ []) (short : tauLow.length < 64) (all : rows.length = 2 ^ tauLow.length)
    {challenges : List Scalar} (few : challenges.length ≤ tauLow.length)
    (invertible : ∀ i < challenges.length, RoundInvertible tauLow ((kernelPolynomial tauHigh).eval r)
      (tauLow.length - 1 - i) (challenges.take i).reverse) :
    ∃ uniskip prepared messages kernel,
      run ark tauLow.length rows tauLow tauHigh r challenges = .ok (uniskip, prepared, messages, kernel) ∧
      ProductKernelCorrect ark rows tauLow tauHigh r challenges uniskip prepared messages kernel := by
  obtain ⟨uniskip, first, firstIs⟩ := firstRoundPoly_eq rows tauLow tauHigh
  obtain ⟨prepared, prepares, bound⟩ := prepare_eq ark tauHigh r some_ short all
  have claim := uniskip_claim tauHigh r firstIs
  have before : Before rows tauLow ((kernelPolynomial tauHigh).eval r) r prepared none tauLow.length [] := bound
  obtain ⟨messages, kernel, ran, count, rounds, done⟩ := before.rounds few (by simpa using invertible)
  refine ⟨uniskip, prepared, messages, kernel, ?_, ?_⟩
  · rw [run, prepareFromStore_eq ark short all, KernelStop.ok_bind, first, KernelStop.ok_bind, prepares,
      KernelStop.ok_bind, claim, ran]
    rfl
  · refine ⟨fun row => ⟨_, extendedProducts_eq row, ?_⟩, firstIs, ?_, ?_, claim, count, by simpa using rounds, fun full => ?_⟩
    · rw [List.map_map]
      exact List.map_congr_left fun slot member => toInt_nodeProduct row (List.mem_range.mp member)
    · rw [bound.left, evals_tabulatedPolynomial]
      rfl
    · rw [bound.right, evals_tabulatedPolynomial]
      rfl
    · have point : kernel.challenges.challenges.reverse = challenges.reverse := by
        rw [done.challenges, List.reverse_reverse, List.append_nil]
      have complete : kernel.challenges.requireComplete = .ok () := by
        rw [RoundChallenges.requireComplete, done.challenges, if_pos (by simp [full])]
      have claims := claimedInputs_eq ark done.witness point (by rw [List.length_reverse, full, all])
      rw [ProductRemainderKernel.outputClaims, complete, KernelStop.ok_bind]
      simp only [claims, KernelStop.orPanic_some, KernelStop.ok_bind]
      rfl

theorem productKernel_correct_two :
    ∃ uniskip prepared messages kernel,
      run ArkFr.reference 1 [⟨7, 5, 2 ^ 64 - 1, true⟩, default] [1] 0 0 [3] = .ok (uniskip, prepared, messages, kernel) ∧
      ProductKernelCorrect ArkFr.reference [⟨7, 5, 2 ^ 64 - 1, true⟩, default] [1] 0 0 [3] uniskip prepared messages kernel :=
  productKernel_correct ArkFr.reference 0 0 (List.cons_ne_nil _ _) (by decide) rfl (by decide) fun i inside => by
    obtain rfl := Nat.lt_one_iff.mp inside
    have value : (kernelPolynomial 0).eval 0 = 1 := by
      have first (i : ℕ) : lagrangeWeight domainStart domain (0 : Scalar) i = if i = 0 then 1 else 0 := by
        have zero : node Scalar domainStart 0 = 0 := by simp [node]
        rw [← zero]
        exact lagrangeWeight_node (distinctNodes domain_le) (by decide)
      rw [eval_kernelPolynomial]
      simp only [first]
      simp [domain]
    rw [RoundInvertible, value]
    simp

/-- A round whose linear factor vanishes at one stops the prover. -/
theorem Bound.proveRound_stops {scale : Scalar} {kernel : ProductRemainderKernel} {m : ℕ} {low : List Scalar}
    (bound : Bound rows tauLow scale r kernel (m + 1) low) (vanishes : ¬RoundInvertible tauLow scale m low) (claim : Scalar) :
    kernel.proveRound none claim = none := by
  have inside : m < tauLow.length := by
    have := bound.lengths
    omega
  rw [RoundInvertible, List.getD_eq_getElem _ _ inside, not_not] at vanishes
  rw [bound.proveRound_none, GruenSplitEqPolynomial.gruenPolyDeg3, bound.splitEq.current, List.getElem?_eq_getElem inside,
    bound.splitEq.scalar]
  simp only [Option.bind_eq_bind, Option.bind_some, vanishes, inverse, if_true, Option.bind_none, Option.map_none]

/-- A single cycle has no pair. -/
theorem prepare_single (row : SpartanProductRow) (values : List Scalar) :
    ProductRemainderKernel.prepare ark ⟨0, [], [row], values⟩ ⟨0, r, tauHigh⟩ = .error .panicked := by
  rw [ProductRemainderKernel.prepare, if_neg (not_not.mpr rfl), weights_eq, KernelStop.liftDomain_ok, KernelStop.ok_bind,
    centeredLagrangeKernel_eq (distinctNodes domain_le) (by decide) (by decide), KernelStop.liftDomain_ok, KernelStop.ok_bind]
  simp [materialize, blockStep, GruenSplitEqPolynomial.newWithScaling, GruenSplitEqPolynomial.eOutCurrent,
    GruenSplitEqPolynomial.eInCurrent, List.range_succ]
  rfl

/-- Without cycles to pair, and at a vanishing factor, there is no run. -/
theorem productKernel_stops :
    (¬∀ (ark : ArkFr) (rows : List SpartanProductRow) (tauLow : List Scalar) (tauHigh r : Scalar) (challenges : List Scalar),
      tauLow ≠ [] → tauLow.length < 64 → rows.length = 2 ^ tauLow.length → challenges.length ≤ tauLow.length →
      ∃ out, run ark tauLow.length rows tauLow tauHigh r challenges = .ok out) ∧
    ¬∀ (ark : ArkFr) (rows : List SpartanProductRow) (tauHigh r : Scalar), rows.length = 1 →
      ∃ out, run ark 0 rows [] tauHigh r [] = .ok out := by
  constructor
  · intro always
    obtain ⟨out, ran⟩ := always ArkFr.reference [default, default] [0] 0 0 [0] (List.cons_ne_nil _ _) (by decide) rfl (by decide)
    obtain ⟨uniskip, first, -⟩ := firstRoundPoly_eq [default, default] [0] 0
    have all : [default, (default : SpartanProductRow)].length = 2 ^ [(0 : Scalar)].length := rfl
    obtain ⟨prepared, prepares, bound⟩ := prepare_eq ArkFr.reference 0 0 (List.cons_ne_nil _ _) (by decide) all
    have stops := bound.proveRound_stops 0 (by simp [RoundInvertible]) (uniskip.evaluate 0)
    rw [run, prepareFromStore_eq ArkFr.reference (by decide) all, KernelStop.ok_bind, first, KernelStop.ok_bind, prepares, KernelStop.ok_bind, proveRounds, stops] at ran
    cases ran
  · intro always
    obtain ⟨out, ran⟩ := always ArkFr.reference [default] 0 0 rfl
    obtain ⟨uniskip, first, -⟩ := firstRoundPoly_eq [default] [] 0
    have begins : OptimizedProductUniskip.prepareFromStore ArkFr.reference 0 [] [default] = .ok (parked [default] []) :=
      prepareFromStore_eq ArkFr.reference (by decide) rfl
    have stops : ProductRemainderKernel.prepare ArkFr.reference (parked [default] []) ⟨0, 0, 0⟩ = .error .panicked :=
      prepare_single ArkFr.reference 0 0 default _
    rw [run, begins, KernelStop.ok_bind, first, KernelStop.ok_bind, stops] at ran
    cases ran

end SpartanProduct

end JoltWasm
