import JoltWasm.Kernels.ProductTables

/-!
# The rounds of the product remainder

The kernel holds both folded lanes, bound at the challenges so far, and the equality tables of the cycles
with the value of the Lagrange kernel as their scalar.
-/

namespace JoltWasm

open Lib Mont Finset

open GruenSplitEqPolynomial (LowBound lowBound_new)

namespace SpartanProduct

variable (rows : List SpartanProductRow) (tauLow : List Scalar) (scale r : Scalar)

/-- The summand of the rounds. -/
noncomputable def summand : List Scalar → Scalar :=
  productSummand scale tauLow (extension (leftCell rows r)) (extension (rightCell rows r))

/-- The linear factor of the round with `m` free coordinates after it does not vanish at one. -/
def RoundInvertible (m : ℕ) (low : List Scalar) : Prop :=
  scale * equal (tauLow.drop (m + 1)) low * tauLow.getD m 0 ≠ 0

/-- The kernel with `m` free coordinates. -/
structure Bound (kernel : ProductRemainderKernel) (m : ℕ) (low : List Scalar) : Prop where
  lengths : m + low.length = tauLow.length
  left : kernel.left = tabulatedPolynomial (extension (leftCell rows r)) m low
  right : kernel.right = tabulatedPolynomial (extension (rightCell rows r)) m low
  splitEq : LowBound kernel.splitEq tauLow m (scale * equal (tauLow.drop m) low)
  challenges : kernel.challenges = ⟨low.reverse, tauLow.length⟩
  witness : kernel.rows = rows
  pending : ∀ endpoints, kernel.pendingEndpoints = some endpoints →
    endpoints = kernel.splitEq.productEndpoints kernel.left kernel.right

variable {rows tauLow scale r}

theorem Bound.bind {kernel : ProductRemainderKernel} {m : ℕ} {low : List Scalar}
    (bound : Bound rows tauLow scale r kernel (m + 1) low) (challenge : Scalar) :
    ∃ kernel', kernel.bind challenge = some kernel' ∧ Bound rows tauLow scale r kernel' m (challenge :: low) := by
  have lengths := bound.lengths
  have inside : m < tauLow.length := by omega
  have here : tauLow[m]? = some tauLow[m] := List.getElem?_eq_getElem inside
  obtain ⟨splitEq, moved, bound'⟩ := bound.splitEq.bind here challenge
  rw [scale_bind scale challenge here lengths] at bound'
  have left := bindLowToHigh_tabulated (multilinear_extension (leftCell rows r)) m low challenge
  have right := bindLowToHigh_tabulated (multilinear_extension (rightCell rows r)) m low challenge
  refine ⟨{ kernel with
      left := tabulatedPolynomial (extension (leftCell rows r)) m (challenge :: low)
      right := tabulatedPolynomial (extension (rightCell rows r)) m (challenge :: low)
      splitEq := splitEq
      challenges := kernel.challenges.push challenge
      pendingEndpoints := none }, ?_, ?_⟩
  · rw [ProductRemainderKernel.bind, bound.left, bound.right, left, right, moved]
    rfl
  · refine ⟨by rw [List.length_cons]; omega, rfl, rfl, bound', ?_, bound.witness, fun _ held => nomatch held⟩
    simp only [RoundChallenges.push, bound.challenges, List.reverse_cons]

/-- The endpoints that are held are those of the tables. -/
theorem Bound.proveRound_none {kernel : ProductRemainderKernel} {m : ℕ} {low : List Scalar}
    (bound : Bound rows tauLow scale r kernel m low) (claim : Scalar) :
    kernel.proveRound none claim = (kernel.splitEq.gruenPolyDeg3 (kernel.splitEq.productEndpoints kernel.left kernel.right).1
      (kernel.splitEq.productEndpoints kernel.left kernel.right).2 claim).map
        fun message => (message, { kernel with pendingEndpoints := none }) := by
  cases held : kernel.pendingEndpoints with
  | none =>
      simp only [ProductRemainderKernel.proveRound, held, Option.bind_eq_bind, Option.bind_some, Option.map_eq_bind,
        Option.pure_def, Function.comp_def]
  | some endpoints =>
      obtain rfl := bound.pending endpoints held
      simp only [ProductRemainderKernel.proveRound, held, Option.bind_eq_bind, Option.bind_some, Option.map_eq_bind,
        Option.pure_def, Function.comp_def]

/-- The message of a round, with the last challenge bound. -/
theorem Bound.message {kernel : ProductRemainderKernel} {m : ℕ} {low : List Scalar}
    (bound : Bound rows tauLow scale r kernel (m + 1) low) (invertible : RoundInvertible tauLow scale m low) :
    ∃ message kernel', kernel.proveRound none (restSum (summand rows tauLow scale r) (m + 1) low) = some (message, kernel') ∧
      IsRound 3 (summand rows tauLow scale r) m low message.polynomial ∧
      Bound rows tauLow scale r kernel' (m + 1) low := by
  have lengths := bound.lengths
  have inside : m < tauLow.length := by omega
  have nonzero : scale * equal (tauLow.drop (m + 1)) low * tauLow[m] ≠ 0 := by
    rwa [RoundInvertible, List.getD_eq_getElem _ _ inside] at invertible
  obtain ⟨message, returned, isRound⟩ := gruenPolyDeg3_isRound (distinctNodes (by decide))
    (List.getElem?_eq_getElem inside) lengths bound.splitEq nonzero (multilinear_extension (leftCell rows r))
    (multilinear_extension (rightCell rows r))
  rw [← bound.left, ← bound.right] at returned
  refine ⟨message, { kernel with pendingEndpoints := none }, ?_, isRound,
    { bound with pending := fun _ held => nomatch held }⟩
  rw [bound.proveRound_none, summand, returned]
  rfl

/-- The kernel before a round, with the last challenge still to bind. -/
def Before (rows : List SpartanProductRow) (tauLow : List Scalar) (scale r : Scalar) (kernel : ProductRemainderKernel) :
    Option Scalar → ℕ → List Scalar → Prop
  | none, m, low => Bound rows tauLow scale r kernel m low
  | some challenge, m, low => ∃ earlier, low = challenge :: earlier ∧ Bound rows tauLow scale r kernel (m + 1) earlier

theorem proveRound_some (kernel : ProductRemainderKernel) (challenge claim : Scalar) :
    kernel.proveRound (some challenge) claim = kernel.bind challenge >>= fun kernel => kernel.proveRound none claim := rfl

theorem Before.message {kernel : ProductRemainderKernel} {last : Option Scalar} {m : ℕ} {low : List Scalar}
    (before : Before rows tauLow scale r kernel last (m + 1) low) (invertible : RoundInvertible tauLow scale m low) :
    ∃ message kernel', kernel.proveRound last (restSum (summand rows tauLow scale r) (m + 1) low) = some (message, kernel') ∧
      IsRound 3 (summand rows tauLow scale r) m low message.polynomial ∧
      Bound rows tauLow scale r kernel' (m + 1) low := by
  cases last with
  | none => exact Bound.message before invertible
  | some challenge =>
      obtain ⟨earlier, rfl, bound⟩ := before
      obtain ⟨moved, ran, bound⟩ := bound.bind challenge
      rw [proveRound_some, ran]
      exact bound.message invertible

/-- The rounds from a claim that the free coordinates make up. -/
theorem Before.rounds {kernel : ProductRemainderKernel} {last : Option Scalar} {m : ℕ} {low : List Scalar}
    (before : Before rows tauLow scale r kernel last m low) {challenges : List Scalar} (few : challenges.length ≤ m)
    (invertible : ∀ i < challenges.length,
      RoundInvertible tauLow scale (m - 1 - i) ((challenges.take i).reverse ++ low)) :
    ∃ messages kernel', proveRounds kernel last (restSum (summand rows tauLow scale r) m low) challenges =
        some (messages, kernel') ∧
      messages.length = challenges.length ∧
      (∀ i message, messages[i]? = some message →
        IsRound 3 (summand rows tauLow scale r) (m - 1 - i) ((challenges.take i).reverse ++ low) message.polynomial) ∧
      Bound rows tauLow scale r kernel' (m - challenges.length) (challenges.reverse ++ low) := by
  induction challenges generalizing kernel last m low with
  | nil =>
      cases last with
      | none => exact ⟨[], kernel, rfl, rfl, by simp, before⟩
      | some challenge =>
          obtain ⟨earlier, rfl, bound⟩ := before
          obtain ⟨moved, ran, bound⟩ := bound.bind challenge
          refine ⟨[], moved, ?_, rfl, by simp, bound⟩
          rw [proveRounds, ProductRemainderKernel.finishRounds, ran]
          rfl
  | cons challenge challenges ih =>
      obtain ⟨m, rfl⟩ : ∃ n, m = n + 1 := ⟨m - 1, by rw [List.length_cons] at few; omega⟩
      obtain ⟨message, next, ran, isRound, bound⟩ := before.message (invertible 0 (by simp))
      have after : Before rows tauLow scale r next (some challenge) m (challenge :: low) := ⟨low, rfl, bound⟩
      have free (i : ℕ) : m - 1 - i = m + 1 - 1 - (i + 1) := by omega
      have bound_ (i : ℕ) : ((challenge :: challenges).take (i + 1)).reverse ++ low =
          (challenges.take i).reverse ++ challenge :: low := by
        rw [List.take_succ_cons, List.reverse_cons, List.append_assoc, List.singleton_append]
      obtain ⟨messages, last_, rest, count, rounds, done⟩ := ih after (Nat.le_of_succ_le_succ few) fun i inside => by
        rw [free, ← bound_]
        exact invertible (i + 1) (Nat.succ_lt_succ inside)
      have claim : message.evaluate challenge = restSum (summand rows tauLow scale r) m (challenge :: low) := by
        rw [UnivariatePoly.evaluate_eq_eval, isRound.value]
      refine ⟨message :: messages, last_, ?_, congrArg Nat.succ count, fun i message_ there => ?_, ?_⟩
      · rw [proveRounds, ran]
        simp only [Option.bind_eq_bind, Option.bind_some, claim, rest, Option.pure_def]
      · cases i with
        | zero =>
            obtain rfl := Option.some.inj there
            exact isRound
        | succ i =>
            rw [bound_, ← free]
            exact rounds i message_ there
      · rw [List.reverse_cons, List.append_assoc, List.singleton_append, List.length_cons, Nat.add_sub_add_right]
        exact done

end SpartanProduct

end JoltWasm
