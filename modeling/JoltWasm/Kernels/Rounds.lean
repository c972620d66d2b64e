import JoltWasm.Lib.Degrees
import JoltWasm.Poly.Interpolation

/-!
# The rounds of a kernel

A kernel binds challenges and returns messages.  One that keeps its state in step with the bound coordinates,
and whose message is the polynomial of the round, runs through all rounds.
-/

namespace JoltWasm

open Lib Finset

open UnivariatePoly (DistinctNodes integerPoints)

/-- `ProveRounds`: what a challenge and a message do to a kernel. -/
structure RoundKernel (F K ε : Type) where
  bind : K → F → Except ε K
  message : K → ℕ → F → Except ε (UnivariatePoly F × K)

namespace RoundKernel

variable {F K ε : Type} [Field F] (kernel : RoundKernel F K ε)

/-- Bind the last challenge, if there is one, then the round's message. -/
def proveRound (state : K) (challenge : Option F) (round : ℕ) (previousClaim : F) : Except ε (UnivariatePoly F × K) := do
  let state ← match challenge with
    | some challenge => kernel.bind state challenge
    | none => .ok state
  kernel.message state round previousClaim

def finishRounds (state : K) (challenge : F) : Except ε K := kernel.bind state challenge

/-- The caller evaluates each message at its challenge for the next claim, and the last challenge is bound at
the end. -/
def proveRounds : K → Option F → ℕ → F → List F → Except ε (List (UnivariatePoly F) × K)
  | state, none, _, _, [] => .ok ([], state)
  | state, some last, _, _, [] => do return ([], ← kernel.finishRounds state last)
  | state, last, round, claim, challenge :: challenges => do
      let (message, state) ← kernel.proveRound state last round claim
      let (messages, state) ← proveRounds state (some challenge) (round + 1) (message.evaluate challenge) challenges
      return (message :: messages, state)

/-! ## A kernel that serves a summand -/

/-- `Good state m low`: the coordinates `low` are bound and `m` are free.  `Allowed m low`: the round with `m`
free coordinates after it can be served. -/
structure Serves (d : ℕ) (f : List F → F) (Good : K → ℕ → List F → Prop) (Allowed : ℕ → List F → Prop) : Prop where
  bind : ∀ {state m low}, Good state (m + 1) low → ∀ challenge,
    ∃ next, kernel.bind state challenge = .ok next ∧ Good next m (challenge :: low)
  message : ∀ {state m low}, Good state (m + 1) low → Allowed m low → ∀ round,
    ∃ message next, kernel.message state round (restSum f (m + 1) low) = .ok (message, next) ∧
      IsRound d f m low message.polynomial ∧ Good next (m + 1) low

/-- The state before a round, with the last challenge still to bind. -/
def Before (Good : K → ℕ → List F → Prop) (state : K) : Option F → ℕ → List F → Prop
  | none, m, low => Good state m low
  | some challenge, m, low => ∃ earlier, low = challenge :: earlier ∧ Good state (m + 1) earlier

variable {kernel} {d : ℕ} {f : List F → F} {Good : K → ℕ → List F → Prop} {Allowed : ℕ → List F → Prop}

omit [Field F] in
theorem proveRound_some {state next : K} {challenge : F} (bound : kernel.bind state challenge = .ok next) (round : ℕ)
    (claim : F) : kernel.proveRound state (some challenge) round claim = kernel.proveRound next none round claim := by
  simp only [proveRound, bound]

theorem Serves.proveRound (serves : kernel.Serves d f Good Allowed) {state : K} {last : Option F} {m : ℕ} {low : List F}
    (before : Before Good state last (m + 1) low) (allowed : Allowed m low) (round : ℕ) :
    ∃ message next, kernel.proveRound state last round (restSum f (m + 1) low) = .ok (message, next) ∧
      IsRound d f m low message.polynomial ∧ Good next (m + 1) low := by
  cases last with
  | none => exact serves.message before allowed round
  | some challenge =>
      obtain ⟨earlier, rfl, good⟩ := before
      obtain ⟨moved, ran, good⟩ := serves.bind good challenge
      rw [proveRound_some ran]
      exact serves.message good allowed round

/-- The rounds from the claim that the free coordinates make up. -/
theorem Serves.rounds (serves : kernel.Serves d f Good Allowed) {state : K} {last : Option F} {m : ℕ} {low : List F}
    (before : Before Good state last m low) {challenges : List F} (few : challenges.length ≤ m)
    (allowed : ∀ i < challenges.length, Allowed (m - 1 - i) ((challenges.take i).reverse ++ low)) (round : ℕ) :
    ∃ messages next, kernel.proveRounds state last round (restSum f m low) challenges = .ok (messages, next) ∧
      messages.length = challenges.length ∧
      (∀ i message, messages[i]? = some message →
        IsRound d f (m - 1 - i) ((challenges.take i).reverse ++ low) message.polynomial) ∧
      Good next (m - challenges.length) (challenges.reverse ++ low) := by
  induction challenges generalizing state last m low round with
  | nil =>
      cases last with
      | none => exact ⟨[], state, rfl, rfl, by simp, before⟩
      | some challenge =>
          obtain ⟨earlier, rfl, good⟩ := before
          obtain ⟨moved, ran, good⟩ := serves.bind good challenge
          refine ⟨[], moved, ?_, rfl, by simp, good⟩
          rw [proveRounds, finishRounds, ran]
          rfl
  | cons challenge challenges ih =>
      obtain ⟨m, rfl⟩ : ∃ n, m = n + 1 := ⟨m - 1, by rw [List.length_cons] at few; omega⟩
      obtain ⟨message, next, ran, isRound, good⟩ := serves.proveRound before (allowed 0 (by simp)) round
      have after : Before Good next (some challenge) m (challenge :: low) := ⟨low, rfl, good⟩
      have free (i : ℕ) : m - 1 - i = m + 1 - 1 - (i + 1) := by omega
      have bound (i : ℕ) : ((challenge :: challenges).take (i + 1)).reverse ++ low =
          (challenges.take i).reverse ++ challenge :: low := by
        rw [List.take_succ_cons, List.reverse_cons, List.append_assoc, List.singleton_append]
      obtain ⟨messages, final, rest, count, rounds, done⟩ := ih after (Nat.le_of_succ_le_succ few) (fun i inside => by
        rw [free, ← bound]
        exact allowed (i + 1) (Nat.succ_lt_succ inside)) (round + 1)
      have claim : message.evaluate challenge = restSum f m (challenge :: low) := by
        rw [UnivariatePoly.evaluate_eq_eval, isRound.value]
      refine ⟨message :: messages, final, ?_, congrArg Nat.succ count, fun i message_ there => ?_, ?_⟩
      · rw [proveRounds, ran]
        simp only [Bind.bind, Except.bind, claim, rest]
        rfl
      · cases i with
        | zero =>
            obtain rfl := Option.some.inj there
            exact isRound
        | succ i =>
            rw [bound, ← free]
            exact rounds i message_ there
      · rw [List.reverse_cons, List.append_assoc, List.singleton_append, List.length_cons, Nat.add_sub_add_right]
        exact done

/-- A kernel that has no message unless the round is allowed has run through allowed rounds only. -/
theorem allowed_of_proveRounds
    (bind : ∀ {state m low}, Good state (m + 1) low → ∀ challenge,
      ∃ next, kernel.bind state challenge = .ok next ∧ Good next m (challenge :: low))
    (message : ∀ {state m low}, Good state (m + 1) low → ∀ {round claim message next},
      kernel.message state round claim = .ok (message, next) → Allowed m low ∧ Good next (m + 1) low)
    {state : K} {last : Option F} {m : ℕ} {low : List F} (before : Before Good state last m low) {challenges : List F}
    (few : challenges.length ≤ m) {round : ℕ} {claim : F} {messages : List (UnivariatePoly F)} {final : K}
    (ran : kernel.proveRounds state last round claim challenges = .ok (messages, final)) :
    ∀ i < challenges.length, Allowed (m - 1 - i) ((challenges.take i).reverse ++ low) := by
  induction challenges generalizing state last m low round claim messages final with
  | nil => exact fun i inside => (Nat.not_lt_zero i inside).elim
  | cons challenge challenges ih =>
      obtain ⟨m, rfl⟩ : ∃ n, m = n + 1 := ⟨m - 1, by rw [List.length_cons] at few; omega⟩
      have here : ∃ moved, Good moved (m + 1) low ∧
          kernel.proveRound state last round claim = kernel.message moved round claim := by
        cases last with
        | none => exact ⟨state, before, rfl⟩
        | some earlier =>
            obtain ⟨rest, rfl, good⟩ := before
            obtain ⟨moved, bound, good⟩ := bind good earlier
            exact ⟨moved, good, by rw [proveRound_some bound]; rfl⟩
      obtain ⟨moved, good, same⟩ := here
      rw [proveRounds, same] at ran
      cases made : kernel.message moved round claim with
      | error stop =>
          rw [made] at ran
          cases ran
      | ok result =>
          obtain ⟨served, next⟩ := result
          obtain ⟨allowed, good⟩ := message good made
          rw [made] at ran
          cases rest : kernel.proveRounds next (some challenge) (round + 1) (served.evaluate challenge) challenges with
          | error stop =>
              simp only [Bind.bind, Except.bind, rest] at ran
              cases ran
          | ok result =>
              have after : Before Good next (some challenge) m (challenge :: low) := ⟨low, rfl, good⟩
              have later := ih after (Nat.le_of_succ_le_succ few) rest
              intro i inside
              cases i with
              | zero => exact allowed
              | succ i =>
                  have free : m + 1 - 1 - (i + 1) = m - 1 - i := by omega
                  rw [free, List.take_succ_cons, List.reverse_cons, List.append_assoc, List.singleton_append]
                  exact later i (Nat.lt_of_succ_lt_succ inside)

/-- All rounds, from the sum over the cube. -/
theorem Serves.run (serves : kernel.Serves d f Good Allowed) {state : K} {n : ℕ} (good : Good state n [])
    {challenges : List F} (few : challenges.length ≤ n)
    (allowed : ∀ i < challenges.length, Allowed (n - 1 - i) (challenges.take i).reverse) :
    ∃ messages next, kernel.proveRounds state none 0 (restSum f n []) challenges = .ok (messages, next) ∧
      messages.length = challenges.length ∧
      (∀ i message, messages[i]? = some message →
        IsRound d f (n - 1 - i) (challenges.take i).reverse message.polynomial) ∧
      Good next (n - challenges.length) challenges.reverse := by
  have before : Before Good state none n [] := good
  simpa using serves.rounds before few (by simpa using allowed) 0

end RoundKernel

/-! ## Messages from a hint -/

section

variable {F : Type} [Field F]

/-- The values at zero and two, with the claim, are a round of degree two. -/
theorem fromEvalsAndHint_isRound [DecidableEq F] (distinct : DistinctNodes F 3) {f : List F → F} (degree : DegreeIn 2 f)
    (m : ℕ) (low : List F) : ∃ message,
      UnivariatePoly.fromEvalsAndHint (restSum f (m + 1) low) [restSum f m (0 :: low), restSum f m (2 :: low)] =
        some message ∧ IsRound 2 f m low message.polynomial := by
  obtain ⟨p, isRound⟩ := degree.exists_isRound m low
  have interpolated : ∃ message, UnivariatePoly.fromEvalsAndHint (restSum f (m + 1) low)
      [restSum f m (0 :: low), restSum f m (2 :: low)] = some message ∧ message.Through (integerPoints
        [restSum f m (0 :: low), restSum f (m + 1) low - restSum f m (0 :: low), restSum f m (2 :: low)]) :=
    interpolation_family.hint distinct
  obtain ⟨message, found, through⟩ := interpolated
  have nodes : integerPoints [restSum f m (0 :: low), restSum f (m + 1) low - restSum f m (0 :: low),
      restSum f m (2 :: low)] = [(0, p.eval 0), (1, p.eval 1), (2, p.eval 2)] := by
    rw [restSum_succ, isRound.value, isRound.value, isRound.value, add_sub_cancel_left]
    simp [integerPoints]
  rw [nodes] at through
  have small : p.degree < (3 : ℕ) := Polynomial.degree_le_natDegree.trans_lt
    (WithBot.coe_lt_coe.mpr (Nat.lt_succ_of_le isRound.degree))
  have same := through.unique p small (by simp)
  exact ⟨message, found, same ▸ isRound⟩

/-- What a wrong claim adds to the summand: it sums to one and vanishes wherever the kernel evaluates. -/
def drift (x : List F) : F := (x.map fun t => t * (2 - t)).prod

theorem drift_append (high low : List F) : drift (high ++ low) = drift high * drift low := by
  rw [drift, List.map_append, List.prod_append, drift, drift]

theorem restSum_drift (m : ℕ) (low : List F) : restSum drift m low = drift low := by
  induction m generalizing low with
  | zero => rfl
  | succ m ih =>
      rw [restSum_succ, ih, ih, drift, drift, drift, List.map_cons, List.map_cons, List.prod_cons, List.prod_cons]
      ring

theorem drift_zero (low : List F) : drift (0 :: low) = 0 := by
  rw [drift, List.map_cons, List.prod_cons, zero_mul, zero_mul]

theorem drift_two (low : List F) : drift (2 :: low) = 0 := by
  rw [drift, List.map_cons, List.prod_cons, sub_self, mul_zero, zero_mul]

open Polynomial in
theorem degreeIn_drift : DegreeIn 2 (drift : List F → F) := fun high low => by
  refine ⟨C (drift (high ++ low)) * (X * (C 2 - X)), by compute_degree, fun t => ?_⟩
  rw [drift_append, drift_append, drift, drift, drift, List.map_cons, List.prod_cons]
  simp only [eval_mul, eval_C, eval_X, eval_sub]
  ring

/-- The summand that a kernel serves from a claim that is `excess` too large. -/
def drifted (f : List F → F) (excess : F) (x : List F) : F := f x + excess * drift x

theorem restSum_drifted (f : List F → F) (excess : F) (m : ℕ) (low : List F) :
    restSum (drifted f excess) m low = restSum f m low + excess * drift low := by
  rw [← restSum_drift m low]
  exact (restSum_add f _ m low).trans (congrArg _ (cubeSum_mul m excess _))

theorem drifted_zero (f : List F → F) : drifted f 0 = f := by
  funext x
  rw [drifted, zero_mul, add_zero]

/-- The claim of the rounds. -/
theorem restSum_drifted_nil (f : List F → F) (n : ℕ) (claim : F) :
    restSum (drifted f (claim - restSum f n [])) n [] = claim := by
  have one : drift ([] : List F) = 1 := rfl
  rw [restSum_drifted, one, mul_one, add_sub_cancel]

/-- The messages are those of the summand itself exactly from its sum. -/
theorem isRound_drifted_iff {f : List F → F} {n : ℕ} (positive : 0 < n) {claim : F}
    {challenges : List F} {messages : List (UnivariatePoly F)} (count : messages.length = n)
    (rounds : ∀ i message, messages[i]? = some message → IsRound 2 (drifted f (claim - restSum f n [])) (n - 1 - i)
      (challenges.take i).reverse message.polynomial) :
    (∀ i message, messages[i]? = some message →
      IsRound 2 f (n - 1 - i) (challenges.take i).reverse message.polynomial) ↔ claim = restSum f n [] := by
  constructor
  · intro true_
    obtain ⟨first, there⟩ : ∃ first, messages[0]? = some first := ⟨_, List.getElem?_eq_getElem (by omega)⟩
    have sum := (true_ 0 first there).sum
    rw [(rounds 0 first there).sum, Nat.sub_zero, Nat.sub_add_cancel positive, List.take_zero, List.reverse_nil,
      restSum_drifted_nil] at sum
    exact sum
  · rintro rfl i message there
    have round := rounds i message there
    rwa [sub_self, drifted_zero] at round

/-- The value that the last message leaves. -/
theorem evaluate_last {f : List F → F} {n : ℕ} {challenges : List F} {messages : List (UnivariatePoly F)}
    (count : messages.length = n) (drawn : challenges.length = n)
    (rounds : ∀ i message, messages[i]? = some message →
      IsRound 2 f (n - 1 - i) (challenges.take i).reverse message.polynomial)
    {message : UnivariatePoly F} (final : messages.getLast? = some message) {last : F}
    (end_ : challenges.getLast? = some last) : message.evaluate last = f challenges.reverse := by
  have point : challenges.reverse = last :: (challenges.take (n - 1)).reverse := by
    rw [← drawn, ← List.dropLast_eq_take, ← List.reverse_concat, List.dropLast_append_getLast? last end_]
  rw [List.getLast?_eq_getElem?, count] at final
  have round := rounds _ message final
  rw [Nat.sub_self] at round
  rw [UnivariatePoly.evaluate_eq_eval, round.value, restSum_zero, point]

variable {K ε : Type} {kernel : RoundKernel F K ε} {f : List F → F} {Good : K → ℕ → List F → Prop}
  {Allowed : ℕ → List F → Prop}

/-- A kernel whose messages are its values at zero and two with the claim as a hint. -/
theorem RoundKernel.Serves.ofHint [DecidableEq F] (distinct : DistinctNodes F 3) (degree : DegreeIn 2 f)
    (bind : ∀ {state m low}, Good state (m + 1) low → ∀ challenge,
      ∃ next, kernel.bind state challenge = .ok next ∧ Good next m (challenge :: low))
    (message : ∀ {state m low}, Good state (m + 1) low → Allowed m low → ∀ round claim message,
      UnivariatePoly.fromEvalsAndHint claim [restSum f m (0 :: low), restSum f m (2 :: low)] = some message →
        ∃ next, kernel.message state round claim = .ok (message, next) ∧ Good next (m + 1) low)
    (excess : F) : kernel.Serves 2 (drifted f excess) Good Allowed where
  bind := bind
  message := fun {state m low} good allowed round => by
    obtain ⟨made, found, isRound⟩ := fromEvalsAndHint_isRound distinct (degree.add (degreeIn_drift.const_mul excess)) m low
    have atZero : restSum (drifted f excess) m (0 :: low) = restSum f m (0 :: low) := by
      rw [restSum_drifted, drift_zero, mul_zero, add_zero]
    have atTwo : restSum (drifted f excess) m (2 :: low) = restSum f m (2 :: low) := by
      rw [restSum_drifted, drift_two, mul_zero, add_zero]
    obtain ⟨next, ran, kept⟩ := message good allowed round _ made (by rw [← atZero, ← atTwo]; exact found)
    exact ⟨made, next, ran, isRound, kept⟩

end

end JoltWasm
