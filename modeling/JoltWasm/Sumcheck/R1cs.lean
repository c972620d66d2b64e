import JoltWasm.R1cs.Builder
import JoltWasm.Sumcheck.Soundness

/-!
# The sum-check as a constraint system

A layout names the variables of a sum-check: its claims and the coefficients of its round polynomials.  Two
constraints for each round say that the polynomial sums to the claim over the domain, and that the next claim
is its value at the challenge.
-/

namespace JoltWasm

open R1cs Lib

structure SumcheckStatement where
  numVars : ℕ
  degree : ℕ
  deriving DecidableEq

structure VerifiedCommittedRound (F Com : Type) where
  commitment : Com
  degree : ℕ
  challenge : F

inductive SumcheckR1csError where
  | wrongNumberOfRounds (expected actual : ℕ)
  | degreeBoundExceeded (roundIndex bound actual : ℕ)
  | layoutRoundCountMismatch (expected actual : ℕ)
  | emptyRoundLayout (roundIndex : ℕ)
  | layoutRoundDegreeMismatch (roundIndex expected actual : ℕ)
  | roundClaimLinkMismatch (roundIndex : ℕ) (expected actual : Variable)
  | outputClaimLinkMismatch (expected actual : Variable)
  | layoutVariableOutOfBounds (v : Variable) (numVars : ℕ)
  | roundSumCoefficientsUnavailable (roundIndex : ℕ) (reason : String)
  | roundSumCoefficientCountMismatch (roundIndex expected actual : ℕ)
  | panicked
  deriving DecidableEq

structure SumcheckR1csRoundLayout where
  claimIn : Variable
  coefficients : List Variable
  claimOut : Variable
  deriving DecidableEq

structure SumcheckR1csLayout where
  inputClaim : Variable
  rounds : List SumcheckR1csRoundLayout
  outputClaim : Variable
  deriving DecidableEq

def SumcheckR1csRoundLayout.degree (round : SumcheckR1csRoundLayout) : ℕ := round.coefficients.length - 1

section

variable {F Com : Type} [Field F] [DecidableEq F]

/-! ## The layout -/

def validateRoundDegrees (bound : ℕ) : ℕ → List (VerifiedCommittedRound F Com) → Except SumcheckR1csError Unit
  | _, [] => .ok ()
  | index, round :: rounds =>
      if bound < round.degree then .error (.degreeBoundExceeded index bound round.degree)
      else validateRoundDegrees bound (index + 1) rounds

def validateRoundsStatement (statement : SumcheckStatement) (rounds : List (VerifiedCommittedRound F Com)) :
    Except SumcheckR1csError Unit :=
  if statement.numVars ≠ rounds.length then .error (.wrongNumberOfRounds statement.numVars rounds.length)
  else validateRoundDegrees statement.degree 0 rounds

def validateVariable (v : Variable) (numVars : ℕ) : Except SumcheckR1csError Unit :=
  if numVars ≤ v.index then .error (.layoutVariableOutOfBounds v numVars) else .ok ()

/-- The rounds from `index` on; the claim that comes out of the last one. -/
def validateRoundLayouts (numVars : ℕ) : ℕ → Variable → List (VerifiedCommittedRound F Com) →
    List SumcheckR1csRoundLayout → Except SumcheckR1csError Variable
  | index, expectedClaimIn, round :: rounds, roundLayout :: layouts => do
      validateVariable roundLayout.claimIn numVars
      validateVariable roundLayout.claimOut numVars
      roundLayout.coefficients.forM fun coefficient => validateVariable coefficient numVars
      if roundLayout.coefficients.isEmpty then .error (.emptyRoundLayout index)
      else if round.degree ≠ roundLayout.degree then
        .error (.layoutRoundDegreeMismatch index round.degree roundLayout.degree)
      else if roundLayout.claimIn ≠ expectedClaimIn then
        .error (.roundClaimLinkMismatch index expectedClaimIn roundLayout.claimIn)
      else validateRoundLayouts numVars (index + 1) roundLayout.claimOut rounds layouts
  | _, expectedClaimIn, _, _ => .ok expectedClaimIn

def validateLayout (numVars : ℕ) (statement : SumcheckStatement) (rounds : List (VerifiedCommittedRound F Com))
    (layout : SumcheckR1csLayout) : Except SumcheckR1csError Unit := do
  validateRoundsStatement statement rounds
  validateVariable layout.inputClaim numVars
  validateVariable layout.outputClaim numVars
  if rounds.length ≠ layout.rounds.length then
    .error (.layoutRoundCountMismatch rounds.length layout.rounds.length)
  else do
    let last ← validateRoundLayouts numVars 0 layout.inputClaim rounds layout.rounds
    if layout.outputClaim ≠ last then .error (.outputClaimLinkMismatch last layout.outputClaim) else .ok ()

def allocUnknowns (builder : R1csBuilder F) (count : ℕ) : List Variable × R1csBuilder F :=
  builder.allocAll (List.replicate count none)

/-- The rounds from the claim `claimIn` on; the claim that comes out of the last one. -/
def allocateRounds (builder : R1csBuilder F) (claimIn : Variable) :
    List (VerifiedCommittedRound F Com) → List SumcheckR1csRoundLayout × Variable × R1csBuilder F
  | [] => ([], claimIn, builder)
  | round :: rounds =>
      let (coefficients, builder) := allocUnknowns builder (round.degree + 1)
      let (claimOut, builder) := builder.allocUnknown
      let (layouts, last, builder) := allocateRounds builder claimOut rounds
      (⟨claimIn, coefficients, claimOut⟩ :: layouts, last, builder)

def allocateSumcheckR1csLayout (builder : R1csBuilder F) (statement : SumcheckStatement)
    (rounds : List (VerifiedCommittedRound F Com)) :
    Except SumcheckR1csError (SumcheckR1csLayout × R1csBuilder F) := do
  validateRoundsStatement statement rounds
  let (inputClaim, builder) := builder.allocUnknown
  let (layouts, outputClaim, builder) := allocateRounds builder inputClaim rounds
  return (⟨inputClaim, layouts, outputClaim⟩, builder)

/-! ## The constraints -/

def roundSumLc (roundIndex : ℕ) (round : SumcheckR1csRoundLayout) (roundSumCoefficients : List F) :
    Except SumcheckR1csError (LinearCombination F) :=
  if roundSumCoefficients.length ≠ round.coefficients.length then
    .error (.roundSumCoefficientCountMismatch roundIndex round.coefficients.length roundSumCoefficients.length)
  else
    .ok ((round.coefficients.zip roundSumCoefficients).foldl
      (fun sum (v, coefficient) => sum.add ((LinearCombination.ofVariable v).scale coefficient)) .zero)

def polynomialEvalLc (coefficients : List Variable) (point : F) : LinearCombination F :=
  (coefficients.foldl (fun (result, power) v =>
    (result.add ((LinearCombination.ofVariable v).scale power), power * point)) (.zero, 1)).1

def appendRoundConstraints (builder : R1csBuilder F) (roundIndex : ℕ) (round : SumcheckR1csRoundLayout)
    (challenge : F) (roundSumCoefficients : List F) : Except SumcheckR1csError (R1csBuilder F) := do
  let roundSum ← roundSumLc roundIndex round roundSumCoefficients
  let some builder := builder.assertEqual roundSum (.ofVariable round.claimIn) | .error .panicked
  let some builder := builder.assertEqual (polynomialEvalLc round.coefficients challenge)
    (.ofVariable round.claimOut) | .error .panicked
  return builder

/-- The text of the only error of a domain. -/
def roundSumReason : SumcheckError F → String
  | .invalidIntegerDomain domainSize =>
      s!"integer sumcheck domain size must be between 1 and i64::MAX, got {domainSize}"
  | _ => ""

def appendRounds (domain : SumcheckDomain) : ℕ → R1csBuilder F → List SumcheckR1csRoundLayout →
    List (VerifiedCommittedRound F Com) → Except SumcheckR1csError (R1csBuilder F)
  | index, builder, roundLayout :: layouts, round :: rounds =>
      match domain.roundSumCoefficients round.degree with
      | .error source => .error (.roundSumCoefficientsUnavailable index (roundSumReason (F := F) source))
      | .ok roundSumCoefficients => do
          let builder ← appendRoundConstraints builder index roundLayout round.challenge roundSumCoefficients
          appendRounds domain (index + 1) builder layouts rounds
  | _, builder, _, _ => .ok builder

def appendSumcheckR1csConstraintsForDomain (builder : R1csBuilder F) (statement : SumcheckStatement)
    (rounds : List (VerifiedCommittedRound F Com)) (layout : SumcheckR1csLayout) (domain : SumcheckDomain) :
    Except SumcheckR1csError (R1csBuilder F) := do
  validateLayout builder.numVars statement rounds layout
  appendRounds domain 0 builder layout.rounds rounds

def appendSumcheckR1csConstraints (builder : R1csBuilder F) (statement : SumcheckStatement)
    (rounds : List (VerifiedCommittedRound F Com)) (layout : SumcheckR1csLayout) :
    Except SumcheckR1csError (R1csBuilder F) :=
  appendSumcheckR1csConstraintsForDomain builder statement rounds layout .booleanHypercube

/-! ## What the constraints say -/

theorem value_roundSum {round : SumcheckR1csRoundLayout} {index : ℕ} {coefficients : List F}
    {lc : LinearCombination F} (found : roundSumLc index round coefficients = .ok lc) (z : ℕ → F) :
    coefficients.length = round.coefficients.length ∧ lc.value z =
      (List.zipWith (· * ·) (round.coefficients.map fun v => z v.index) coefficients).sum := by
  have gathered (terms : List (Variable × F)) (sum : LinearCombination F) :
      (terms.foldl (fun sum (v, coefficient) => sum.add ((LinearCombination.ofVariable v).scale coefficient))
        sum).value z = sum.value z + (terms.map fun term => z term.1.index * term.2).sum := by
    induction terms generalizing sum with
    | nil => rw [List.foldl_nil, List.map_nil, List.sum_nil, add_zero]
    | cons term terms ih =>
        rw [List.foldl_cons, ih, List.map_cons, List.sum_cons, LinearCombination.value_add,
          LinearCombination.value_scale, LinearCombination.value_ofVariable, add_assoc]
  rw [roundSumLc] at found
  split_ifs at found with count
  obtain rfl := Except.ok.inj found
  refine ⟨not_not.mp count, ?_⟩
  rw [gathered, LinearCombination.value_zero, zero_add, List.zipWith_map_left, List.zip, List.map_zipWith]

theorem value_polynomialEval (coefficients : List Variable) (point : F) (z : ℕ → F) :
    (polynomialEvalLc coefficients point).value z =
      (UnivariatePoly.mk (coefficients.map fun v => z v.index)).evaluate point := by
  have gathered (vs : List Variable) (result : LinearCombination F) (power : F) :
      (vs.foldl (fun (result, power) v =>
        (result.add ((LinearCombination.ofVariable v).scale power), power * point)) (result, power)).1.value z =
          result.value z + power * (ofCoefficients (vs.map fun v => z v.index)).eval point := by
    induction vs generalizing result power with
    | nil => simp [ofCoefficients]
    | cons v vs ih =>
        rw [List.foldl_cons, ih, LinearCombination.value_add, LinearCombination.value_scale,
          LinearCombination.value_ofVariable, List.map_cons, eval_ofCoefficients_cons]
        ring
  rw [polynomialEvalLc, gathered, LinearCombination.value_zero, zero_add, one_mul, UnivariatePoly.evaluate_eq_eval]
  rfl

/-- The message of a round. -/
def SumcheckR1csRoundLayout.clearRound (round : SumcheckR1csRoundLayout) (z : ℕ → F) : ClearRound F :=
  ⟨.plain, ⟨round.coefficients.map fun v => z v.index⟩⟩

/-- A round is accepted and leads to its next claim. -/
structure RoundHolds (domain : SumcheckDomain) (round : SumcheckR1csRoundLayout) (challenge : F) (z : ℕ → F) : Prop where
  sum : ∃ weights, domain.roundSumCoefficients (F := F) round.degree = .ok weights ∧
    weights.length = round.coefficients.length ∧
    (round.clearRound z).coefficientLinearCombination weights = z round.claimIn.index
  next : (round.clearRound z).evaluate challenge = z round.claimOut.index

theorem appendRoundConstraints_eq {builder builder' : R1csBuilder F} {index : ℕ} {round : SumcheckR1csRoundLayout}
    {challenge : F} {weights : List F}
    (appended : appendRoundConstraints builder index round challenge weights = .ok builder') :
    builder'.witness = builder.witness ∧ weights.length = round.coefficients.length ∧ ∀ z, z 0 = 1 →
      (builder'.Satisfies z ↔ builder.Satisfies z ∧
        (round.clearRound z).coefficientLinearCombination weights = z round.claimIn.index ∧
        (round.clearRound z).evaluate challenge = z round.claimOut.index) := by
  obtain ⟨lc, found, appended⟩ := except_bind_eq_ok.mp appended
  split at appended
  next first sum =>
    split at appended
    next second next =>
      obtain rfl := Except.ok.inj appended
      obtain ⟨same, holds⟩ := R1csBuilder.assertEqual_eq sum
      obtain ⟨same', holds'⟩ := R1csBuilder.assertEqual_eq next
      refine ⟨same'.trans same, (value_roundSum found fun _ => 0).1, fun z one => ?_⟩
      rw [holds' z one, holds z one, (value_roundSum found z).2, value_polynomialEval,
        LinearCombination.value_ofVariable, LinearCombination.value_ofVariable, and_assoc]
      rfl
    · cases appended
  · cases appended

theorem appendRounds_eq {domain : SumcheckDomain} {index : ℕ} {builder builder' : R1csBuilder F}
    {layouts : List SumcheckR1csRoundLayout} {rounds : List (VerifiedCommittedRound F Com)}
    (degrees : List.Forall₂ (fun layout (round : VerifiedCommittedRound F Com) => round.degree = layout.degree)
      layouts rounds)
    (appended : appendRounds domain index builder layouts rounds = .ok builder') :
    builder'.witness = builder.witness ∧ ∀ z, z 0 = 1 → (builder'.Satisfies z ↔ builder.Satisfies z ∧
      List.Forall₂ (fun layout round => RoundHolds domain layout round.challenge z) layouts rounds) := by
  induction degrees generalizing index builder with
  | nil =>
      obtain rfl := Except.ok.inj appended
      exact ⟨rfl, fun z _ => by simp⟩
  | @cons layout round layouts rounds degree _ ih =>
      rw [appendRounds] at appended
      split at appended
      · cases appended
      next weights found =>
        obtain ⟨next, first, appended⟩ := except_bind_eq_ok.mp appended
        obtain ⟨same, count, holds⟩ := appendRoundConstraints_eq first
        obtain ⟨same', holds'⟩ := ih appended
        refine ⟨same'.trans same, fun z one => ?_⟩
        rw [degree] at found
        rw [holds' z one, holds z one, List.forall₂_cons, and_assoc]
        refine and_congr_right fun _ => and_congr_left fun _ => ?_
        exact ⟨fun both => ⟨⟨weights, found, count, both.1⟩, both.2⟩, fun round => by
          obtain ⟨⟨weights', found', _, sum⟩, next⟩ := round
          obtain rfl := Except.ok.inj (found.symm.trans found')
          exact ⟨sum, next⟩⟩

/-! ## Valid layouts -/

/-- The claims are chained from one variable to another. -/
def ClaimsLinked : Variable → List SumcheckR1csRoundLayout → Variable → Prop
  | claim, [], last => claim = last
  | claim, layout :: layouts, last => layout.claimIn = claim ∧ ClaimsLinked layout.claimOut layouts last

/-- The variables of a round are allocated, and it has a coefficient. -/
structure RoundAllocated (numVars : ℕ) (layout : SumcheckR1csRoundLayout) : Prop where
  claimIn : layout.claimIn.index < numVars
  claimOut : layout.claimOut.index < numVars
  coefficients : ∀ v ∈ layout.coefficients, v.index < numVars
  nonempty : layout.coefficients ≠ []

omit [Field F] [DecidableEq F] in
theorem validateVariable_eq_ok {v : Variable} {numVars : ℕ} :
    validateVariable v numVars = .ok () ↔ v.index < numVars := by
  rw [validateVariable]
  split_ifs with past <;> simp [past]
  exact Nat.not_le.mp past

theorem forM_eq_ok {α ε : Type} {f : α → Except ε PUnit} {items : List α} :
    items.forM f = .ok () ↔ ∀ item ∈ items, f item = .ok () := by
  induction items with
  | nil => simp [pure, Except.pure]
  | cons item items ih =>
      rw [List.forall_mem_cons, ← ih]
      refine except_bind_eq_ok.trans ?_
      exact ⟨fun ⟨_, first, rest⟩ => ⟨first, rest⟩, fun both => ⟨(), both⟩⟩

omit [Field F] [DecidableEq F] in
theorem validateRoundDegrees_eq_ok {bound index : ℕ} {rounds : List (VerifiedCommittedRound F Com)} :
    validateRoundDegrees bound index rounds = .ok () ↔ ∀ round ∈ rounds, round.degree ≤ bound := by
  induction rounds generalizing index with
  | nil => simp [validateRoundDegrees]
  | cons round rounds ih =>
      rw [validateRoundDegrees, List.forall_mem_cons]
      split_ifs with past
      · exact ⟨nofun, fun both => absurd both.1 (Nat.not_le.mpr past)⟩
      · rw [ih]
        exact ⟨fun rest => ⟨Nat.not_lt.mp past, rest⟩, And.right⟩

omit [Field F] [DecidableEq F] in
theorem validateRoundsStatement_eq_ok {statement : SumcheckStatement} {rounds : List (VerifiedCommittedRound F Com)} :
    validateRoundsStatement statement rounds = .ok () ↔
      statement.numVars = rounds.length ∧ ∀ round ∈ rounds, round.degree ≤ statement.degree := by
  rw [validateRoundsStatement]
  split_ifs with other
  · exact ⟨nofun, fun both => absurd both.1 other⟩
  · rw [validateRoundDegrees_eq_ok]
    exact ⟨fun degrees => ⟨not_not.mp other, degrees⟩, And.right⟩

/-- The rounds of a layout are those of the sum-check. -/
def DegreesMatch (layouts : List SumcheckR1csRoundLayout) (rounds : List (VerifiedCommittedRound F Com)) : Prop :=
  List.Forall₂ (fun layout (round : VerifiedCommittedRound F Com) => round.degree = layout.degree) layouts rounds

omit [Field F] [DecidableEq F] in
theorem validateRoundLayouts_eq_ok {numVars index : ℕ} {claim last : Variable}
    {rounds : List (VerifiedCommittedRound F Com)} {layouts : List SumcheckR1csRoundLayout}
    (same : rounds.length = layouts.length) :
    validateRoundLayouts numVars index claim rounds layouts = .ok last ↔
      (∀ layout ∈ layouts, RoundAllocated numVars layout) ∧ DegreesMatch layouts rounds ∧
        ClaimsLinked claim layouts last := by
  induction rounds generalizing index claim layouts with
  | nil =>
      obtain rfl := List.eq_nil_of_length_eq_zero same.symm
      rw [validateRoundLayouts, Except.ok.injEq]
      · exact ⟨fun reached => ⟨nofun, .nil, reached⟩, fun all => all.2.2⟩
      · nofun
  | cons round rounds ih =>
      obtain ⟨layout, layouts, rfl⟩ := List.exists_cons_of_length_eq_add_one same.symm
      have same : rounds.length = layouts.length := Nat.succ.inj same
      rw [validateRoundLayouts, except_bind_eq_ok]
      constructor
      · rintro ⟨_, claimIn, rest⟩
        obtain ⟨_, claimOut, rest⟩ := except_bind_eq_ok.mp rest
        obtain ⟨_, coefficients, rest⟩ := except_bind_eq_ok.mp rest
        split_ifs at rest with empty degree link
        obtain ⟨allocated, degrees, linked⟩ := (ih same).mp rest
        refine ⟨List.forall_mem_cons.mpr ⟨⟨validateVariable_eq_ok.mp claimIn, validateVariable_eq_ok.mp claimOut,
          fun v member => validateVariable_eq_ok.mp (forM_eq_ok.mp coefficients v member), ?_⟩, allocated⟩,
          .cons (not_not.mp degree) degrees, not_not.mp link, linked⟩
        rwa [List.isEmpty_iff] at empty
      · rintro ⟨allocated, degrees, link, linked⟩
        obtain ⟨first, allocated⟩ := List.forall_mem_cons.mp allocated
        obtain ⟨degree, degrees⟩ := List.forall₂_cons.mp degrees
        refine ⟨(), validateVariable_eq_ok.mpr first.claimIn, except_bind_eq_ok.mpr ⟨(),
          validateVariable_eq_ok.mpr first.claimOut, except_bind_eq_ok.mpr ⟨(), forM_eq_ok.mpr fun v member =>
            validateVariable_eq_ok.mpr (first.coefficients v member), ?_⟩⟩⟩
        rw [if_neg (by rw [List.isEmpty_iff]; exact first.nonempty), if_neg (not_not_intro degree),
          if_neg (not_not_intro link)]
        exact (ih same).mpr ⟨allocated, degrees, linked⟩

/-- What the validation checks. -/
structure LayoutValid (numVars : ℕ) (statement : SumcheckStatement) (rounds : List (VerifiedCommittedRound F Com))
    (layout : SumcheckR1csLayout) : Prop where
  count : statement.numVars = rounds.length
  bound : ∀ round ∈ rounds, round.degree ≤ statement.degree
  inputClaim : layout.inputClaim.index < numVars
  outputClaim : layout.outputClaim.index < numVars
  allocated : ∀ round ∈ layout.rounds, RoundAllocated numVars round
  degrees : DegreesMatch layout.rounds rounds
  linked : ClaimsLinked layout.inputClaim layout.rounds layout.outputClaim

omit [Field F] [DecidableEq F] in
theorem validateLayout_eq_ok {numVars : ℕ} {statement : SumcheckStatement}
    {rounds : List (VerifiedCommittedRound F Com)} {layout : SumcheckR1csLayout} :
    validateLayout numVars statement rounds layout = .ok () ↔ LayoutValid numVars statement rounds layout := by
  rw [validateLayout, except_bind_eq_ok]
  constructor
  · rintro ⟨_, counted, rest⟩
    obtain ⟨_, input, rest⟩ := except_bind_eq_ok.mp rest
    obtain ⟨_, output, rest⟩ := except_bind_eq_ok.mp rest
    split_ifs at rest with same
    obtain ⟨last, reached, rest⟩ := except_bind_eq_ok.mp rest
    split_ifs at rest with link
    obtain ⟨count, bound⟩ := validateRoundsStatement_eq_ok.mp counted
    obtain ⟨allocated, degrees, linked⟩ := (validateRoundLayouts_eq_ok (not_not.mp same)).mp reached
    exact ⟨count, bound, validateVariable_eq_ok.mp input, validateVariable_eq_ok.mp output, allocated, degrees,
      not_not.mp link ▸ linked⟩
  · rintro ⟨count, bound, input, output, allocated, degrees, linked⟩
    refine ⟨(), validateRoundsStatement_eq_ok.mpr ⟨count, bound⟩, except_bind_eq_ok.mpr ⟨(),
      validateVariable_eq_ok.mpr input, except_bind_eq_ok.mpr ⟨(), validateVariable_eq_ok.mpr output, ?_⟩⟩⟩
    have same := degrees.length_eq.symm
    rw [if_neg (not_not_intro same)]
    refine except_bind_eq_ok.mpr ⟨_, (validateRoundLayouts_eq_ok same).mpr ⟨allocated, degrees, linked⟩, ?_⟩
    rw [if_neg (not_not_intro rfl)]

/-! ## The clear verifier -/

variable {T : Type} [Transcript T F]

/-- The challenges that a transcript draws for the rounds. -/
def drawnChallenges : List (ClearRound F) → T → List F
  | [], _ => []
  | round :: rounds, t =>
      let (r, t) := Transcript.challenge (round.appendToTranscript t)
      r :: drawnChallenges rounds t

omit [Field F] [DecidableEq F] in
theorem degree_clearRound (layout : SumcheckR1csRoundLayout) (z : ℕ → F) :
    (layout.clearRound z).degree = layout.degree := by
  rw [SumcheckR1csRoundLayout.clearRound, ClearRound.degree, UnivariatePoly.degree, SumcheckR1csRoundLayout.degree,
    List.length_map]
  split_ifs with empty
  · rw [List.isEmpty_iff, List.map_eq_nil_iff] at empty
    rw [empty]
    rfl
  · rfl

/-- The verifier's check of a round. -/
theorem checkRoundSum_clearRound {domain : SumcheckDomain} {index : ℕ} {layout : SumcheckR1csRoundLayout}
    (nonempty : layout.coefficients ≠ []) {z : ℕ → F} :
    domain.checkRoundSum index (z layout.claimIn.index) (layout.clearRound z) = .ok () ↔
      ∃ weights, domain.roundSumCoefficients (F := F) layout.degree = .ok weights ∧
        weights.length = layout.coefficients.length ∧
        (layout.clearRound z).coefficientLinearCombination weights = z layout.claimIn.index := by
  have size : layout.degree + 1 = layout.coefficients.length :=
    Nat.succ_pred_eq_of_pos (List.length_pos_iff.mpr nonempty)
  rw [SumcheckDomain.checkRoundSum, except_bind_eq_ok]
  constructor
  · rintro ⟨_, -, rest⟩
    obtain ⟨weights, found, rest⟩ := except_bind_eq_ok.mp rest
    rw [degree_clearRound] at found
    rw [degree_clearRound] at rest
    simp only at rest
    split_ifs at rest with count sum
    exact ⟨weights, found, (not_not.mp count).trans size, not_not.mp sum⟩
  · rintro ⟨weights, found, count, sum⟩
    have formed : (layout.clearRound z).checkRoundWellFormed index = .ok () := rfl
    rw [← degree_clearRound layout z] at found size
    refine ⟨(), formed, except_bind_eq_ok.mpr ⟨weights, found, ?_⟩⟩
    rw [if_neg (not_not_intro (count.trans size.symm)), if_neg (not_not_intro sum)]

/-- Each next claim is the value of the polynomial. -/
def ClaimsEvaluate (z : ℕ → F) (layouts : List SumcheckR1csRoundLayout)
    (rounds : List (VerifiedCommittedRound F Com)) : Prop :=
  List.Forall₂ (fun layout (round : VerifiedCommittedRound F Com) =>
    (layout.clearRound z).evaluate round.challenge = z layout.claimOut.index) layouts rounds

/-- The rounds hold when the verifier accepts them and the claims are its running sums. -/
theorem roundsHold_iff (claim : SumcheckClaim F) {domain : SumcheckDomain} (index : ℕ) {first last : Variable}
    {layouts : List SumcheckR1csRoundLayout} {rounds : List (VerifiedCommittedRound F Com)} {numVars : ℕ}
    (degrees : DegreesMatch layouts rounds) (bound : ∀ round ∈ rounds, round.degree ≤ claim.degree)
    (allocated : ∀ layout ∈ layouts, RoundAllocated numVars layout) (linked : ClaimsLinked first layouts last)
    {z : ℕ → F} {t : T}
    (drawn : drawnChallenges (layouts.map fun layout => layout.clearRound z) t = rounds.map fun round => round.challenge) :
    List.Forall₂ (fun layout round => RoundHolds domain layout round.challenge z) layouts rounds ↔
      (∃ t', verifyRounds claim domain index (z first.index) (layouts.map fun layout => layout.clearRound z) t =
        .ok (rounds.map fun round => round.challenge, z last.index, t')) ∧ ClaimsEvaluate z layouts rounds := by
  induction degrees generalizing index first t with
  | nil =>
      obtain rfl := linked
      exact ⟨fun _ => ⟨⟨t, rfl⟩, .nil⟩, fun _ => .nil⟩
  | @cons layout round layouts rounds degree _ ih =>
      obtain ⟨rfl, linked⟩ := linked
      obtain ⟨here, allocated⟩ := List.forall_mem_cons.mp allocated
      obtain ⟨inside, bound⟩ := List.forall_mem_cons.mp bound
      obtain ⟨⟨r, after⟩, drawing⟩ : ∃ step, Transcript.challenge ((layout.clearRound z).appendToTranscript t) = step :=
        ⟨_, rfl⟩
      rw [List.map_cons, List.map_cons, drawnChallenges, drawing] at drawn
      obtain ⟨same, later⟩ : r = round.challenge ∧ drawnChallenges (layouts.map fun layout => layout.clearRound z) after =
        rounds.map fun round => round.challenge := List.cons.inj drawn
      subst same
      have rest := ih (index + 1) bound allocated linked later
      have small : ¬ claim.degree < (layout.clearRound z).degree := by
        rw [degree_clearRound, ← degree]
        exact Nat.not_lt.mpr inside
      rw [List.forall₂_cons, rest]
      simp only [ClaimsEvaluate]
      rw [List.forall₂_cons, List.map_cons, List.map_cons, verifyRounds,
        if_neg small, drawing]
      constructor
      · rintro ⟨⟨sum, next⟩, ⟨t', accepted⟩, evaluated⟩
        refine ⟨⟨t', except_bind_eq_ok.mpr ⟨(), (checkRoundSum_clearRound here.nonempty).mpr sum, ?_⟩⟩, next, evaluated⟩
        simp only [next]
        exact except_bind_eq_ok.mpr ⟨_, accepted, rfl⟩
      · rintro ⟨⟨t', accepted⟩, next, evaluated⟩
        obtain ⟨_, sum, accepted⟩ := except_bind_eq_ok.mp accepted
        simp only [next] at accepted
        obtain ⟨⟨challenges, value, final⟩, reached, shown⟩ := except_bind_eq_ok.mp accepted
        obtain ⟨tail, value', final'⟩ : challenges = rounds.map (fun round => round.challenge) ∧
            value = z last.index ∧ final = t' := by
          have shown := Except.ok.inj shown
          simp only [Prod.mk.injEq, List.cons.injEq] at shown
          exact ⟨shown.1.2, shown.2.1, shown.2.2⟩
        subst tail value' final'
        exact ⟨⟨(checkRoundSum_clearRound here.nonempty).mp sum, next⟩, ⟨_, reached⟩, evaluated⟩

/-! ## Allocation -/

omit [DecidableEq F] in
theorem allocUnknowns_eq (builder : R1csBuilder F) (count : ℕ) :
    (allocUnknowns builder count).1 = (List.range' builder.numVars count).map Variable.mk ∧
      R1csBuilder.Allocates builder (allocUnknowns builder count).2 (List.replicate count none) := by
  have both := R1csBuilder.allocAll_eq builder (List.replicate count none)
  rwa [List.length_replicate] at both

omit [DecidableEq F] in
theorem allocateRounds_eq {builder builder' : R1csBuilder F} {first last : Variable}
    {rounds : List (VerifiedCommittedRound F Com)} {layouts : List SumcheckR1csRoundLayout}
    (allocated : allocateRounds builder first rounds = (layouts, last, builder'))
    (known : first.index < builder.numVars) :
    (∃ values, R1csBuilder.Allocates builder builder' values) ∧ last.index < builder'.numVars ∧
      (∀ layout ∈ layouts, RoundAllocated builder'.numVars layout) ∧ DegreesMatch layouts rounds ∧
      ClaimsLinked first layouts last := by
  induction rounds generalizing builder first layouts with
  | nil =>
      simp only [allocateRounds, Prod.mk.injEq] at allocated
      obtain ⟨rfl, rfl, rfl⟩ := allocated
      exact ⟨⟨[], .refl builder⟩, known, nofun, .nil, rfl⟩
  | cons round rounds ih =>
      obtain ⟨named, run⟩ := allocUnknowns_eq builder (round.degree + 1)
      rw [allocateRounds] at allocated
      generalize allocUnknowns builder (round.degree + 1) = middle at allocated named run
      obtain ⟨coefficients, middle⟩ := middle
      simp only at allocated named run
      generalize reached : allocateRounds middle.allocUnknown.2 middle.allocUnknown.1 rounds = tail at allocated
      obtain ⟨layouts', last', final⟩ := tail
      simp only [Prod.mk.injEq] at allocated
      obtain ⟨rfl, rfl, rfl⟩ := allocated
      have out : middle.allocUnknown.1.index < middle.allocUnknown.2.numVars := by
        rw [(R1csBuilder.allocates_allocUnknown middle).numVars]
        exact Nat.lt_succ_self _
      obtain ⟨⟨values, rest⟩, inside, valid, degrees, linked⟩ := ih reached out
      have run' := (run.trans (R1csBuilder.allocates_allocUnknown middle)).trans rest
      have size := (run.trans (R1csBuilder.allocates_allocUnknown middle)).numVars
      have grown := rest.numVars
      simp only [List.length_append, List.length_replicate, List.length_singleton] at size
      have before : first.index < final.numVars := by omega
      have after : middle.allocUnknown.1.index < final.numVars := by omega
      refine ⟨⟨_, run'⟩, inside, List.forall_mem_cons.mpr ⟨⟨before, after, fun v member => ?_, ?_⟩, valid⟩,
        .cons ?_ degrees, rfl, linked⟩
      · change v ∈ coefficients at member
        rw [named] at member
        obtain ⟨index, within, rfl⟩ := List.mem_map.mp member
        have within := List.mem_range'_1.mp within
        change index < _
        omega
      · rw [named]
        exact List.cons_ne_nil _ _
      · rw [SumcheckR1csRoundLayout.degree, named, List.length_map, List.length_range']
        rfl

omit [DecidableEq F] in
/-- An allocated layout is valid. -/
theorem allocateSumcheckR1csLayout_eq {builder builder' : R1csBuilder F} {statement : SumcheckStatement}
    {rounds : List (VerifiedCommittedRound F Com)} {layout : SumcheckR1csLayout}
    (allocated : allocateSumcheckR1csLayout builder statement rounds = .ok (layout, builder')) :
    (∃ values, R1csBuilder.Allocates builder builder' values) ∧
      LayoutValid builder'.numVars statement rounds layout := by
  obtain ⟨_, checked, allocated⟩ := except_bind_eq_ok.mp allocated
  obtain ⟨count, bound⟩ := validateRoundsStatement_eq_ok.mp checked
  have input : builder.allocUnknown.1.index < builder.allocUnknown.2.numVars := by
    rw [(R1csBuilder.allocates_allocUnknown builder).numVars]
    exact Nat.lt_succ_self _
  obtain ⟨⟨layouts, last, final⟩, reached⟩ :
    ∃ tail, allocateRounds builder.allocUnknown.2 builder.allocUnknown.1 rounds = tail := ⟨_, rfl⟩
  simp only [reached] at allocated
  obtain ⟨rfl, rfl⟩ := Prod.mk.inj (Except.ok.inj allocated)
  obtain ⟨⟨values, rest⟩, inside, valid, degrees, linked⟩ := allocateRounds_eq reached input
  have grown := rest.numVars
  have first : builder.allocUnknown.1.index < final.numVars := by omega
  exact ⟨⟨_, (R1csBuilder.allocates_allocUnknown builder).trans rest⟩, count, bound, first, inside, valid, degrees, linked⟩

/-! ## Success -/

omit [DecidableEq F] in
theorem length_addPowers {domainSize power : ℕ} {t pow : ℤ} {sums out : List ℤ}
    (added : addPowers domainSize t power pow sums = .ok out) : out.length = sums.length :=
  (dot_addPowers (F := ℚ) added (List.length_replicate (n := sums.length) (a := 0))).1

theorem length_addPoints {domainSize : ℕ} {start : ℤ} {offsets : List ℕ} {sums out : List ℤ}
    (added : addPoints domainSize start offsets sums = .ok out) : out.length = sums.length := by
  induction offsets generalizing sums with
  | nil =>
      cases added
      rfl
  | cons offset offsets ih =>
      rw [addPoints] at added
      split at added
      · cases added
      · obtain ⟨next, first, added⟩ := except_bind_eq_ok.mp added
        rw [ih added, length_addPowers first]

omit [DecidableEq F] in
/-- There is a weight for each coefficient. -/
theorem length_roundSumCoefficients {domain : SumcheckDomain} {degree : ℕ} {weights : List F}
    (found : domain.roundSumCoefficients degree = .ok weights) : weights.length = degree + 1 := by
  cases domain with
  | booleanHypercube =>
      obtain rfl := Except.ok.inj found
      rw [List.length_cons, List.length_replicate]
  | centeredInteger domainSize =>
      simp only [SumcheckDomain.roundSumCoefficients] at found
      split at found
      · cases found
      next sums reached =>
        obtain rfl := Except.ok.inj found
        obtain ⟨start, -, reached⟩ := except_bind_eq_ok.mp reached
        rw [if_neg (Nat.succ_ne_zero degree)] at reached
        rw [List.length_map, length_addPoints reached, List.length_replicate]

theorem knownVariables_roundSum {builder : R1csBuilder F} {index : ℕ} {round : SumcheckR1csRoundLayout}
    {weights : List F} {lc : LinearCombination F} (found : roundSumLc index round weights = .ok lc)
    (known : ∀ v ∈ round.coefficients, v.index < builder.numVars) : builder.knownVariables lc := by
  have gathered (terms : List (Variable × F)) (sum : LinearCombination F)
      (known : ∀ term ∈ terms, term.1.index < builder.numVars) (start : builder.knownVariables sum) :
      builder.knownVariables (terms.foldl (fun sum (v, coefficient) =>
        sum.add ((LinearCombination.ofVariable v).scale coefficient)) sum) := by
    induction terms generalizing sum with
    | nil => exact start
    | cons term terms ih =>
        obtain ⟨here, known⟩ := List.forall_mem_cons.mp known
        exact ih _ known (R1csBuilder.knownVariables_add start
          (R1csBuilder.knownVariables_scale (R1csBuilder.knownVariables_ofVariable.mpr here) term.2))
  rw [roundSumLc] at found
  split_ifs at found
  obtain rfl := Except.ok.inj found
  exact gathered _ _ (fun term member => known _ (List.of_mem_zip member).1) rfl

theorem knownVariables_polynomialEval {builder : R1csBuilder F} {coefficients : List Variable}
    (known : ∀ v ∈ coefficients, v.index < builder.numVars) (point : F) :
    builder.knownVariables (polynomialEvalLc coefficients point) := by
  have gathered (vs : List Variable) (result : LinearCombination F) (power : F)
      (known : ∀ v ∈ vs, v.index < builder.numVars) (start : builder.knownVariables result) :
      builder.knownVariables (vs.foldl (fun (result, power) v =>
        (result.add ((LinearCombination.ofVariable v).scale power), power * point)) (result, power)).1 := by
    induction vs generalizing result power with
    | nil => exact start
    | cons v vs ih =>
        obtain ⟨here, known⟩ := List.forall_mem_cons.mp known
        exact ih _ _ known (R1csBuilder.knownVariables_add start
          (R1csBuilder.knownVariables_scale (R1csBuilder.knownVariables_ofVariable.mpr here) power))
  exact gathered coefficients .zero 1 known rfl

/-- The constraints of an allocated round can be appended. -/
theorem appendRoundConstraints_isOk {builder : R1csBuilder F} {round : SumcheckR1csRoundLayout} {weights : List F}
    (allocated : RoundAllocated builder.numVars round) (count : weights.length = round.coefficients.length)
    (index : ℕ) (challenge : F) :
    ∃ builder', appendRoundConstraints builder index round challenge weights = .ok builder' := by
  have positive : 0 < builder.numVars := Nat.zero_lt_of_lt allocated.claimIn
  obtain ⟨lc, found⟩ : ∃ lc, roundSumLc index round weights = .ok lc := ⟨_, if_neg (not_not_intro count)⟩
  obtain ⟨middle, sum⟩ := R1csBuilder.assertEqual_isSome positive
    (knownVariables_roundSum found allocated.coefficients)
    (R1csBuilder.knownVariables_ofVariable.mpr allocated.claimIn)
  have same : middle.numVars = builder.numVars := congrArg List.length (R1csBuilder.assertEqual_eq sum).1
  have positive' : 0 < middle.numVars := same ▸ positive
  obtain ⟨builder', next⟩ := R1csBuilder.assertEqual_isSome positive'
    (knownVariables_polynomialEval (same ▸ allocated.coefficients) challenge)
    (R1csBuilder.knownVariables_ofVariable.mpr (same ▸ allocated.claimOut))
  refine ⟨builder', ?_⟩
  rw [appendRoundConstraints]
  refine except_bind_eq_ok.mpr ⟨lc, found, ?_⟩
  simp only [sum, next]
  rfl

/-- The domain has weights for a degree. -/
def WeightsAvailable (domain : SumcheckDomain) (degree : ℕ) : Prop :=
  ∃ weights, domain.roundSumCoefficients (F := F) degree = .ok weights

/-- The constraints of allocated rounds can be appended exactly when the domain has its weights. -/
theorem appendRounds_isOk {domain : SumcheckDomain} (index : ℕ) {builder : R1csBuilder F}
    {layouts : List SumcheckR1csRoundLayout} {rounds : List (VerifiedCommittedRound F Com)}
    (degrees : DegreesMatch layouts rounds) (allocated : ∀ layout ∈ layouts, RoundAllocated builder.numVars layout) :
    (∃ builder', appendRounds domain index builder layouts rounds = .ok builder') ↔
      ∀ round ∈ rounds, WeightsAvailable (F := F) domain round.degree := by
  induction degrees generalizing index builder with
  | nil => exact ⟨fun _ => nofun, fun _ => ⟨builder, rfl⟩⟩
  | @cons layout round layouts rounds degree _ ih =>
      obtain ⟨here, allocated⟩ := List.forall_mem_cons.mp allocated
      rw [List.forall_mem_cons, appendRounds]
      split
      next source missing =>
        refine ⟨nofun, fun available => ?_⟩
        obtain ⟨weights, found⟩ := available.1
        cases missing.symm.trans found
      next weights found =>
        have count : weights.length = layout.coefficients.length := by
          rw [length_roundSumCoefficients found, degree]
          exact Nat.succ_pred_eq_of_pos (List.length_pos_iff.mpr here.nonempty)
        obtain ⟨middle, appended⟩ := appendRoundConstraints_isOk here count index round.challenge
        have same : middle.numVars = builder.numVars := congrArg List.length (appendRoundConstraints_eq appended).1
        have moved : ∀ layout ∈ layouts, RoundAllocated middle.numVars layout := same ▸ allocated
        have rest := ih (index + 1) moved
        rw [← rest]
        constructor
        · rintro ⟨builder', reached⟩
          obtain ⟨next, first, reached⟩ := except_bind_eq_ok.mp reached
          obtain rfl := Except.ok.inj (appended.symm.trans first)
          exact ⟨⟨weights, found⟩, builder', reached⟩
        · rintro ⟨-, builder', reached⟩
          exact ⟨builder', except_bind_eq_ok.mpr ⟨middle, appended, reached⟩⟩

/-! ## Agreement with the clear verifier -/

/-- The clear verifier's run on the assigned coefficients: it draws the challenges, ends with the assigned
output claim, and the claims between the rounds are its running sums. -/
structure ClearlyAccepted (statement : SumcheckStatement) (rounds : List (VerifiedCommittedRound F Com))
    (layout : SumcheckR1csLayout) (domain : SumcheckDomain) (z : ℕ → F) (t : T) : Prop where
  verified : ∃ t', verify ⟨statement.numVars, statement.degree, z layout.inputClaim.index⟩
    (layout.rounds.map fun round => round.clearRound z) domain t =
      .ok (⟨rounds.map fun round => round.challenge, z layout.outputClaim.index⟩, t')
  claims : ClaimsEvaluate z layout.rounds rounds

theorem clearlyAccepted_iff {statement : SumcheckStatement} {rounds : List (VerifiedCommittedRound F Com)}
    {layout : SumcheckR1csLayout} {numVars : ℕ} (valid : LayoutValid numVars statement rounds layout)
    {domain : SumcheckDomain} {z : ℕ → F} {t : T}
    (drawn : drawnChallenges (layout.rounds.map fun round => round.clearRound z) t =
      rounds.map fun round => round.challenge) :
    List.Forall₂ (fun layout round => RoundHolds domain layout round.challenge z) layout.rounds rounds ↔
      ClearlyAccepted statement rounds layout domain z t := by
  rw [roundsHold_iff ⟨statement.numVars, statement.degree, z layout.inputClaim.index⟩ 0
    valid.degrees valid.bound valid.allocated valid.linked drawn]
  have count : (layout.rounds.map fun round => round.clearRound z).length = statement.numVars := by
    rw [List.length_map, valid.count, valid.degrees.length_eq]
  have verified (t' : T) :
      verify ⟨statement.numVars, statement.degree, z layout.inputClaim.index⟩
        (layout.rounds.map fun round => round.clearRound z) domain t =
          .ok (⟨rounds.map fun round => round.challenge, z layout.outputClaim.index⟩, t') ↔
      verifyRounds ⟨statement.numVars, statement.degree, z layout.inputClaim.index⟩ domain 0 (z layout.inputClaim.index)
        (layout.rounds.map fun round => round.clearRound z) t =
          .ok (rounds.map fun round => round.challenge, z layout.outputClaim.index, t') := by
    rw [verify, if_neg (not_not_intro count), except_bind_eq_ok]
    constructor
    · rintro ⟨⟨challenges, value, final⟩, reached, shown⟩
      have shown := Except.ok.inj shown
      simp only [Prod.mk.injEq, EvaluationClaim.mk.injEq] at shown
      obtain ⟨⟨rfl, rfl⟩, rfl⟩ := shown
      exact reached
    · exact fun reached => ⟨_, reached, rfl⟩
  constructor
  · rintro ⟨⟨t', reached⟩, claims⟩
    exact ⟨⟨t', (verified t').mpr reached⟩, claims⟩
  · rintro ⟨⟨t', reached⟩, claims⟩
    exact ⟨⟨t', (verified t').mp reached⟩, claims⟩

end

/-- The constraints and the clear verifier make the same checks. -/
structure ConstraintsAgree (F Com : Type) [Field F] [DecidableEq F] : Prop where
  /-- An allocated layout is valid, and adds no constraint. -/
  allocated : ∀ (builder builder' : R1csBuilder F) statement (rounds : List (VerifiedCommittedRound F Com)) layout,
    allocateSumcheckR1csLayout builder statement rounds = .ok (layout, builder') →
      LayoutValid builder'.numVars statement rounds layout ∧ ∀ z, builder'.Satisfies z ↔ builder.Satisfies z
  /-- Nothing but an invalid layout and an unusable domain keeps the constraints from being appended. -/
  appended : ∀ (builder : R1csBuilder F) statement (rounds : List (VerifiedCommittedRound F Com)) layout domain,
    (∃ builder', appendSumcheckR1csConstraintsForDomain builder statement rounds layout domain = .ok builder') ↔
      LayoutValid builder.numVars statement rounds layout ∧
        ∀ round ∈ rounds, WeightsAvailable (F := F) domain round.degree
  /-- The appended constraints hold exactly when the clear verifier accepts. -/
  agrees : ∀ (builder builder' : R1csBuilder F) statement (rounds : List (VerifiedCommittedRound F Com)) layout domain,
    appendSumcheckR1csConstraintsForDomain builder statement rounds layout domain = .ok builder' →
    ∀ (T : Type) [Transcript T F] (t : T) (z : ℕ → F), z 0 = 1 →
      drawnChallenges (layout.rounds.map fun round => round.clearRound z) t =
        (rounds.map fun round => round.challenge) →
      (builder'.Satisfies z ↔ builder.Satisfies z ∧ ClearlyAccepted statement rounds layout domain z t)

theorem constraintsAgree {F : Type} [Field F] [DecidableEq F] (Com : Type) : ConstraintsAgree F Com where
  allocated _ _ _ _ _ reached := by
    obtain ⟨⟨_, run⟩, valid⟩ := allocateSumcheckR1csLayout_eq reached
    exact ⟨valid, run.satisfies⟩
  appended builder statement rounds layout domain := by
    rw [appendSumcheckR1csConstraintsForDomain]
    constructor
    · rintro ⟨builder', reached⟩
      obtain ⟨_, checked, reached⟩ := except_bind_eq_ok.mp reached
      have valid := validateLayout_eq_ok.mp checked
      exact ⟨valid, (appendRounds_isOk 0 valid.degrees valid.allocated).mp ⟨builder', reached⟩⟩
    · rintro ⟨valid, available⟩
      obtain ⟨builder', reached⟩ := (appendRounds_isOk 0 valid.degrees valid.allocated).mpr available
      exact ⟨builder', except_bind_eq_ok.mpr ⟨(), validateLayout_eq_ok.mpr valid, reached⟩⟩
  agrees builder builder' statement rounds layout domain reached T _ t z one drawn := by
    obtain ⟨_, checked, reached⟩ := except_bind_eq_ok.mp reached
    have valid := validateLayout_eq_ok.mp checked
    rw [(appendRounds_eq valid.degrees reached).2 z one, clearlyAccepted_iff valid drawn]

end JoltWasm
