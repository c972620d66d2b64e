import JoltWasm.Blindfold.Layout

/-!
# The constraints of committed stages

For each stage the builder asserts the input expression, the rounds and the output expression, and for each final
opening the combination of its openings.  The constraints hold, for some values of the auxiliary products, exactly
when the stages' checks do.
-/

namespace JoltWasm.Blindfold

open R1cs Lib
open R1csBuilder (Emits AgreeBelow)

section

variable {F O Com P Ch : Type} [Field F]

/-! ## Sources -/

section Sources

variable [DecidableEq O] [DecidableEq P] [DecidableEq Ch]

/-- The table and the openings inserted into it. -/
abbrev Inserted (F O P Ch : Type) := ClaimSourceTable F O P Ch × List (O × Variable)

def insertOpening (inserted : Inserted F O P Ch) (id : O) (v : Variable) : Except BlindFoldError (Inserted F O P Ch) :=
  match inserted.1.insertOpening id v with
  | some table => .ok (table, inserted.2 ++ [(id, v)])
  | none => .error .panicked

def insertOpenings (inserted : Inserted F O P Ch) : List (O × Variable) → Except BlindFoldError (Inserted F O P Ch)
  | [] => .ok inserted
  | (id, v) :: rest => do
      let inserted ← insertOpening inserted id v
      insertOpenings inserted rest

def insertAliases (inserted : Inserted F O P Ch) : List (OpeningAlias O) → Except BlindFoldError (Inserted F O P Ch)
  | [] => .ok inserted
  | entry :: rest =>
      match lookupSource inserted.2 entry.source with
      | none => .error .missingOpeningAliasSource
      | some v => do
          let inserted ← insertOpening inserted entry.aliasId v
          insertAliases inserted rest

/-- The variables of the openings of a stage. -/
def openingVariables (stage : BlindFoldStage F O Com P Ch) (layout : StageLayout) : List Variable :=
  layout.outputClaimRows.flatMap fun row => row.vars.take stage.outputClaimRows.rowLen

def insertOutputClaimSources (inserted : Inserted F O P Ch) :
    List (BlindFoldStage F O Com P Ch) → List StageLayout → Except BlindFoldError (Inserted F O P Ch)
  | stage :: stages, layout :: layouts => do
      let inserted ← insertOpenings inserted (stage.outputClaimRows.openingIds.zip (openingVariables stage layout))
      let inserted ← insertAliases inserted stage.outputClaimRows.openingAliases
      insertOutputClaimSources inserted stages layouts
  | _, _ => .ok inserted

def insertPublics (table : ClaimSourceTable F O P Ch) : List (P × F) → Except BlindFoldError (ClaimSourceTable F O P Ch)
  | [] => .ok table
  | (id, value) :: rest =>
      match table.insertPublic id value with
      | some table => insertPublics table rest
      | none => .error .panicked

def insertChallenges (table : ClaimSourceTable F O P Ch) :
    List (Ch × F) → Except BlindFoldError (ClaimSourceTable F O P Ch)
  | [] => .ok table
  | (id, value) :: rest =>
      match table.insertChallenge id value with
      | some table => insertChallenges table rest
      | none => .error .panicked

end Sources

/-! ## Constraints -/

variable [DecidableEq F] [DecidableEq O] [DecidableEq P] [DecidableEq Ch]

def appendStages (table : ClaimSourceTable F O P Ch) : ℕ → R1csBuilder F → List (BlindFoldStage F O Com P Ch) →
    List StageLayout → Except BlindFoldError (R1csBuilder F)
  | stageIndex, builder, stage :: stages, layout :: layouts => do
      let builder ← (assertClaimExprEq builder stage.inputClaim layout.sumcheck.inputClaim table).mapError .claim
      let builder ← (appendSumcheckR1csConstraintsForDomain builder stage.statement stage.rounds layout.sumcheck
        stage.domain).mapError (.sumcheck stageIndex)
      let builder ← (assertClaimExprEq builder stage.outputClaim layout.sumcheck.outputClaim table).mapError .claim
      appendStages table (stageIndex + 1) builder stages layouts
  | _, builder, _, _ => .ok builder

def combineOpenings (table : ClaimSourceTable F O P Ch) (combined : LinearCombination F) :
    List (O × F) → Except ClaimLoweringError (LinearCombination F)
  | [] => .ok combined
  | (id, coefficient) :: rest => do
      let source ← table.opening id
      combineOpenings table (combined.add (source.intoLinearCombination.scale coefficient)) rest

def appendFinalOpenings (table : ClaimSourceTable F O P Ch) (builder : R1csBuilder F) :
    List (FinalOpeningBinding F O Com) → List FinalOpeningLayout → Except BlindFoldError (R1csBuilder F)
  | binding :: bindings, layout :: layouts =>
      match layout.evaluation with
      | none => appendFinalOpenings table builder bindings layouts
      | some evaluation => do
          let combined ← (combineOpenings table .zero (binding.openingIds.zip binding.coefficients)).mapError .claim
          match builder.assertEqual combined (.ofVariable evaluation) with
          | none => .error .panicked
          | some builder => appendFinalOpenings table builder bindings layouts
  | _, _ => .ok builder

def BlindFoldStatement.append (statement : BlindFoldStatement F O Com P Ch) (builder : R1csBuilder F) (layout : Layout)
    (table : ClaimSourceTable F O P Ch) : Except BlindFoldError (R1csBuilder F) :=
  if statement.stages.length ≠ layout.stages.length then
    .error (.layoutStageCountMismatch statement.stages.length layout.stages.length)
  else if statement.finalOpenings.length ≠ layout.finalOpenings.length then
    .error (.layoutStageCountMismatch statement.finalOpenings.length layout.finalOpenings.length)
  else do
    let builder ← appendStages table 0 builder statement.stages layout.stages
    appendFinalOpenings table builder statement.finalOpenings layout.finalOpenings

def BlindFoldStatement.buildWithSources (statement : BlindFoldStatement F O Com P Ch) (builder : R1csBuilder F)
    (publics : List (P × F)) (challenges : List (Ch × F)) : Except BlindFoldError (Layout × R1csBuilder F) := do
  let (layout, builder) ← statement.allocateLayout builder
  let (table, _) ← insertOutputClaimSources (.new, []) statement.stages layout.stages
  let table ← insertPublics table publics
  let table ← insertChallenges table challenges
  let builder ← statement.append builder layout table
  return (layout, builder)

/-! ## What the stages check -/

/-- The claims of a stage are the values of its expressions, and its rounds hold. -/
structure StageHolds (stage : BlindFoldStage F O Com P Ch) (layout : StageLayout) (values : SourceValues F O P Ch)
    (z : ℕ → F) : Prop where
  input : z layout.sumcheck.inputClaim.index = stage.inputClaim.evaluate values
  rounds : List.Forall₂ (fun layout round => RoundHolds stage.domain layout round.challenge z)
    layout.sumcheck.rounds stage.rounds
  output : z layout.sumcheck.outputClaim.index = stage.outputClaim.evaluate values

/-- The evaluation is the combination of the openings. -/
def FinalOpeningHolds (binding : FinalOpeningBinding F O Com) (layout : FinalOpeningLayout)
    (values : SourceValues F O P Ch) (z : ℕ → F) : Prop :=
  ∀ evaluation, layout.evaluation = some evaluation → z evaluation.index =
    ((binding.openingIds.zip binding.coefficients).map fun entry => entry.2 * values.opening entry.1).sum

omit [DecidableEq O] [DecidableEq P] [DecidableEq Ch] in
theorem mapError_eq_ok {ε ε' α : Type} {x : Except ε α} {f : ε → ε'} {a : α} : x.mapError f = .ok a ↔ x = .ok a := by
  cases x <;> simp [Except.mapError]

omit [DecidableEq F] [DecidableEq O] [DecidableEq P] [DecidableEq Ch] in
/-- The checks of a round are about its variables. -/
theorem roundHolds_congr {count : ℕ} {layout : SumcheckR1csRoundLayout} (allocated : RoundAllocated count layout)
    {z z' : ℕ → F} (agree : AgreeBelow count z z') {domain : SumcheckDomain} {challenge : F}
    (holds : RoundHolds domain layout challenge z) : RoundHolds domain layout challenge z' := by
  have same : layout.clearRound z' = layout.clearRound z := by
    rw [SumcheckR1csRoundLayout.clearRound, SumcheckR1csRoundLayout.clearRound]
    refine congrArg (ClearRound.mk _ ⟨·⟩) (List.map_congr_left fun v member => ?_)
    exact agree _ (allocated.coefficients v member)
  obtain ⟨⟨weights, found, count, sum⟩, next⟩ := holds
  refine ⟨⟨weights, found, count, ?_⟩, ?_⟩
  · rw [same, sum, agree _ allocated.claimIn]
  · rw [same, next, agree _ allocated.claimOut]

omit [DecidableEq O] [DecidableEq P] [DecidableEq Ch] in
/-- The constraints of a valid sum-check emit its rounds. -/
theorem emits_appendSumcheck {builder builder' : R1csBuilder F} {statement : SumcheckStatement}
    {rounds : List (VerifiedCommittedRound F Com)} {layout : SumcheckR1csLayout} {domain : SumcheckDomain}
    (appended : appendSumcheckR1csConstraintsForDomain builder statement rounds layout domain = .ok builder') :
    Emits builder builder' fun z =>
      List.Forall₂ (fun layout round => RoundHolds domain layout round.challenge z) layout.rounds rounds := by
  obtain ⟨_, checked, appended⟩ := except_bind_eq_ok.mp appended
  obtain ⟨same, holds⟩ := appendRounds_eq (validateLayout_eq_ok.mp checked).degrees appended
  exact ⟨(congrArg List.length same).ge, fun z one => (holds z one).mp,
    fun z one satisfied held => ⟨z, fun _ _ => rfl, (holds z one).mpr ⟨satisfied, held⟩⟩⟩

/-- What an appended stage emits. -/
theorem appendStage_eq {table : ClaimSourceTable F O P Ch} {count : ℕ} (known : table.Known (· < count))
    {builder first second third : R1csBuilder F} (inside : count ≤ builder.numVars)
    {stage : BlindFoldStage F O Com P Ch} {layout : StageLayout}
    (valid : LayoutValid count stage.statement stage.rounds layout.sumcheck)
    (input : assertClaimExprEq builder stage.inputClaim layout.sumcheck.inputClaim table = .ok first)
    (rounds : appendSumcheckR1csConstraintsForDomain first stage.statement stage.rounds layout.sumcheck stage.domain =
      .ok second)
    (output : assertClaimExprEq second stage.outputClaim layout.sumcheck.outputClaim table = .ok third) :
    Emits builder third fun z => StageHolds stage layout (table.values z) z := by
  have before := assertClaimExprEq_eq known inside valid.inputClaim input
  have middle := emits_appendSumcheck rounds
  have after := assertClaimExprEq_eq known ((inside.trans before.grows).trans middle.grows) valid.outputClaim output
  refine ((before.trans middle fun z z' _ agree _ held => ?_).trans after fun z z' _ agree _ held => ?_).congr
    fun z _ _ => ⟨fun all => ⟨all.1.1, all.1.2, all.2⟩, fun all => ⟨⟨all.input, all.rounds⟩, all.output⟩⟩
  · refine List.forall₂_iff_zip.mpr ⟨held.length_eq, fun {layout round} member => ?_⟩
    exact roundHolds_congr (valid.allocated _ (List.of_mem_zip member).1) (agree.mono inside)
      ((List.forall₂_iff_zip.mp held).2 member)
  · rw [agree _ (valid.outputClaim.trans_le inside), ClaimSourceTable.values_congr known (agree.mono inside)]
    exact held

omit [DecidableEq F] in
/-- The checks of a stage are about its variables and the sources'. -/
theorem stageHolds_congr {table : ClaimSourceTable F O P Ch} {count : ℕ} (known : table.Known (· < count))
    {stage : BlindFoldStage F O Com P Ch} {layout : StageLayout}
    (valid : LayoutValid count stage.statement stage.rounds layout.sumcheck) {z z' : ℕ → F} (agree : AgreeBelow count z z')
    (holds : StageHolds stage layout (table.values z) z) : StageHolds stage layout (table.values z') z' where
  input := by rw [agree _ valid.inputClaim, ClaimSourceTable.values_congr known agree, holds.input]
  rounds := List.forall₂_iff_zip.mpr ⟨holds.rounds.length_eq, fun {layout round} member =>
    roundHolds_congr (valid.allocated _ (List.of_mem_zip member).1) agree
      ((List.forall₂_iff_zip.mp holds.rounds).2 member)⟩
  output := by rw [agree _ valid.outputClaim, ClaimSourceTable.values_congr known agree, holds.output]

/-- The expressions of a stage have their sources. -/
def StageResolved (table : ClaimSourceTable F O P Ch) (stage : BlindFoldStage F O Com P Ch) : Prop :=
  stage.inputClaim.Resolved table ∧ stage.outputClaim.Resolved table

theorem assertClaimExprEq_resolved {table : ClaimSourceTable F O P Ch} {builder builder' : R1csBuilder F}
    {expression : Expr F O P Ch} {expected : Variable}
    (asserted : assertClaimExprEq builder expression expected table = .ok builder') : expression.Resolved table := by
  obtain ⟨_, lowered, _⟩ := except_bind_eq_ok.mp asserted
  exact lowerClaimExpr_resolved lowered

/-- What the appended stages emit. -/
theorem appendStages_eq {table : ClaimSourceTable F O P Ch} {count : ℕ} (known : table.Known (· < count))
    {builder builder' : R1csBuilder F} (inside : count ≤ builder.numVars) {stageIndex : ℕ}
    {stages : List (BlindFoldStage F O Com P Ch)} {layouts : List StageLayout}
    (valid : List.Forall₂ (fun stage (layout : StageLayout) =>
      LayoutValid count stage.statement stage.rounds layout.sumcheck) stages layouts)
    (appended : appendStages table stageIndex builder stages layouts = .ok builder') :
    (∀ stage ∈ stages, StageResolved table stage) ∧ Emits builder builder' fun z =>
      List.Forall₂ (fun stage layout => StageHolds stage layout (table.values z) z) stages layouts := by
  induction valid generalizing builder stageIndex with
  | nil =>
      obtain rfl := Except.ok.inj appended
      exact ⟨nofun, (Emits.refl builder).congr fun _ _ _ => by simp⟩
  | @cons stage layout stages layouts here later ih =>
      obtain ⟨first, input, appended⟩ := except_bind_eq_ok.mp appended
      obtain ⟨second, rounds, appended⟩ := except_bind_eq_ok.mp appended
      obtain ⟨third, output, appended⟩ := except_bind_eq_ok.mp appended
      rw [mapError_eq_ok] at input rounds output
      have emits := appendStage_eq known inside here input rounds output
      obtain ⟨resolved, rest⟩ := ih (inside.trans emits.grows) appended
      refine ⟨List.forall_mem_cons.mpr ⟨⟨assertClaimExprEq_resolved input, assertClaimExprEq_resolved output⟩, resolved⟩,
        (emits.trans rest fun z z' _ agree _ held => ?_).congr fun z _ _ => by rw [List.forall₂_cons]⟩
      refine List.forall₂_iff_zip.mpr ⟨held.length_eq, fun {stage layout} member => ?_⟩
      exact stageHolds_congr known ((List.forall₂_iff_zip.mp later).2 member) (agree.mono inside)
        ((List.forall₂_iff_zip.mp held).2 member)

omit [DecidableEq F] in
theorem opening_eq {table : ClaimSourceTable F O P Ch} {count : ℕ} (known : table.Known (· < count)) {id : O}
    {source : SourceValue F} (found : table.opening id = .ok source) :
    source.Known (· < count) ∧ ∀ z, (table.values z).opening id = source.value z :=
  ClaimSourceTable.resolve_eq known (.opening id) found

omit [DecidableEq O] [DecidableEq P] [DecidableEq Ch] in
theorem value_intoLinearCombination {source : SourceValue F} {z : ℕ → F} (one : z 0 = 1) :
    source.intoLinearCombination.value z = source.value z := by
  cases source with
  | constant value => exact LinearCombination.value_constant one value
  | linearCombination lc => rfl

/-- The combination of the openings. -/
theorem combineOpenings_eq {table : ClaimSourceTable F O P Ch} {count : ℕ} (known : table.Known (· < count))
    {start combined : LinearCombination F} {entries : List (O × F)}
    (reached : combineOpenings table start entries = .ok combined) :
    (∀ entry ∈ entries, ∃ source, table.opening entry.1 = .ok source) ∧ ∀ z, z 0 = 1 → combined.value z =
      start.value z + (entries.map fun entry => entry.2 * (table.values z).opening entry.1).sum := by
  induction entries generalizing start with
  | nil =>
      obtain rfl := Except.ok.inj reached
      exact ⟨nofun, fun z _ => (add_zero _).symm⟩
  | cons entry entries ih =>
      obtain ⟨source, found, reached⟩ := except_bind_eq_ok.mp reached
      obtain ⟨resolved, value⟩ := ih reached
      refine ⟨List.forall_mem_cons.mpr ⟨⟨source, found⟩, resolved⟩, fun z one => ?_⟩
      rw [value z one, LinearCombination.value_add, LinearCombination.value_scale, value_intoLinearCombination one,
        List.map_cons, List.sum_cons, (opening_eq known found).2 z, add_assoc, mul_comm]

/-- The openings of a final opening have their sources. -/
def FinalOpeningResolved (table : ClaimSourceTable F O P Ch) (binding : FinalOpeningBinding F O Com)
    (layout : FinalOpeningLayout) : Prop :=
  layout.evaluation ≠ none → ∀ entry ∈ binding.openingIds.zip binding.coefficients,
    ∃ source, table.opening entry.1 = .ok source

/-- What the appended final openings emit. -/
theorem appendFinalOpenings_eq {table : ClaimSourceTable F O P Ch} {count : ℕ} (known : table.Known (· < count))
    {builder builder' : R1csBuilder F} (inside : count ≤ builder.numVars)
    {bindings : List (FinalOpeningBinding F O Com)} {layouts : List FinalOpeningLayout}
    (same : bindings.length = layouts.length)
    (within : ∀ layout ∈ layouts, ∀ v, layout.evaluation = some v → v.index < count)
    (appended : appendFinalOpenings table builder bindings layouts = .ok builder') :
    List.Forall₂ (FinalOpeningResolved table) bindings layouts ∧ Emits builder builder' fun z =>
      List.Forall₂ (fun binding layout => FinalOpeningHolds binding layout (table.values z) z) bindings layouts := by
  induction bindings generalizing builder layouts with
  | nil =>
      obtain rfl := List.eq_nil_of_length_eq_zero same.symm
      obtain rfl := Except.ok.inj appended
      exact ⟨.nil, (Emits.refl builder).congr fun _ _ _ => by simp⟩
  | cons binding bindings ih =>
      obtain ⟨layout, layouts, rfl⟩ := List.exists_cons_of_length_eq_add_one same.symm
      have same : bindings.length = layouts.length := Nat.succ.inj same
      obtain ⟨here, within⟩ := List.forall_mem_cons.mp within
      have fixed (z z' : ℕ → F) (agree : AgreeBelow count z z')
          (held : List.Forall₂ (fun binding layout => FinalOpeningHolds binding layout (table.values z) z) bindings layouts) :
          List.Forall₂ (fun binding layout => FinalOpeningHolds binding layout (table.values z') z') bindings layouts := by
        refine List.forall₂_iff_zip.mpr ⟨held.length_eq, fun {binding layout} member v found => ?_⟩
        rw [agree _ (within layout (List.of_mem_zip member).2 v found), ClaimSourceTable.values_congr known agree]
        exact (List.forall₂_iff_zip.mp held).2 member v found
      rw [appendFinalOpenings] at appended
      split at appended
      next missing =>
        obtain ⟨resolved, emits⟩ := ih inside same within appended
        refine ⟨.cons (fun present => absurd missing present) resolved, emits.congr fun z _ _ => ?_⟩
        rw [List.forall₂_cons]
        refine (and_iff_right fun v found => ?_).symm
        cases missing.symm.trans found
      next evaluation present =>
        obtain ⟨combined, reached, appended⟩ := except_bind_eq_ok.mp appended
        rw [mapError_eq_ok] at reached
        obtain ⟨sources, value⟩ := combineOpenings_eq known reached
        split at appended
        · cases appended
        next middle step =>
          have equal := R1csBuilder.emits_assertEqual step
          obtain ⟨resolved, emits⟩ := ih (inside.trans equal.grows) same within appended
          refine ⟨.cons (fun _ => sources) resolved, (equal.trans emits fun z z' _ agree _ held =>
            fixed z z' (agree.mono inside) held).congr fun z one _ => ?_⟩
          rw [List.forall₂_cons, value z one, LinearCombination.value_zero, zero_add, LinearCombination.value_ofVariable]
          refine and_congr_left fun _ => ⟨fun equal v found => ?_, fun holds => (holds evaluation present).symm⟩
          obtain rfl := Option.some.inj (present.symm.trans found)
          exact equal.symm

end

end JoltWasm.Blindfold
