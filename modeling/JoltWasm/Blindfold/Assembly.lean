import Mathlib.Data.List.Perm.Subperm
import JoltWasm.Blindfold.Solve

/-!
# Assigning the layout

The values that the prover assigns, as one list of variables with their values: the variables are different, so that
no assignment meets another one, and the values of honest stage witnesses satisfy the checks of the stages.
-/

namespace JoltWasm.Blindfold

open R1cs Lib

section

variable {F O Com P Ch : Type}

/-! ## Runs of assignments -/

theorem assignAll_append (witness : Partial F) (first rest : List (ℕ × F)) :
    assignAll witness (first ++ rest) = assignAll witness first >>= fun witness => assignAll witness rest := by
  induction first generalizing witness with
  | nil => rfl
  | cons entry first ih =>
      rw [List.cons_append, assignAll, assignAll]
      cases step : assign witness entry.1 entry.2 with
      | error _ => rfl
      | ok next => exact ih next

/-- What a run of assignments leaves. -/
structure AssignedAll (witness witness' : Partial F) (entries : List (ℕ × F)) : Prop where
  length : witness'.length = witness.length
  assigned : ∀ entry ∈ entries, witness'[entry.1]? = some (some entry.2)
  rest : ∀ index, index ∉ entries.map Prod.fst → witness'[index]? = witness[index]?

/-- Different variables without values can be assigned. -/
theorem assignAll_eq {witness : Partial F} {entries : List (ℕ × F)} (different : (entries.map Prod.fst).Nodup)
    (unassigned : ∀ entry ∈ entries, witness[entry.1]? = some none) :
    ∃ witness', assignAll witness entries = .ok witness' ∧ AssignedAll witness witness' entries := by
  induction entries generalizing witness with
  | nil => exact ⟨witness, rfl, rfl, nofun, fun _ _ => rfl⟩
  | cons entry entries ih =>
      obtain ⟨here, unassigned⟩ := List.forall_mem_cons.mp unassigned
      rw [List.map_cons, List.nodup_cons] at different
      have step : assign witness entry.1 entry.2 = .ok (witness.set entry.1 (some entry.2)) := by
        simp only [assign, here]
      have others (index : ℕ) (other : entry.1 ≠ index) :
          (witness.set entry.1 (some entry.2))[index]? = witness[index]? := List.getElem?_set_ne other
      obtain ⟨witness', reached, run⟩ := ih different.2 fun later member => by
        rw [others _ fun same => different.1 (same ▸ List.mem_map_of_mem member)]
        exact unassigned later member
      refine ⟨witness', except_bind_eq_ok.mpr ⟨_, step, reached⟩, run.length.trans List.length_set,
        List.forall_mem_cons.mpr ⟨?_, run.assigned⟩, fun index absent => ?_⟩
      · obtain ⟨bound, -⟩ := List.getElem?_eq_some_iff.mp here
        rw [run.rest _ different.1, List.getElem?_set_self bound]
      · rw [List.map_cons, List.mem_cons, not_or] at absent
        rw [run.rest _ absent.2, others _ (Ne.symm absent.1)]

/-! ## The entries of a stage -/

variable [Field F]

/-- The coefficients and the next claims of the rounds. -/
def roundEntries : List (List F) → List (VerifiedCommittedRound F Com) → List SumcheckR1csRoundLayout → List (ℕ × F)
  | coefficients :: rest, verified :: rounds, layout :: layouts =>
      pairs layout.coefficients coefficients ++
        ((layout.claimOut.index, evaluateAt coefficients verified.challenge) :: roundEntries rest rounds layouts)
  | _, _, _ => []

def rowEntries : List OutputClaimRowLayout → List (List F) → List (ℕ × F)
  | row :: rows, values :: rest => pairs row.vars values ++ rowEntries rows rest
  | _, _ => []

/-- What is assigned for a stage whose first claim is `claim`. -/
def stageEntries (rounds : List (VerifiedCommittedRound F Com)) (layout : StageLayout)
    (witness : CommittedSumcheckWitness F) (claim : F) : List (ℕ × F) :=
  (layout.sumcheck.inputClaim.index, claim) ::
    (roundEntries witness.roundCoefficients rounds layout.sumcheck.rounds ++
      rowEntries layout.outputClaimRows witness.outputClaimRows)

def finalEntries : List FinalOpeningLayout → List F → List F → List (ℕ × F)
  | layout :: layouts, evaluation :: evaluations, blinding :: blindings =>
      pairs layout.evaluation.toList [evaluation] ++
        (pairs layout.blinding.toList [blinding] ++ finalEntries layouts evaluations blindings)
  | _, _, _ => []

/-- The coefficients of the rounds have the lengths of the layout and of the rounds. -/
def RoundLengths (coefficients : List (List F)) (rounds : List (VerifiedCommittedRound F Com))
    (layouts : List SumcheckR1csRoundLayout) : Prop :=
  List.Forall₂ (fun row (round : VerifiedCommittedRound F Com) => row.length = round.degree + 1) coefficients rounds ∧
    List.Forall₂ (fun row (layout : SumcheckR1csRoundLayout) => row.length = layout.coefficients.length) coefficients layouts

theorem assignRounds_eq {coefficients : List (List F)} {rounds : List (VerifiedCommittedRound F Com)}
    {layouts : List SumcheckR1csRoundLayout} (lengths : RoundLengths coefficients rounds layouts) (stageIndex : ℕ)
    (witness : Partial F) : assignRounds stageIndex witness coefficients rounds layouts =
      assignAll witness (roundEntries coefficients rounds layouts) := by
  obtain ⟨degrees, counts⟩ := lengths
  induction degrees generalizing layouts witness with
  | nil =>
      obtain rfl := List.forall₂_nil_left_iff.mp counts
      rfl
  | @cons row round coefficients rounds degree _ ih =>
      obtain ⟨layout, layouts, count, later, rfl⟩ := List.forall₂_cons_left_iff.mp counts
      rw [assignRounds, if_neg (by simp [count.symm, degree.symm]), roundEntries, assignAll_append]
      refine congrArg (assignAll witness _ >>= ·) (funext fun witness => ?_)
      rw [assignAll]
      exact congrArg (assign witness _ _ >>= ·) (funext fun witness => ih witness later)

omit [Field F] in
theorem assignRows_eq {rows : List OutputClaimRowLayout} {values : List (List F)}
    (lengths : List.Forall₂ (fun (row : OutputClaimRowLayout) (values : List F) => values.length ≤ row.vars.length) rows values)
    (stageIndex : ℕ) (witness : Partial F) :
    assignRows stageIndex witness rows values = assignAll witness (rowEntries rows values) := by
  induction lengths generalizing witness with
  | nil => rfl
  | cons short _ ih =>
      rw [assignRows, if_neg (Nat.not_lt.mpr short), rowEntries, assignAll_append]
      exact congrArg (assignAll witness _ >>= ·) (funext ih)

omit [Field F] in
theorem assignFinalOpenings_eq {layouts : List FinalOpeningLayout} {evaluations blindings : List F}
    (evaluationCount : evaluations.length = layouts.length) (blindingCount : blindings.length = layouts.length)
    (witness : Partial F) : assignFinalOpenings witness layouts evaluations blindings =
      assignAll witness (finalEntries layouts evaluations blindings) := by
  induction layouts generalizing evaluations blindings witness with
  | nil =>
      obtain rfl := List.eq_nil_of_length_eq_zero evaluationCount
      rfl
  | cons layout layouts ih =>
      obtain ⟨evaluation, evaluations, rfl⟩ := List.exists_cons_of_length_eq_add_one evaluationCount
      obtain ⟨blinding, blindings, rfl⟩ := List.exists_cons_of_length_eq_add_one blindingCount
      rw [assignFinalOpenings, finalEntries, assignAll_append]
      refine congrArg (assignAll witness _ >>= ·) (funext fun witness => ?_)
      rw [assignAll_append]
      exact congrArg (assignAll witness _ >>= ·) (funext fun witness =>
        ih (Nat.succ.inj evaluationCount) (Nat.succ.inj blindingCount) witness)

/-! ## Honest witnesses -/

/-- The rounds lead from one claim to another. -/
def RoundsLead (domain : SumcheckDomain) : F → List (List F) → List (VerifiedCommittedRound F Com) → F → Prop
  | claim, coefficients :: rest, round :: rounds, last =>
      (∃ weights, domain.roundSumCoefficients (F := F) round.degree = .ok weights ∧
        weights.length = coefficients.length ∧ (List.zipWith (· * ·) coefficients weights).sum = claim) ∧
      RoundsLead domain ((UnivariatePoly.mk coefficients).evaluate round.challenge) rest rounds last
  | claim, _, _, last => claim = last

/-- The shape of a stage's witness. -/
structure WitnessFits (witnessRowLen : ℕ) (stage : BlindFoldStage F O Com P Ch) (witness : CommittedSumcheckWitness F) :
    Prop where
  degrees : List.Forall₂ (fun row (round : VerifiedCommittedRound F Com) => row.length = round.degree + 1)
    witness.roundCoefficients stage.rounds
  roundBlindings : witness.roundBlindings.length = stage.rounds.length
  rowCount : witness.outputClaimRows.length = stage.outputClaimRows.commitments.length
  widths : ∀ row ∈ witness.outputClaimRows, row.length ≤ witnessRowLen
  outputBlindings : witness.outputClaimBlindings.length = stage.outputClaimRows.commitments.length

/-- A stage's witness holds the openings and satisfies the stage. -/
structure StageSatisfied (values : SourceValues F O P Ch) (stage : BlindFoldStage F O Com P Ch)
    (witness : CommittedSumcheckWitness F) : Prop where
  declared : ∀ (index : ℕ) (id : O), stage.outputClaimRows.openingIds[index]? = some id →
    ∃ row, witness.outputClaimRows[index / stage.outputClaimRows.rowLen]? = some row ∧
      row[index % stage.outputClaimRows.rowLen]? = some (values.opening id)
  aliases : ∀ entry ∈ stage.outputClaimRows.openingAliases, values.opening entry.aliasId = values.opening entry.source
  rounds : RoundsLead stage.domain (stage.inputClaim.evaluate values) witness.roundCoefficients stage.rounds
    (stage.outputClaim.evaluate values)

/-- The witnesses of all stages and final openings. -/
structure Honest (witnessRowLen : ℕ) (statement : BlindFoldStatement F O Com P Ch) (publics : List (P × F))
    (challenges : List (Ch × F)) (values : SourceValues F O P Ch) (witnesses : List (CommittedSumcheckWitness F))
    (evalOutputs evalBlindings : List F) : Prop where
  publics : ∀ entry ∈ publics, values.derived entry.1 = entry.2
  challenges : ∀ entry ∈ challenges, values.challenge entry.1 = entry.2
  fits : List.Forall₂ (WitnessFits witnessRowLen) statement.stages witnesses
  stages : List.Forall₂ (StageSatisfied values) statement.stages witnesses
  outputs : List.Forall₂ (fun (binding : FinalOpeningBinding F O Com) evaluation => evaluation =
    ((binding.openingIds.zip binding.coefficients).map fun entry => entry.2 * values.opening entry.1).sum)
      statement.finalOpenings evalOutputs
  blindings : evalBlindings.length = statement.finalOpenings.length

/-! ## One stage -/

omit [Field F] in
/-- Two relations to the same list. -/
theorem forall₂_of_common {α β γ : Type} {R : α → β → Prop} {S : γ → β → Prop} {T : α → γ → Prop} {xs : List α}
    {ys : List β} {zs : List γ} (left : List.Forall₂ R xs ys) (right : List.Forall₂ S zs ys)
    (both : ∀ x y z, R x y → S z y → T x z) : List.Forall₂ T xs zs := by
  induction left generalizing zs with
  | nil =>
      obtain rfl := List.forall₂_nil_right_iff.mp right
      exact .nil
  | cons here _ ih =>
      obtain ⟨z, later, there, tail, rfl⟩ := List.forall₂_cons_right_iff.mp right
      exact .cons (both _ _ _ here there) (ih tail)

omit [Field F] in
theorem WitnessFits.lengths {rowLen : ℕ} {stage : BlindFoldStage F O Com P Ch} {witness : CommittedSumcheckWitness F}
    {layout : StageLayout} (fits : WitnessFits rowLen stage witness)
    (rows : RowsMatch stage (layout.sumcheck.rounds.map fun round => round.coefficients)) :
    RoundLengths witness.roundCoefficients stage.rounds layout.sumcheck.rounds := by
  have lengths := rows.lengths
  rw [List.forall₂_map_left_iff] at lengths
  exact ⟨fits.degrees, forall₂_of_common fits.degrees lengths fun _ _ _ left right => left.trans right.symm⟩

omit [Field F] in
theorem WitnessFits.rows {rowLen : ℕ} {stage : BlindFoldStage F O Com P Ch} {witness : CommittedSumcheckWitness F}
    {layout : StageLayout} (fits : WitnessFits rowLen stage witness)
    (rows : OutputRowsMatch rowLen stage layout.outputClaimRows) :
    List.Forall₂ (fun (row : OutputClaimRowLayout) (values : List F) => values.length ≤ row.vars.length)
      layout.outputClaimRows witness.outputClaimRows :=
  List.forall₂_iff_zip.mpr ⟨rows.count.trans fits.rowCount.symm, fun {row values} member => by
    rw [rows.widths row (List.of_mem_zip member).1]
    exact fits.widths values (List.of_mem_zip member).2⟩

/-- An honest stage is assigned its entries. -/
theorem assignStage_eq {rowLen stageIndex : ℕ} {stage : BlindFoldStage F O Com P Ch}
    {witness : CommittedSumcheckWitness F} {layout : StageLayout}
    {consistency : List (List (VerifiedCommittedRound F Com))} (verified : consistency[stageIndex]? = some stage.rounds)
    (rounds : stage.rounds ≠ []) (rows : RowsMatch stage (layout.sumcheck.rounds.map fun round => round.coefficients))
    (outputs : OutputRowsMatch rowLen stage layout.outputClaimRows) (fits : WitnessFits rowLen stage witness)
    {claim last : F} (lead : RoundsLead stage.domain claim witness.roundCoefficients stage.rounds last)
    (start : Partial F) : assignStage consistency start stageIndex layout stage.domain witness =
      assignAll start (stageEntries stage.rounds layout witness claim) := by
  have lengths := fits.lengths rows
  have outputLengths := fits.rows outputs
  have count : witness.roundCoefficients.length = layout.sumcheck.rounds.length := lengths.2.length_eq
  have count' : stage.rounds.length = layout.sumcheck.rounds.length := fits.degrees.length_eq.symm.trans count
  have blindings : witness.roundBlindings.length = layout.sumcheck.rounds.length := fits.roundBlindings.trans count'
  have outputCount := outputLengths.length_eq
  have outputBlindings : witness.outputClaimBlindings.length = layout.outputClaimRows.length :=
    fits.outputBlindings.trans outputs.count.symm
  simp only [assignStage, verified]
  rw [if_neg (by simp [count, count']), if_neg (not_not_intro blindings)]
  obtain ⟨round, later, first⟩ := List.exists_cons_of_ne_nil rounds
  have degrees := fits.degrees
  rw [first] at degrees lead
  obtain ⟨coefficients, rest, degree, degrees, named⟩ := List.forall₂_cons_right_iff.mp degrees
  rw [named] at lead
  obtain ⟨⟨weights, found, total, sum⟩, -⟩ := lead
  have weighted : (stage.domain.roundSumCoefficients (coefficients.length - 1)).mapError AssignmentError.sumcheck =
      .ok weights := by
    rw [degree, Nat.add_sub_cancel, mapError_eq_ok]
    exact found
  rw [named]
  simp only
  rw [weighted]
  change (if weights.length ≠ coefficients.length then _ else _) = _
  rw [if_neg (not_not_intro total), sum, stageEntries, assignAll]
  refine congrArg (assign start _ _ >>= ·) (funext fun middle => ?_)
  rw [assignAll_append, ← assignRounds_eq lengths stageIndex, named]
  refine congrArg (assignRounds stageIndex middle _ _ _ >>= ·) (funext fun middle => ?_)
  rw [if_neg (not_not_intro outputCount), if_neg (not_not_intro outputBlindings)]
  exact assignRows_eq outputLengths stageIndex middle

/-- The entries of all stages. -/
def stagesEntries (values : SourceValues F O P Ch) : List (BlindFoldStage F O Com P Ch) → List StageLayout →
    List (CommittedSumcheckWitness F) → List (ℕ × F)
  | stage :: stages, layout :: layouts, witness :: witnesses =>
      stageEntries stage.rounds layout witness (stage.inputClaim.evaluate values) ++
        stagesEntries values stages layouts witnesses
  | _, _, _ => []

/-- Honest stages are assigned their entries. -/
theorem assignStages_eq {rowLen : ℕ} {values : SourceValues F O P Ch} (before : List (List (VerifiedCommittedRound F Com)))
    {stages : List (BlindFoldStage F O Com P Ch)} {layouts : List StageLayout} {witnesses : List (CommittedSumcheckWitness F)}
    (rounds : ∀ stage ∈ stages, stage.rounds ≠ [])
    (rows : List.Forall₂ (fun stage (layout : StageLayout) =>
      RowsMatch stage (layout.sumcheck.rounds.map fun round => round.coefficients)) stages layouts)
    (outputs : List.Forall₂ (fun stage (layout : StageLayout) =>
      OutputRowsMatch rowLen stage layout.outputClaimRows) stages layouts)
    (fits : List.Forall₂ (WitnessFits rowLen) stages witnesses)
    (satisfied : List.Forall₂ (StageSatisfied values) stages witnesses) (start : Partial F) :
    assignStages (before ++ stages.map fun stage => stage.rounds) start before.length layouts
      (stages.map fun stage => stage.domain) witnesses = assignAll start (stagesEntries values stages layouts witnesses) := by
  induction rows generalizing before witnesses start with
  | nil =>
      obtain rfl := List.forall₂_nil_left_iff.mp fits
      rfl
  | @cons stage layout stages layouts row _ ih =>
      obtain ⟨witness, later, fit, fitsLater, rfl⟩ := List.forall₂_cons_left_iff.mp fits
      obtain ⟨output, outputs⟩ := List.forall₂_cons.mp outputs
      obtain ⟨here, satisfied⟩ := List.forall₂_cons.mp satisfied
      obtain ⟨some_, rounds⟩ := List.forall_mem_cons.mp rounds
      have verified : (before ++ (stage :: stages).map fun stage => stage.rounds)[before.length]? = some stage.rounds := by
        rw [List.getElem?_append_right le_rfl, Nat.sub_self]
        rfl
      have rest := fun start => ih (before ++ [stage.rounds]) rounds outputs fitsLater satisfied start
      change assignStages _ start before.length (layout :: layouts)
        (stage.domain :: stages.map fun stage => stage.domain) (witness :: later) = _
      rw [assignStages, assignStage_eq verified some_ row output fit here.rounds, stagesEntries,
        assignAll_append]
      refine congrArg (assignAll start _ >>= ·) (funext fun start => ?_)
      rw [← rest start, List.append_assoc, List.length_append]
      rfl

/-! ## The entries are of different variables -/

omit [Field F] in
theorem keys_pairs (vars : List Variable) (values : List F) :
    ((pairs vars values).map Prod.fst).Sublist (vars.map Variable.index) := by
  induction vars generalizing values with
  | nil => exact List.nil_sublist _
  | cons v vars ih =>
      cases values with
      | nil => exact List.nil_sublist _
      | cons value values => exact (ih values).cons_cons _

theorem keys_roundEntries (coefficients : List (List F)) (rounds : List (VerifiedCommittedRound F Com))
    (layouts : List SumcheckR1csRoundLayout) : ((roundEntries coefficients rounds layouts).map Prod.fst).Subperm
      (((layouts.flatMap fun round => round.coefficients) ++ layouts.map fun round => round.claimOut).map
        Variable.index) := by
  induction layouts generalizing coefficients rounds with
  | nil =>
      have none_ : roundEntries coefficients rounds [] = [] := by
        rw [roundEntries]
        nofun
      rw [none_]
      exact List.nil_subperm
  | cons layout layouts ih =>
      cases coefficients with
      | nil => exact List.nil_subperm
      | cons row coefficients =>
          cases rounds with
          | nil => exact List.nil_subperm
          | cons round rounds =>
              rw [roundEntries, List.map_append, List.map_cons]
              have later := (List.subperm_cons layout.claimOut.index).mpr (ih coefficients rounds)
              refine ((keys_pairs layout.coefficients row).subperm.append later).trans (List.Perm.subperm ?_)
              refine List.perm_iff_count.mpr fun index => ?_
              simp only [List.flatMap_cons, List.map_append, List.map_cons, List.count_append, List.count_cons]
              omega

omit [Field F] in
theorem keys_rowEntries (rows : List OutputClaimRowLayout) (values : List (List F)) :
    ((rowEntries rows values).map Prod.fst).Sublist ((rows.flatMap fun row => row.vars).map Variable.index) := by
  induction rows generalizing values with
  | nil => exact List.nil_sublist _
  | cons row rows ih =>
      cases values with
      | nil => exact List.nil_sublist _
      | cons first values =>
          rw [rowEntries, List.map_append, List.flatMap_cons, List.map_append]
          exact (keys_pairs row.vars first).append (ih values)

/-- The variables of a stage. -/
def StageLayout.vars (layout : StageLayout) : List Variable :=
  (layout.sumcheck.rounds.flatMap fun round => round.coefficients) ++
    (layout.outputClaimRows.flatMap fun row => row.vars) ++ layout.claims

theorem keys_stageEntries (rounds : List (VerifiedCommittedRound F Com)) (layout : StageLayout)
    (witness : CommittedSumcheckWitness F) (claim : F) :
    ((stageEntries rounds layout witness claim).map Prod.fst).Subperm (layout.vars.map Variable.index) := by
  rw [stageEntries, List.map_cons, List.map_append]
  have both := (keys_roundEntries witness.roundCoefficients rounds layout.sumcheck.rounds).append
    (keys_rowEntries layout.outputClaimRows witness.outputClaimRows).subperm
  refine ((List.subperm_cons layout.sumcheck.inputClaim.index).mpr both).trans (List.Perm.subperm ?_)
  refine List.perm_iff_count.mpr fun index => ?_
  simp only [StageLayout.vars, StageLayout.claims, List.map_append, List.map_cons, List.count_append, List.count_cons]
  omega

theorem keys_stagesEntries (values : SourceValues F O P Ch) (stages : List (BlindFoldStage F O Com P Ch))
    (layouts : List StageLayout) (witnesses : List (CommittedSumcheckWitness F)) :
    ((stagesEntries values stages layouts witnesses).map Prod.fst).Subperm
      ((layouts.flatMap StageLayout.vars).map Variable.index) := by
  induction layouts generalizing stages witnesses with
  | nil =>
      have none_ : stagesEntries values stages [] witnesses = [] := by
        rw [stagesEntries]
        nofun
      rw [none_]
      exact List.nil_subperm
  | cons layout layouts ih =>
      cases stages with
      | nil => exact List.nil_subperm
      | cons stage stages =>
          cases witnesses with
          | nil => exact List.nil_subperm
          | cons witness witnesses =>
              rw [stagesEntries, List.map_append, List.flatMap_cons, List.map_append]
              exact (keys_stageEntries stage.rounds layout witness _).append (ih stages witnesses)

omit [Field F] in
theorem keys_finalEntries (layouts : List FinalOpeningLayout) (evaluations blindings : List F) :
    ((finalEntries layouts evaluations blindings).map Prod.fst).Sublist
      ((layouts.flatMap FinalOpeningLayout.vars).map Variable.index) := by
  induction layouts generalizing evaluations blindings with
  | nil => exact List.nil_sublist _
  | cons layout layouts ih =>
      cases evaluations with
      | nil => exact List.nil_sublist _
      | cons evaluation evaluations =>
          cases blindings with
          | nil => exact List.nil_sublist _
          | cons blinding blindings =>
              rw [finalEntries, List.map_append, List.map_append, List.flatMap_cons, FinalOpeningLayout.vars,
                List.map_append, List.map_append, List.append_assoc]
              exact (keys_pairs _ _).append ((keys_pairs _ _).append (ih evaluations blindings))

/-- The variables of a layout, stage by stage. -/
theorem perm_vars (layouts : List StageLayout) : (layouts.flatMap StageLayout.vars).Perm
    ((layouts.flatMap fun stage => stage.sumcheck.rounds.flatMap fun round => round.coefficients) ++
      (layouts.flatMap fun stage => stage.outputClaimRows.flatMap fun row => row.vars) ++
      layouts.flatMap StageLayout.claims) :=
  (List.flatMap_append_perm layouts _ _).symm.trans ((List.flatMap_append_perm layouts _ _).symm.append_right _)

/-- What is assigned for the layout. -/
def layoutEntries (statement : BlindFoldStatement F O Com P Ch) (layout : Layout) (values : SourceValues F O P Ch)
    (witnesses : List (CommittedSumcheckWitness F)) (evalOutputs evalBlindings : List F) : List (ℕ × F) :=
  stagesEntries values statement.stages layout.stages witnesses ++
    finalEntries layout.finalOpenings evalOutputs evalBlindings

/-- The entries of an allocated layout are of different variables, all of them fresh. -/
theorem keys_layoutEntries {statement : BlindFoldStatement F O Com P Ch} {builder builder' : R1csBuilder F}
    {layout : Layout} (allocated : LayoutAllocated statement builder builder' layout) (values : SourceValues F O P Ch)
    (witnesses : List (CommittedSumcheckWitness F)) (evalOutputs evalBlindings : List F) :
    ((layoutEntries statement layout values witnesses evalOutputs evalBlindings).map Prod.fst).Subperm
      (List.range' builder.numVars (builder'.numVars - builder.numVars)) := by
  rw [layoutEntries, List.map_append]
  refine List.Subperm.trans ?_ allocated.fresh.sublist.subperm
  have parted (first rest : List Variable) : (first ++ rest).map Variable.index =
      first.map Variable.index ++ rest.map Variable.index := List.map_append
  rw [parted _ (layout.finalOpenings.flatMap FinalOpeningLayout.vars)]
  refine List.Subperm.append ?_ (keys_finalEntries layout.finalOpenings evalOutputs evalBlindings).subperm
  exact (keys_stagesEntries values statement.stages layout.stages witnesses).trans ((perm_vars layout.stages).map _).subperm

/-! ## The assigned values satisfy the checks -/

/-- The values of the entries. -/
def Assigned (z : ℕ → F) (entries : List (ℕ × F)) : Prop := ∀ entry ∈ entries, z entry.1 = entry.2

omit [Field F] in
theorem assigned_append {z : ℕ → F} {first rest : List (ℕ × F)} :
    Assigned z (first ++ rest) ↔ Assigned z first ∧ Assigned z rest := List.forall_mem_append

omit [Field F] in
theorem assigned_cons {z : ℕ → F} {entry : ℕ × F} {rest : List (ℕ × F)} :
    Assigned z (entry :: rest) ↔ z entry.1 = entry.2 ∧ Assigned z rest := List.forall_mem_cons

omit [Field F] in
theorem values_of_pairs {z : ℕ → F} {vars : List Variable} {values : List F} (same : values.length = vars.length)
    (assigned : Assigned z (pairs vars values)) : (vars.map fun v => z v.index) = values := by
  induction vars generalizing values with
  | nil => exact (List.eq_nil_of_length_eq_zero same).symm
  | cons v vars ih =>
      obtain ⟨value, values, rfl⟩ := List.exists_cons_of_length_eq_add_one same
      obtain ⟨here, assigned⟩ := assigned_cons.mp assigned
      rw [List.map_cons, ih (Nat.succ.inj same) assigned]
      exact congrArg (· :: values) here

theorem evaluateAt_eq (coefficients : List F) (point : F) :
    evaluateAt coefficients point = (UnivariatePoly.mk coefficients).evaluate point := by
  rw [evaluateAt, UnivariatePoly.evaluate]
  cases coefficients.reverse with
  | nil => rfl
  | cons c cs => rw [List.foldl_cons, zero_mul, zero_add]

/-- Rounds that lead from claim to claim hold. -/
theorem roundHolds_of_entries {domain : SumcheckDomain} {z : ℕ → F} {coefficients : List (List F)}
    {rounds : List (VerifiedCommittedRound F Com)} {layouts : List SumcheckR1csRoundLayout} {first last : Variable}
    {claim value : F} (lengths : RoundLengths coefficients rounds layouts) (linked : ClaimsLinked first layouts last)
    (start : z first.index = claim) (lead : RoundsLead domain claim coefficients rounds value)
    (assigned : Assigned z (roundEntries coefficients rounds layouts)) :
    List.Forall₂ (fun layout (round : VerifiedCommittedRound F Com) => RoundHolds domain layout round.challenge z)
      layouts rounds ∧ z last.index = value := by
  obtain ⟨degrees, counts⟩ := lengths
  induction degrees generalizing layouts first claim with
  | nil =>
      obtain rfl := List.forall₂_nil_left_iff.mp counts
      obtain rfl := linked
      exact ⟨.nil, start.trans lead⟩
  | @cons row round coefficients rounds degree _ ih =>
      obtain ⟨layout, later, count, countsLater, rfl⟩ := List.forall₂_cons_left_iff.mp counts
      obtain ⟨rfl, linked⟩ := linked
      obtain ⟨⟨weights, found, total, sum⟩, lead⟩ := lead
      obtain ⟨here, assigned⟩ := assigned_append.mp assigned
      obtain ⟨next, assigned⟩ := assigned_cons.mp assigned
      rw [evaluateAt_eq] at next
      have message : layout.clearRound z = ⟨.plain, ⟨row⟩⟩ := by
        rw [SumcheckR1csRoundLayout.clearRound, values_of_pairs count here]
      have size : round.degree = layout.degree := by
        rw [SumcheckR1csRoundLayout.degree, ← count, degree]
        rfl
      obtain ⟨holds, final⟩ := ih linked next lead assigned countsLater
      refine ⟨.cons ⟨⟨weights, size ▸ found, total.trans count, ?_⟩, ?_⟩ holds, final⟩
      · rw [message, start]
        exact sum
      · rw [message]
        exact next.symm

omit [Field F] in
/-- The entry of a place in the rows. -/
theorem mem_rowEntries {rows : List OutputClaimRowLayout} {values : List (List F)} {row column : ℕ}
    {rowLayout : OutputClaimRowLayout} {rowValues : List F} {v : Variable} {value : F} (here : rows[row]? = some rowLayout)
    (there : values[row]? = some rowValues) (named : rowLayout.vars[column]? = some v)
    (valued : rowValues[column]? = some value) : (v.index, value) ∈ rowEntries rows values := by
  induction rows generalizing values row with
  | nil => cases here
  | cons first rows ih =>
      cases values with
      | nil => cases there
      | cons firstValues values =>
          rw [rowEntries]
          cases row with
          | zero =>
              obtain rfl := Option.some.inj here
              obtain rfl := Option.some.inj there
              refine List.mem_append_left _ (List.mem_iff_getElem?.mpr ⟨column, ?_⟩)
              rw [pairs, List.getElem?_zip_eq_some, List.getElem?_map, named]
              exact ⟨rfl, valued⟩
          | succ row => exact List.mem_append_right _ (ih here there)

omit [Field F] in
/-- The place of an opening is assigned its value. -/
theorem StageSatisfied.entry [Field F] {rowLen : ℕ} {values : SourceValues F O P Ch} {stage : BlindFoldStage F O Com P Ch}
    {witness : CommittedSumcheckWitness F} (satisfied : StageSatisfied values stage witness) {layout : StageLayout}
    (rows : OutputRowsMatch rowLen stage layout.outputClaimRows) (width : stage.outputClaimRows.rowLen ≤ rowLen)
    (ready : RowsReady stage) {index : ℕ} {id : O} (found : stage.outputClaimRows.openingIds[index]? = some id) :
    ∃ v, layout.slot stage.outputClaimRows.rowLen index = some v ∧
      (v.index, values.opening id) ∈ rowEntries layout.outputClaimRows witness.outputClaimRows := by
  obtain ⟨v, slot⟩ := slot_isSome rows width ready found
  obtain ⟨rowLayout, here, named⟩ := Option.bind_eq_some_iff.mp slot
  obtain ⟨rowValues, there, valued⟩ := satisfied.declared index id found
  exact ⟨v, slot, mem_rowEntries here there named valued⟩

end

end JoltWasm.Blindfold
