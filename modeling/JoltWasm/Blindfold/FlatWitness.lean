import JoltWasm.Blindfold.Assembly

/-!
# The flat assignment

From honest stage witnesses the prover assigns the layout and solves every product, and the result satisfies the
constraints.
-/

namespace JoltWasm.Blindfold

open R1cs Lib
open R1csBuilder (Emits AgreeBelow)

section

variable {F O Com P Ch : Type} [Field F]

/-! ## The checks of honest stages -/

theorem stageHolds_of_entries {rowLen : ℕ} {values : SourceValues F O P Ch} {stage : BlindFoldStage F O Com P Ch}
    {layout : StageLayout} {witness : CommittedSumcheckWitness F} {z : ℕ → F}
    (rows : RowsMatch stage (layout.sumcheck.rounds.map fun round => round.coefficients))
    (linked : ClaimsLinked layout.sumcheck.inputClaim layout.sumcheck.rounds layout.sumcheck.outputClaim)
    (fits : WitnessFits rowLen stage witness) (satisfied : StageSatisfied values stage witness)
    (assigned : Assigned z (stageEntries stage.rounds layout witness (stage.inputClaim.evaluate values))) :
    StageHolds stage layout values z := by
  obtain ⟨input, assigned⟩ := assigned_cons.mp assigned
  obtain ⟨rounds, last⟩ := roundHolds_of_entries (fits.lengths rows) linked input satisfied.rounds
    (assigned_append.mp assigned).1
  exact ⟨input, rounds, last⟩

theorem openings_of_entries {rowLen : ℕ} {values : SourceValues F O P Ch} {stage : BlindFoldStage F O Com P Ch}
    {layout : StageLayout} {witness : CommittedSumcheckWitness F} {z : ℕ → F} {claim : F}
    (rows : OutputRowsMatch rowLen stage layout.outputClaimRows) (width : stage.outputClaimRows.rowLen ≤ rowLen)
    (ready : RowsReady stage) (satisfied : StageSatisfied values stage witness)
    (assigned : Assigned z (stageEntries stage.rounds layout witness claim)) :
    StageOpeningsAssigned z values.opening stage layout where
  declared index id found := by
    obtain ⟨v, slot, member⟩ := satisfied.entry rows width ready found
    exact ⟨v, slot, ((assigned_append.mp (assigned_cons.mp assigned).2).2 _ member).symm⟩
  aliases := satisfied.aliases

/-- A stage, its layout and its witness. -/
structure StageParts (rowLen : ℕ) (values : SourceValues F O P Ch) (stage : BlindFoldStage F O Com P Ch)
    (layout : StageLayout) (witness : CommittedSumcheckWitness F) : Prop where
  rows : RowsMatch stage (layout.sumcheck.rounds.map fun round => round.coefficients)
  outputs : OutputRowsMatch rowLen stage layout.outputClaimRows
  linked : ClaimsLinked layout.sumcheck.inputClaim layout.sumcheck.rounds layout.sumcheck.outputClaim
  width : stage.outputClaimRows.rowLen ≤ rowLen
  ready : RowsReady stage
  fits : WitnessFits rowLen stage witness
  satisfied : StageSatisfied values stage witness

/-- The stages with their layouts and witnesses. -/
inductive AllStages (rowLen : ℕ) (values : SourceValues F O P Ch) : List (BlindFoldStage F O Com P Ch) →
    List StageLayout → List (CommittedSumcheckWitness F) → Prop
  | nil : AllStages rowLen values [] [] []
  | cons {stage : BlindFoldStage F O Com P Ch} {layout : StageLayout} {witness : CommittedSumcheckWitness F}
      {stages : List (BlindFoldStage F O Com P Ch)} {layouts : List StageLayout}
      {witnesses : List (CommittedSumcheckWitness F)} (here : StageParts rowLen values stage layout witness)
      (later : AllStages rowLen values stages layouts witnesses) :
      AllStages rowLen values (stage :: stages) (layout :: layouts) (witness :: witnesses)

theorem allStages_of_honest {statement : BlindFoldStatement F O Com P Ch} {builder builder' : R1csBuilder F}
    {layout : Layout} (allocated : LayoutAllocated statement builder builder' layout)
    (ready : ∀ stage ∈ statement.stages, RowsReady stage) {publics : List (P × F)} {challenges : List (Ch × F)}
    {values : SourceValues F O P Ch} {witnesses : List (CommittedSumcheckWitness F)} {evalOutputs evalBlindings : List F}
    (honest : Honest layout.witnessRowLen statement publics challenges values witnesses evalOutputs evalBlindings) :
    AllStages layout.witnessRowLen values statement.stages layout.stages witnesses := by
  have collect (stages : List (BlindFoldStage F O Com P Ch)) (layouts : List StageLayout)
      (witnesses : List (CommittedSumcheckWitness F))
      (rows : List.Forall₂ (fun stage (layout : StageLayout) =>
        RowsMatch stage (layout.sumcheck.rounds.map fun round => round.coefficients)) stages layouts)
      (outputs : List.Forall₂ (fun stage (stageLayout : StageLayout) =>
        OutputRowsMatch layout.witnessRowLen stage stageLayout.outputClaimRows) stages layouts)
      (linked : ∀ layout ∈ layouts, ClaimsLinked layout.sumcheck.inputClaim layout.sumcheck.rounds
        layout.sumcheck.outputClaim)
      (widths : ∀ stage ∈ stages, stage.outputClaimRows.rowLen ≤ layout.witnessRowLen)
      (ready : ∀ stage ∈ stages, RowsReady stage) (fits : List.Forall₂ (WitnessFits layout.witnessRowLen) stages witnesses)
      (satisfied : List.Forall₂ (StageSatisfied values) stages witnesses) :
      AllStages layout.witnessRowLen values stages layouts witnesses := by
    induction rows generalizing witnesses with
    | nil =>
        obtain rfl := List.forall₂_nil_left_iff.mp fits
        exact .nil
    | cons row _ ih =>
        obtain ⟨witness, later, fit, fitsLater, rfl⟩ := List.forall₂_cons_left_iff.mp fits
        obtain ⟨output, outputs⟩ := List.forall₂_cons.mp outputs
        obtain ⟨chain, linked⟩ := List.forall_mem_cons.mp linked
        obtain ⟨width, widths⟩ := List.forall_mem_cons.mp widths
        obtain ⟨able, ready⟩ := List.forall_mem_cons.mp ready
        obtain ⟨here, satisfied⟩ := List.forall₂_cons.mp satisfied
        exact .cons ⟨row, output, chain, width, able, fit, here⟩
          (ih later outputs linked widths ready fitsLater satisfied)
  exact collect _ _ _ allocated.stages allocated.rows allocated.linked allocated.widths ready honest.fits honest.stages

theorem AllStages.checks {rowLen : ℕ} {values : SourceValues F O P Ch} {stages : List (BlindFoldStage F O Com P Ch)}
    {layouts : List StageLayout} {witnesses : List (CommittedSumcheckWitness F)}
    (all : AllStages rowLen values stages layouts witnesses) {z : ℕ → F}
    (assigned : Assigned z (stagesEntries values stages layouts witnesses)) :
    List.Forall₂ (fun stage layout => StageHolds stage layout values z) stages layouts ∧
      List.Forall₂ (StageOpeningsAssigned z values.opening) stages layouts := by
  induction all with
  | nil => exact ⟨.nil, .nil⟩
  | cons here _ ih =>
      obtain ⟨first, assigned⟩ := assigned_append.mp assigned
      obtain ⟨holds, openings⟩ := ih assigned
      exact ⟨.cons (stageHolds_of_entries here.rows here.linked here.fits here.satisfied first) holds,
        .cons (openings_of_entries here.outputs here.width here.ready here.satisfied first) openings⟩

/-- Openings are assigned. -/
theorem AllStages.inherited {rowLen : ℕ} {values : SourceValues F O P Ch} {stages : List (BlindFoldStage F O Com P Ch)}
    {layouts : List StageLayout} {witnesses : List (CommittedSumcheckWitness F)}
    (all : AllStages rowLen values stages layouts witnesses) {holds : ℕ → Prop}
    (keys : ∀ entry ∈ stagesEntries values stages layouts witnesses, holds entry.1) :
    List.Forall₂ (Inherited fun _ v => holds v.index) stages layouts := by
  induction all with
  | nil => exact .nil
  | cons here _ ih =>
      obtain ⟨first, keys⟩ := List.forall_mem_append.mp keys
      refine .cons ⟨fun ⟨id, v⟩ member => ?_, fun _ _ _ source => source⟩ (ih keys)
      obtain ⟨index, found, slot⟩ := (mem_zip_openingVariables here.outputs here.width here.ready).mp member
      obtain ⟨u, slot', entry⟩ := here.satisfied.entry here.outputs here.width here.ready found
      obtain rfl := Option.some.inj (slot.symm.trans slot')
      exact first _ (List.mem_cons_of_mem _ (List.mem_append_right _ entry))

theorem finalOpenings_hold {bindings : List (FinalOpeningBinding F O Com)} {layouts : List FinalOpeningLayout}
    {values : SourceValues F O P Ch} {evalOutputs evalBlindings : List F}
    (outputs : List.Forall₂ (fun (binding : FinalOpeningBinding F O Com) evaluation => evaluation =
      ((binding.openingIds.zip binding.coefficients).map fun entry => entry.2 * values.opening entry.1).sum)
        bindings evalOutputs)
    (same : bindings.length = layouts.length) (blindings : evalBlindings.length = layouts.length) {z : ℕ → F}
    (assigned : Assigned z (finalEntries layouts evalOutputs evalBlindings)) :
    List.Forall₂ (fun binding layout => FinalOpeningHolds binding layout values z) bindings layouts := by
  induction outputs generalizing layouts evalBlindings with
  | nil =>
      obtain rfl := List.eq_nil_of_length_eq_zero same.symm
      exact .nil
  | cons value _ ih =>
      obtain ⟨layout, layouts, rfl⟩ := List.exists_cons_of_length_eq_add_one same.symm
      obtain ⟨blinding, evalBlindings, rfl⟩ := List.exists_cons_of_length_eq_add_one blindings
      obtain ⟨first, assigned⟩ := assigned_append.mp assigned
      obtain ⟨-, assigned⟩ := assigned_append.mp assigned
      refine .cons (fun evaluation present => ?_) (ih (Nat.succ.inj same) (Nat.succ.inj blindings) assigned)
      rw [present] at first
      rw [← value]
      exact first _ List.mem_cons_self

/-! ## The flat assignment -/

variable [DecidableEq F] [DecidableEq O] [DecidableEq P] [DecidableEq Ch]

/-- A built protocol with its builder. -/
structure Protocol (statement : BlindFoldStatement F O Com P Ch) (publics : List (P × F)) (challenges : List (Ch × F))
    (protocol : BlindFoldProtocol F Com) (builder : R1csBuilder F) : Prop where
  valid : statement.validate = .ok ()
  built : statement.buildWithSources .new publics challenges = .ok (protocol.layout, builder)
  r1cs : protocol.r1cs = builder.intoMatrices
  rounds : protocol.sumcheckConsistency = statement.stages.map fun stage => stage.rounds
  claims : protocol.committedOutputClaims = statement.stages.map fun stage => stage.outputClaimRows.commitments
  dimensions : protocol.layout.dimensions protocol.r1cs (statement.stages.map fun stage => stage.rounds)
    (statement.stages.map fun stage => stage.outputClaimRows.commitments) = .ok protocol.dimensions

theorem fromParts_eq {statement : BlindFoldStatement F O Com P Ch} {publics : List (P × F)} {challenges : List (Ch × F)}
    {protocol : BlindFoldProtocol F Com} (made : BlindFoldProtocol.fromParts statement publics challenges = .ok protocol) :
    ∃ builder, Protocol statement publics challenges protocol builder := by
  obtain ⟨_, valid, made⟩ := except_bind_eq_ok.mp made
  obtain ⟨⟨layout, builder⟩, built, made⟩ := except_bind_eq_ok.mp made
  obtain ⟨dimensions, found, shown⟩ := except_bind_eq_ok.mp made
  obtain rfl := Except.ok.inj shown
  exact ⟨builder, valid, built, rfl, rfl, rfl, found⟩

/-- What the flat assignment is: it satisfies the constraints, has the entries of the layout, and zeros elsewhere
before the products. -/
structure FlatAssigned (base : ℕ) (builder : R1csBuilder F) (entries : List (ℕ × F)) (flat : List F) : Prop where
  length : flat.length = builder.numVars
  one : flat[0]? = some 1
  satisfied : builder.Satisfies fun index => flat.getD index 0
  assigned : ∀ entry ∈ entries, flat[entry.1]? = some entry.2
  zeros : ∀ index, 0 < index → index < base → index ∉ entries.map Prod.fst → flat[index]? = some 0

/-- The ready variables: those with entries. -/
theorem solve_layout {builder : R1csBuilder F} {base : ℕ} {entries : List (ℕ × F)} {constraints : List (Constraint F)}
    (ordered : ProductOrder (· ∈ entries.map Prod.fst) base base constraints builder.numVars)
    (constraints_eq : builder.intoMatrices.constraints = constraints)
    (keys : (entries.map Prod.fst).Subperm (List.range' 1 (base - 1))) (positive : 0 < base)
    (completes : ∀ z : ℕ → F, z 0 = 1 → Assigned z entries → ∃ z', AgreeBelow base z z' ∧ builder.Satisfies z') :
    ∃ witness, assignAll (some 1 :: List.replicate (builder.numVars - 1) none) entries = .ok witness ∧
      ∃ witness', solveProducts 0 witness builder.intoMatrices.constraints = .ok witness' ∧
        FlatAssigned base builder entries (witness'.map fun value => value.getD 0) := by
  have le := ordered.le
  have within : ∀ key ∈ entries.map Prod.fst, 1 ≤ key ∧ key < base := fun key member => by
    have range := List.mem_range'_1.mp (keys.subset member)
    omega
  have different : (entries.map Prod.fst).Nodup := by
    obtain ⟨part, perm, sub⟩ := keys
    exact perm.nodup_iff.mp (sub.nodup List.nodup_range')
  have start (index : ℕ) (after : 1 ≤ index) (below : index < builder.numVars) :
      (some (1 : F) :: List.replicate (builder.numVars - 1) none)[index]? = some none := by
    obtain ⟨index, rfl⟩ := Nat.exists_eq_add_of_le' after
    rw [List.getElem?_cons_succ, List.getElem?_replicate_of_lt (by omega)]
  obtain ⟨witness, reached, run⟩ := assignAll_eq different fun entry member => by
    obtain ⟨after, below⟩ := within _ (List.mem_map_of_mem member)
    exact start entry.1 after (below.trans_le le)
  have first : witness[0]? = some (some 1) := by
    rw [run.rest 0 fun member => absurd (within 0 member).1 (by omega)]
    rfl
  obtain ⟨z', agree, satisfied⟩ := completes (fun index => (witness.getD index none).getD 0)
    (by simp only [List.getD_eq_getElem?_getD, first]; rfl)
    (fun entry member => by simp only [List.getD_eq_getElem?_getD, run.assigned entry member]; rfl)
  have value (index : ℕ) (below : index < base) : z' index = (witness.getD index none).getD 0 := agree index below
  have solved : SolvedTo (· ∈ entries.map Prod.fst) base base builder.numVars z' witness := by
    refine ⟨fun index member => ?_, fun index after below => absurd below (by omega), fun index after below => ?_⟩
    · obtain ⟨entry, among, rfl⟩ := List.mem_map.mp member
      rw [value _ (within _ member).2, List.getD_eq_getElem?_getD, run.assigned entry among]
      rfl
    · rw [run.rest index fun member => absurd (within index member).2 (by omega)]
      exact start index (by omega) below
  have holds : ∀ row ∈ constraints, rowValue row.1.1 z' * rowValue row.1.2 z' = rowValue row.2 z' := by
    rw [← constraints_eq]
    exact satisfied
  obtain ⟨witness', pass, length, done, same⟩ := solveProducts_eq ordered (fun index member => (within index member).2)
    le_rfl holds solved 0
  have size : witness'.length = builder.numVars := by
    rw [length, run.length, List.length_cons, List.length_replicate]
    omega
  have before (index : ℕ) (below : index < base) :
      (witness'.map fun value => value.getD 0)[index]? = witness[index]?.map fun value => value.getD 0 := by
    rw [List.getElem?_map, same index below]
  refine ⟨witness, reached, witness', by rw [constraints_eq]; exact pass, (List.length_map _).trans size, ?_, ?_, ?_, ?_⟩
  · rw [before 0 positive, first]
    rfl
  · refine (R1csBuilder.satisfies_congr fun index below => ?_).mpr satisfied
    rw [List.getD_eq_getElem?_getD]
    by_cases here : index < base
    · rw [before index here, value index here, List.getD_eq_getElem?_getD]
      cases witness[index]? <;> rfl
    · rw [List.getElem?_map, done.solved index (Nat.not_lt.mp here) below]
      rfl
  · intro entry member
    rw [before _ (within _ (List.mem_map_of_mem member)).2, run.assigned entry member]
    rfl
  · intro index after below absent
    rw [before index below, run.rest index absent, start index after (below.trans_le le)]
    rfl

omit [Field F] [DecidableEq F] in
theorem ensureCount_eq {name : String} {expected actual : ℕ} (same : actual = expected) :
    (ensureCount name expected actual : Except (AssignmentError F) Unit) = .ok () := if_neg (not_not_intro same)

/-- Honest witnesses of a protocol give a flat assignment. -/
theorem flatWitness_eq {statement : BlindFoldStatement F O Com P Ch} {publics : List (P × F)} {challenges : List (Ch × F)}
    {protocol : BlindFoldProtocol F Com} {builder : R1csBuilder F}
    (made : Protocol statement publics challenges protocol builder) (rounds : ∀ stage ∈ statement.stages, stage.rounds ≠ [])
    {values : SourceValues F O P Ch} {witnesses : List (CommittedSumcheckWitness F)} {evalOutputs evalBlindings : List F}
    (honest : Honest protocol.layout.witnessRowLen statement publics challenges values witnesses evalOutputs
      evalBlindings) :
    ∃ allocated flat, LayoutAllocated statement .new allocated protocol.layout ∧
      protocol.flatWitness (statement.stages.map fun stage => stage.domain) witnesses evalOutputs evalBlindings = .ok flat ∧
      FlatAssigned allocated.numVars builder
        (layoutEntries statement protocol.layout values witnesses evalOutputs evalBlindings) flat := by
  obtain ⟨-, -, allocated, step, checks⟩ := buildWithSources_eq made.valid made.built
  obtain ⟨⟨layout', allocated'⟩, step', built⟩ := except_bind_eq_ok.mp made.built
  obtain ⟨rfl, rfl⟩ := Prod.mk.inj (Except.ok.inj (step'.symm.trans step))
  obtain ⟨inserted, openings, built⟩ := except_bind_eq_ok.mp built
  obtain ⟨first, publicEntries, built⟩ := except_bind_eq_ok.mp built
  obtain ⟨table, challengeEntries, built⟩ := except_bind_eq_ok.mp built
  obtain ⟨final, appended, shown⟩ := except_bind_eq_ok.mp built
  obtain ⟨-, rfl⟩ := Prod.mk.inj (Except.ok.inj shown)
  have facts := allocateLayout_eq step
  have all := allStages_of_honest facts (validate_eq_ok made.valid).1 honest
  have tables := tableBuilt facts.stages.length_eq openings publicEntries challengeEntries
  have stageCount := facts.stages.length_eq
  have openingCount := facts.finalOpenings.length_eq
  have outputCount := honest.outputs.length_eq
  have keys := keys_layoutEntries facts values witnesses evalOutputs evalBlindings
  -- The constraints read the assigned openings and the products before them.
  have known := tables.known_of_entries (tables.inherits _ (all.inherited fun entry member =>
    List.mem_map_of_mem (f := Prod.fst) (List.mem_append_left (finalEntries protocol.layout.finalOpenings evalOutputs
      evalBlindings) member)))
  obtain ⟨constraints, grown, order⟩ := defines_append known appended
  obtain ⟨cells, run⟩ := facts.fresh.allocates
  have none_ : allocated'.intoMatrices.constraints = [] := by
    simp only [ConstraintMatrices.constraints, R1csBuilder.intoMatrices, run.a]
    rfl
  rw [none_, List.nil_append] at grown
  have positive : 0 < allocated'.numVars := facts.fresh.le
  obtain ⟨witness, reached, witness', solved, flat⟩ := solve_layout order grown keys positive fun z one assigned => by
    obtain ⟨stages, finals⟩ := assigned_append.mp assigned
    obtain ⟨holds, assignedOpenings⟩ := all.checks stages
    refine (checks z one values ⟨assignedOpenings, honest.publics, honest.challenges⟩).mpr
      ⟨R1csBuilder.satisfies_new z, holds, ?_⟩
    exact finalOpenings_hold honest.outputs openingCount (honest.blindings.trans openingCount) finals
  refine ⟨allocated', _, facts, ?_, flat⟩
  obtain ⟨count, size⟩ := Nat.exists_eq_succ_of_ne_zero (positive.trans_le order.le).ne'
  have vars : protocol.r1cs.numVars = count + 1 := by
    rw [made.r1cs]
    exact size
  rw [size, Nat.succ_sub_one, assignAll_append] at reached
  obtain ⟨middle, first, second⟩ := except_bind_eq_ok.mp reached
  refine except_bind_eq_ok.mpr ⟨(), ensureCount_eq (honest.fits.length_eq.symm.trans stageCount),
    except_bind_eq_ok.mpr ⟨(), ensureCount_eq ((List.length_map _).trans stageCount),
      except_bind_eq_ok.mpr ⟨(), ensureCount_eq (outputCount.symm.trans openingCount),
        except_bind_eq_ok.mpr ⟨(), ensureCount_eq (honest.blindings.trans openingCount), ?_⟩⟩⟩⟩
  rw [vars, List.replicate_succ]
  refine except_bind_eq_ok.mpr ⟨middle, ?_, except_bind_eq_ok.mpr ⟨witness, ?_, except_bind_eq_ok.mpr ⟨witness', ?_, rfl⟩⟩⟩
  · have run := assignStages_eq [] rounds facts.stages facts.rows honest.fits honest.stages
      (some 1 :: List.replicate count none)
    rw [List.nil_append, ← made.rounds] at run
    exact run.trans first
  · rw [assignFinalOpenings_eq (outputCount.symm.trans openingCount) (honest.blindings.trans openingCount)]
    exact second
  · rw [made.r1cs]
    exact solved

end

end JoltWasm.Blindfold
