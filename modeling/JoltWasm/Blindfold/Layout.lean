import JoltWasm.Blindfold.Statement

/-!
# Allocated layouts

The variables of a layout are fresh and different from each other, and the committed rows are consecutive.
-/

namespace JoltWasm.Blindfold

open R1cs Lib

section

variable {F O Com P Ch : Type} [Field F]

/-- Nothing but variables was added, `vars` among them and in their order. -/
structure Fresh (builder builder' : R1csBuilder F) (vars : List Variable) : Prop where
  allocates : ∃ values, R1csBuilder.Allocates builder builder' values
  sublist : (vars.map Variable.index).Sublist (List.range' builder.numVars (builder'.numVars - builder.numVars))

namespace Fresh

theorem le {builder builder' : R1csBuilder F} {vars : List Variable} (fresh : Fresh builder builder' vars) :
    builder.numVars ≤ builder'.numVars := by
  obtain ⟨values, run⟩ := fresh.allocates
  rw [run.numVars]
  exact Nat.le_add_right _ _

theorem satisfies {builder builder' : R1csBuilder F} {vars : List Variable} (fresh : Fresh builder builder' vars)
    (z : ℕ → F) : builder'.Satisfies z ↔ builder.Satisfies z := by
  obtain ⟨values, run⟩ := fresh.allocates
  exact run.satisfies z

theorem lt {builder builder' : R1csBuilder F} {vars : List Variable} (fresh : Fresh builder builder' vars)
    {v : Variable} (member : v ∈ vars) : v.index < builder'.numVars := by
  have le := fresh.le
  have within := List.mem_range'_1.mp (fresh.sublist.subset (List.mem_map_of_mem member))
  omega

theorem ge {builder builder' : R1csBuilder F} {vars : List Variable} (fresh : Fresh builder builder' vars)
    {v : Variable} (member : v ∈ vars) : builder.numVars ≤ v.index :=
  (List.mem_range'_1.mp (fresh.sublist.subset (List.mem_map_of_mem member))).1

theorem nodup {builder builder' : R1csBuilder F} {vars : List Variable} (fresh : Fresh builder builder' vars) :
    (vars.map Variable.index).Nodup := fresh.sublist.nodup List.nodup_range'

theorem refl (builder : R1csBuilder F) : Fresh builder builder [] :=
  ⟨⟨[], .refl builder⟩, List.nil_sublist _⟩

theorem trans {first second third : R1csBuilder F} {vars vars' : List Variable} (run : Fresh first second vars)
    (rest : Fresh second third vars') : Fresh first third (vars ++ vars') where
  allocates := by
    obtain ⟨_, run⟩ := run.allocates
    obtain ⟨_, rest⟩ := rest.allocates
    exact ⟨_, run.trans rest⟩
  sublist := by
    have le := run.le
    have le' := rest.le
    have split : List.range' first.numVars (third.numVars - first.numVars) =
        List.range' first.numVars (second.numVars - first.numVars) ++
          List.range' second.numVars (third.numVars - second.numVars) := by
      have joined := List.range'_append_1 (s := first.numVars) (m := second.numVars - first.numVars)
        (n := third.numVars - second.numVars)
      rw [Nat.add_sub_cancel' le] at joined
      rw [joined]
      exact congrArg (List.range' _) (by omega)
    rw [split, List.map_append]
    exact run.sublist.append rest.sublist

/-- Some of the variables. -/
theorem sub {builder builder' : R1csBuilder F} {vars vars' : List Variable} (fresh : Fresh builder builder' vars)
    (some : vars'.Sublist vars) : Fresh builder builder' vars' :=
  ⟨fresh.allocates, (some.map _).trans fresh.sublist⟩

theorem allocAll (builder : R1csBuilder F) (values : List (Option F)) :
    Fresh builder (builder.allocAll values).2 (builder.allocAll values).1 := by
  obtain ⟨named, run⟩ := builder.allocAll_eq values
  refine ⟨⟨values, run⟩, ?_⟩
  rw [named, List.map_map, run.numVars, Nat.add_sub_cancel_left]
  exact (List.map_id _).symm ▸ List.Sublist.refl _

theorem allocUnknown (builder : R1csBuilder F) : Fresh builder builder.allocUnknown.2 [builder.allocUnknown.1] :=
  allocAll builder [none]

end Fresh

/-! ## Committed rows -/

theorem allocateCoefficientRow_eq {builder builder' : R1csBuilder F} {rowLen : ℕ}
    {round : VerifiedCommittedRound F Com} {row : List Variable}
    (allocated : allocateCoefficientRow builder rowLen round = (row, builder')) :
    row = (List.range' builder.numVars (round.degree + 1)).map Variable.mk ∧ Fresh builder builder' row ∧
      (round.degree < rowLen → builder'.numVars = builder.numVars + rowLen) := by
  obtain ⟨named, run⟩ := allocUnknowns_eq builder (round.degree + 1)
  have first : Fresh builder (allocUnknowns builder (round.degree + 1)).2 (allocUnknowns builder (round.degree + 1)).1 :=
    Fresh.allocAll builder _
  rw [allocateCoefficientRow] at allocated
  generalize allocUnknowns builder (round.degree + 1) = step at allocated named run first
  obtain ⟨coefficients, middle⟩ := step
  simp only at allocated named run first
  have zeros := Fresh.allocAll middle (List.replicate (rowLen - coefficients.length) (some 0))
  obtain ⟨-, run'⟩ := middle.allocAll_eq (List.replicate (rowLen - coefficients.length) (some 0))
  generalize middle.allocAll (List.replicate (rowLen - coefficients.length) (some 0)) = step at allocated zeros run'
  obtain ⟨rest, final⟩ := step
  obtain ⟨rfl, rfl⟩ := Prod.mk.inj allocated
  refine ⟨named, (first.trans zeros).sub (List.sublist_append_left _ _), fun below => ?_⟩
  rw [run'.numVars, run.numVars, named, List.length_replicate, List.length_replicate, List.length_map,
    List.length_range']
  omega

/-- The coefficients of consecutive rows. -/
def coefficientRows (first rowLen : ℕ) : List (VerifiedCommittedRound F Com) → List (List Variable)
  | [] => []
  | round :: rounds =>
      (List.range' first (round.degree + 1)).map Variable.mk :: coefficientRows (first + rowLen) rowLen rounds

theorem allocateCoefficientRows_eq {builder builder' : R1csBuilder F} {rowLen : ℕ}
    {rounds : List (VerifiedCommittedRound F Com)} {rows : List (List Variable)}
    (allocated : allocateCoefficientRows builder rowLen rounds = (rows, builder'))
    (below : ∀ round ∈ rounds, round.degree < rowLen) :
    rows = coefficientRows builder.numVars rowLen rounds ∧ Fresh builder builder' rows.flatten ∧
      builder'.numVars = builder.numVars + rounds.length * rowLen := by
  induction rounds generalizing builder rows with
  | nil =>
      obtain ⟨rfl, rfl⟩ := Prod.mk.inj allocated
      exact ⟨rfl, .refl builder, by simp⟩
  | cons round rounds ih =>
      obtain ⟨here, below⟩ := List.forall_mem_cons.mp below
      rw [allocateCoefficientRows] at allocated
      generalize first : allocateCoefficientRow builder rowLen round = step at allocated
      obtain ⟨row, middle⟩ := step
      simp only at allocated
      generalize rest : allocateCoefficientRows middle rowLen rounds = step at allocated
      obtain ⟨tail, final⟩ := step
      obtain ⟨rfl, rfl⟩ := Prod.mk.inj allocated
      obtain ⟨named, fresh, size⟩ := allocateCoefficientRow_eq first
      obtain ⟨named', fresh', size'⟩ := ih rest below
      refine ⟨?_, fresh.trans fresh', ?_⟩
      · rw [coefficientRows, named, named', size here]
      · rw [size', size here, List.length_cons]
        ring

/-- The rows of the openings are consecutive. -/
theorem allocateOutputClaimRows_eq {builder builder' : R1csBuilder F} {rowLen witnessRowLen rowCount remaining : ℕ}
    {rows : List OutputClaimRowLayout}
    (allocated : allocateOutputClaimRows builder rowLen witnessRowLen rowCount remaining = (rows, builder')) :
    rows.length = rowCount ∧ (∀ row ∈ rows, row.vars.length = witnessRowLen) ∧
      (rows.flatMap fun row => row.vars) =
        (List.range' builder.numVars (rowCount * witnessRowLen)).map Variable.mk ∧
      Fresh builder builder' (rows.flatMap fun row => row.vars) ∧
      builder'.numVars = builder.numVars + rowCount * witnessRowLen := by
  induction rowCount generalizing builder rows remaining with
  | zero =>
      obtain ⟨rfl, rfl⟩ := Prod.mk.inj allocated
      exact ⟨rfl, nofun, by simp, .refl builder, by simp⟩
  | succ rowCount ih =>
      rw [allocateOutputClaimRows] at allocated
      generalize values : (List.range witnessRowLen).map (fun slot =>
        if slot < min remaining rowLen then none else some (0 : F)) = cells at allocated
      have count : cells.length = witnessRowLen := by rw [← values, List.length_map, List.length_range]
      obtain ⟨named, run⟩ := builder.allocAll_eq cells
      have fresh := Fresh.allocAll builder cells
      have size := run.numVars
      generalize first : builder.allocAll cells = step at allocated named size fresh
      obtain ⟨vars, middle⟩ := step
      simp only at allocated named size fresh
      generalize rest : allocateOutputClaimRows middle rowLen witnessRowLen rowCount (remaining - min remaining rowLen) =
        step at allocated
      obtain ⟨tail, final⟩ := step
      obtain ⟨rfl, rfl⟩ := Prod.mk.inj allocated
      obtain ⟨total, lengths, named', fresh', size'⟩ := ih rest
      rw [count] at size named
      have joined := List.range'_append_1 (s := builder.numVars) (m := witnessRowLen) (n := rowCount * witnessRowLen)
      have width : (rowCount + 1) * witnessRowLen = witnessRowLen + rowCount * witnessRowLen := by ring
      refine ⟨by rw [List.length_cons, total], List.forall_mem_cons.mpr ⟨?_, lengths⟩, ?_, ?_, ?_⟩
      · rw [named, List.length_map, List.length_range']
      · rw [List.flatMap_cons, named', named, size, ← List.map_append, joined, width]
      · rw [List.flatMap_cons]
        exact fresh.trans fresh'
      · rw [size', size, width]
        ring

omit [Field F] in
theorem coefficientRows_append (first rowLen : ℕ) (rounds rounds' : List (VerifiedCommittedRound F Com)) :
    coefficientRows first rowLen (rounds ++ rounds') =
      coefficientRows first rowLen rounds ++ coefficientRows (first + rounds.length * rowLen) rowLen rounds' := by
  induction rounds generalizing first with
  | nil => simp [coefficientRows]
  | cons round rounds ih =>
      have start : first + rowLen + rounds.length * rowLen = first + (rounds.length + 1) * rowLen := by ring
      rw [List.cons_append, coefficientRows, ih, coefficientRows, start]
      rfl

omit [Field F] in
/-- A row has a variable for each coefficient. -/
theorem forall₂_coefficientRows (first rowLen : ℕ) (rounds : List (VerifiedCommittedRound F Com)) :
    List.Forall₂ (fun row (round : VerifiedCommittedRound F Com) => row.length = round.degree + 1)
      (coefficientRows first rowLen rounds) rounds := by
  induction rounds generalizing first with
  | nil => exact .nil
  | cons round rounds ih =>
      refine .cons ?_ (ih _)
      rw [List.length_map, List.length_range']

/-- The rounds of the stages, in order. -/
def allRounds (stages : List (BlindFoldStage F O Com P Ch)) : List (VerifiedCommittedRound F Com) :=
  stages.flatMap fun stage => stage.rounds

/-- The rows of a stage match its rounds, which match its statement. -/
structure RowsMatch (stage : BlindFoldStage F O Com P Ch) (rows : List (List Variable)) : Prop where
  count : stage.statement.numVars = stage.rounds.length
  bound : ∀ round ∈ stage.rounds, round.degree ≤ stage.statement.degree
  lengths : List.Forall₂ (fun row (round : VerifiedCommittedRound F Com) => row.length = round.degree + 1)
    rows stage.rounds

theorem allocateStageCoefficients_eq {builder builder' : R1csBuilder F} {rowLen stageIndex : ℕ}
    {stages : List (BlindFoldStage F O Com P Ch)} {coefficients : List (List (List Variable))}
    (allocated : allocateStageCoefficients builder rowLen stageIndex stages = .ok (coefficients, builder'))
    (below : ∀ round ∈ allRounds stages, round.degree < rowLen) :
    List.Forall₂ RowsMatch stages coefficients ∧
      coefficients.flatten = coefficientRows builder.numVars rowLen (allRounds stages) ∧
      Fresh builder builder' coefficients.flatten.flatten ∧
      builder'.numVars = builder.numVars + (allRounds stages).length * rowLen := by
  induction stages generalizing builder stageIndex coefficients with
  | nil =>
      obtain ⟨rfl, rfl⟩ := Prod.mk.inj (Except.ok.inj allocated)
      exact ⟨.nil, rfl, .refl builder, by simp [allRounds]⟩
  | cons stage stages ih =>
      have all : allRounds (stage :: stages) = stage.rounds ++ allRounds stages := List.flatMap_cons
      rw [all, List.forall_mem_append] at below
      rw [allocateStageCoefficients] at allocated
      split at allocated
      · cases allocated
      next checked =>
        obtain ⟨count, bound⟩ := validateRoundsStatement_eq_ok.mp checked
        generalize first : allocateCoefficientRows builder rowLen stage.rounds = step at allocated
        obtain ⟨rows, middle⟩ := step
        obtain ⟨⟨tail, final⟩, rest, shown⟩ := except_bind_eq_ok.mp allocated
        obtain ⟨rfl, rfl⟩ := Prod.mk.inj (Except.ok.inj shown)
        obtain ⟨named, fresh, size⟩ := allocateCoefficientRows_eq first below.1
        obtain ⟨rowsMatch, named', fresh', size'⟩ := ih rest below.2
        have lengths := forall₂_coefficientRows builder.numVars rowLen stage.rounds
        rw [← named] at lengths
        refine ⟨.cons ⟨count, bound, lengths⟩ rowsMatch, ?_, ?_, ?_⟩
        · rw [List.flatten_cons, named, named', size, all, coefficientRows_append]
        · rw [List.flatten_cons, List.flatten_append]
          exact fresh.trans fresh'
        · rw [size', size, all, List.length_append]
          ring

/-- The number of committed rows of the openings. -/
def outputRowCount (stages : List (BlindFoldStage F O Com P Ch)) : ℕ :=
  (stages.map fun stage => stage.outputClaimRows.commitments.length).sum

/-- The rows of a stage's openings. -/
structure OutputRowsMatch (witnessRowLen : ℕ) (stage : BlindFoldStage F O Com P Ch)
    (rows : List OutputClaimRowLayout) : Prop where
  count : rows.length = stage.outputClaimRows.commitments.length
  widths : ∀ row ∈ rows, row.vars.length = witnessRowLen

theorem allocateStageRows_eq {builder builder' : R1csBuilder F} {witnessRowLen : ℕ}
    {stages : List (BlindFoldStage F O Com P Ch)} {rows : List (List OutputClaimRowLayout)}
    (allocated : allocateStageRows builder witnessRowLen stages = (rows, builder')) :
    List.Forall₂ (OutputRowsMatch witnessRowLen) stages rows ∧
      (rows.flatten.flatMap fun row => row.vars) =
        (List.range' builder.numVars (outputRowCount stages * witnessRowLen)).map Variable.mk ∧
      Fresh builder builder' (rows.flatten.flatMap fun row => row.vars) ∧
      builder'.numVars = builder.numVars + outputRowCount stages * witnessRowLen := by
  induction stages generalizing builder rows with
  | nil =>
      obtain ⟨rfl, rfl⟩ := Prod.mk.inj allocated
      exact ⟨.nil, by simp [outputRowCount], .refl builder, by simp [outputRowCount]⟩
  | cons stage stages ih =>
      rw [allocateStageRows] at allocated
      generalize first : allocateOutputClaimRows builder stage.outputClaimRows.rowLen witnessRowLen
        stage.outputClaimRows.commitments.length stage.outputClaimRows.openingIds.length = step at allocated
      obtain ⟨here, middle⟩ := step
      simp only at allocated
      generalize rest : allocateStageRows middle witnessRowLen stages = step at allocated
      obtain ⟨tail, final⟩ := step
      obtain ⟨rfl, rfl⟩ := Prod.mk.inj allocated
      obtain ⟨count, widths, named, fresh, size⟩ := allocateOutputClaimRows_eq first
      obtain ⟨rowsMatch, named', fresh', size'⟩ := ih rest
      have joined := List.range'_append_1 (s := builder.numVars)
        (m := stage.outputClaimRows.commitments.length * witnessRowLen) (n := outputRowCount stages * witnessRowLen)
      have total : outputRowCount (stage :: stages) * witnessRowLen =
          stage.outputClaimRows.commitments.length * witnessRowLen + outputRowCount stages * witnessRowLen := by
        rw [← Nat.add_mul]
        rfl
      refine ⟨.cons ⟨count, widths⟩ rowsMatch, ?_, ?_, ?_⟩
      · rw [List.flatten_cons, List.flatMap_append, named, named', size, ← List.map_append, joined, total]
      · rw [List.flatten_cons, List.flatMap_append]
        exact fresh.trans fresh'
      · rw [size', size, total, Nat.add_assoc]

/-! ## Claims -/

theorem allocateClaims_eq {builder builder' : R1csBuilder F} {first last : Variable} {rows : List (List Variable)}
    {rounds : List SumcheckR1csRoundLayout} (allocated : allocateClaims builder first rows = (rounds, last, builder')) :
    (rounds.map fun round => round.coefficients) = rows ∧ ClaimsLinked first rounds last ∧
      Fresh builder builder' (rounds.map fun round => round.claimOut) := by
  induction rows generalizing builder first rounds with
  | nil =>
      simp only [allocateClaims, Prod.mk.injEq] at allocated
      obtain ⟨rfl, rfl, rfl⟩ := allocated
      exact ⟨rfl, rfl, .refl builder⟩
  | cons row rows ih =>
      have fresh := Fresh.allocUnknown builder
      rw [allocateClaims] at allocated
      generalize builder.allocUnknown = step at allocated fresh
      obtain ⟨claimOut, middle⟩ := step
      simp only at allocated fresh
      generalize rest : allocateClaims middle claimOut rows = step at allocated
      obtain ⟨tail, last', final⟩ := step
      simp only [Prod.mk.injEq] at allocated
      obtain ⟨rfl, rfl, rfl⟩ := allocated
      obtain ⟨same, linked, fresh'⟩ := ih rest
      exact ⟨congrArg (row :: ·) same, ⟨rfl, linked⟩, fresh.trans fresh'⟩

/-- The claims of a stage. -/
def StageLayout.claims (layout : StageLayout) : List Variable :=
  layout.sumcheck.inputClaim :: layout.sumcheck.rounds.map fun round => round.claimOut

/-- A stage has the given coefficients and rows, and its claims are chained. -/
structure StageAllocated (layout : StageLayout) (coefficients : List (List Variable))
    (rows : List OutputClaimRowLayout) : Prop where
  coefficients : (layout.sumcheck.rounds.map fun round => round.coefficients) = coefficients
  rows : layout.outputClaimRows = rows
  linked : ClaimsLinked layout.sumcheck.inputClaim layout.sumcheck.rounds layout.sumcheck.outputClaim

theorem allocateStage_eq {builder builder' : R1csBuilder F} {coefficients : List (List Variable)}
    {rows : List OutputClaimRowLayout} {layout : StageLayout}
    (allocated : allocateStage builder coefficients rows = (layout, builder')) :
    StageAllocated layout coefficients rows ∧ Fresh builder builder' layout.claims := by
  have fresh := Fresh.allocUnknown builder
  rw [allocateStage] at allocated
  generalize builder.allocUnknown = step at allocated fresh
  obtain ⟨inputClaim, middle⟩ := step
  simp only at allocated fresh
  generalize rest : allocateClaims middle inputClaim coefficients = step at allocated
  obtain ⟨rounds, last, final⟩ := step
  obtain ⟨rfl, rfl⟩ := Prod.mk.inj allocated
  obtain ⟨same, linked, fresh'⟩ := allocateClaims_eq rest
  exact ⟨⟨same, rfl, linked⟩, fresh.trans fresh'⟩

theorem allocateStages_eq {builder builder' : R1csBuilder F} {coefficients : List (List (List Variable))}
    {rows : List (List OutputClaimRowLayout)} {layouts : List StageLayout}
    (allocated : allocateStages builder coefficients rows = (layouts, builder'))
    (same : coefficients.length = rows.length) :
    (layouts.map fun layout => layout.sumcheck.rounds.map fun round => round.coefficients) = coefficients ∧
      (layouts.map fun layout => layout.outputClaimRows) = rows ∧
      (∀ layout ∈ layouts, ClaimsLinked layout.sumcheck.inputClaim layout.sumcheck.rounds layout.sumcheck.outputClaim) ∧
      Fresh builder builder' (layouts.flatMap StageLayout.claims) := by
  induction coefficients generalizing builder rows layouts with
  | nil =>
      rw [allocateStages] at allocated
      · obtain ⟨rfl, rfl⟩ := Prod.mk.inj allocated
        obtain rfl := List.eq_nil_of_length_eq_zero same.symm
        exact ⟨rfl, rfl, nofun, .refl builder⟩
      · nofun
  | cons stage coefficients ih =>
      obtain ⟨row, rows, rfl⟩ := List.exists_cons_of_length_eq_add_one same.symm
      rw [allocateStages] at allocated
      generalize first : allocateStage builder stage row = step at allocated
      obtain ⟨layout, middle⟩ := step
      simp only at allocated
      generalize rest : allocateStages middle coefficients rows = step at allocated
      obtain ⟨tail, final⟩ := step
      obtain ⟨rfl, rfl⟩ := Prod.mk.inj allocated
      obtain ⟨here, fresh⟩ := allocateStage_eq first
      obtain ⟨coefficients', rows', linked, fresh'⟩ := ih rest (Nat.succ.inj same)
      refine ⟨?_, ?_, List.forall_mem_cons.mpr ⟨here.linked, linked⟩, ?_⟩
      · rw [List.map_cons, coefficients', here.coefficients]
      · rw [List.map_cons, rows', here.rows]
      · rw [List.flatMap_cons]
        exact fresh.trans fresh'

/-! ## Final openings -/

theorem padRow_fresh (witnessRowLen fuel : ℕ) (builder : R1csBuilder F) :
    Fresh builder (padRow witnessRowLen fuel builder) [] := by
  induction fuel generalizing builder with
  | zero => exact .refl builder
  | succ fuel ih =>
      rw [padRow]
      split_ifs
      · exact .refl builder
      · have zero : Fresh builder (builder.alloc 0).2 [] := (Fresh.allocAll builder [some 0]).sub (List.nil_sublist _)
        exact zero.trans (ih _)

theorem allocatePrivateRowScalar_fresh (builder : R1csBuilder F) (witnessRowLen : ℕ) :
    Fresh builder (allocatePrivateRowScalar builder witnessRowLen).2 [(allocatePrivateRowScalar builder witnessRowLen).1] :=
  ((padRow_fresh witnessRowLen witnessRowLen builder).trans (Fresh.allocUnknown _)).trans (padRow_fresh _ _ _)

/-- The variables of a final opening. -/
def FinalOpeningLayout.vars (layout : FinalOpeningLayout) : List Variable :=
  layout.evaluation.toList ++ layout.blinding.toList

/-- A final opening that is not empty has an evaluation and a blinding. -/
structure FinalOpeningMatch (binding : FinalOpeningBinding F O Com) (layout : FinalOpeningLayout) : Prop where
  evaluation : layout.evaluation = none ↔ binding.openingIds = []
  blinding : layout.blinding = none ↔ binding.openingIds = []

theorem allocateFinalOpenings_eq {builder builder' : R1csBuilder F} {witnessRowLen : ℕ}
    {bindings : List (FinalOpeningBinding F O Com)} {layouts : List FinalOpeningLayout}
    (allocated : allocateFinalOpenings builder witnessRowLen bindings = (layouts, builder')) :
    List.Forall₂ FinalOpeningMatch bindings layouts ∧ Fresh builder builder' (layouts.flatMap FinalOpeningLayout.vars) := by
  induction bindings generalizing builder layouts with
  | nil =>
      obtain ⟨rfl, rfl⟩ := Prod.mk.inj allocated
      exact ⟨.nil, .refl builder⟩
  | cons binding bindings ih =>
      rw [allocateFinalOpenings] at allocated
      split_ifs at allocated with empty
      · generalize rest : allocateFinalOpenings builder witnessRowLen bindings = step at allocated
        obtain ⟨tail, final⟩ := step
        obtain ⟨rfl, rfl⟩ := Prod.mk.inj allocated
        obtain ⟨there, fresh⟩ := ih rest
        exact ⟨.cons ⟨by simp [empty], by simp [empty]⟩ there, fresh⟩
      · have first := allocatePrivateRowScalar_fresh builder witnessRowLen
        generalize allocatePrivateRowScalar builder witnessRowLen = step at allocated first
        obtain ⟨evaluation, middle⟩ := step
        simp only at allocated first
        have second := allocatePrivateRowScalar_fresh middle witnessRowLen
        generalize allocatePrivateRowScalar middle witnessRowLen = step at allocated second
        obtain ⟨blinding, middle⟩ := step
        simp only at allocated second
        generalize rest : allocateFinalOpenings middle witnessRowLen bindings = step at allocated
        obtain ⟨tail, final⟩ := step
        obtain ⟨rfl, rfl⟩ := Prod.mk.inj allocated
        obtain ⟨there, fresh⟩ := ih rest
        exact ⟨.cons ⟨by simp [empty], by simp [empty]⟩ there, (first.trans second).trans fresh⟩

/-! ## The whole layout -/

omit [Field F] in
theorem witnessRowLen_eq {statement : BlindFoldStatement F O Com P Ch} {rowLen : ℕ}
    (found : witnessRowLen statement = .ok rowLen) :
    0 < rowLen ∧ (∀ round ∈ allRounds statement.stages, round.degree < rowLen) ∧
      ∀ stage ∈ statement.stages, stage.outputClaimRows.rowLen ≤ rowLen := by
  unfold witnessRowLen at found
  generalize rounds : ((statement.stages.flatMap fun stage => stage.rounds).map fun round =>
    min (round.degree + 1) usizeMax).max?.getD 1 = roundCoefficients at found
  generalize outputs : (statement.stages.map fun stage => stage.outputClaimRows.rowLen).max?.getD 0 = outputRowLen at found
  simp only [checkedNextPowerOfTwo] at found
  split_ifs at found with fits
  obtain rfl := Except.ok.inj found
  have large := Nat.le_pow_clog (b := 2) Nat.one_lt_two (max (max roundCoefficients outputRowLen) 1)
  refine ⟨by positivity, fun round member => ?_, fun stage member => ?_⟩
  · have below := List.le_max?_getD_of_mem (k := 1) (List.mem_map_of_mem (f := fun round : VerifiedCommittedRound F Com =>
      min (round.degree + 1) usizeMax) member)
    rw [allRounds, rounds, usizeMax] at below
    omega
  · have below := List.le_max?_getD_of_mem (k := 0) (List.mem_map_of_mem
      (f := fun stage : BlindFoldStage F O Com P Ch => stage.outputClaimRows.rowLen) member)
    rw [outputs] at below
    omega

/-- What an allocation gives. -/
structure LayoutAllocated (statement : BlindFoldStatement F O Com P Ch) (builder builder' : R1csBuilder F)
    (layout : Layout) : Prop where
  positive : 0 < layout.witnessRowLen
  degrees : ∀ round ∈ allRounds statement.stages, round.degree < layout.witnessRowLen
  widths : ∀ stage ∈ statement.stages, stage.outputClaimRows.rowLen ≤ layout.witnessRowLen
  stages : List.Forall₂ (fun stage (layout : StageLayout) =>
    RowsMatch stage (layout.sumcheck.rounds.map fun round => round.coefficients)) statement.stages layout.stages
  rows : List.Forall₂ (fun stage (stageLayout : StageLayout) =>
    OutputRowsMatch layout.witnessRowLen stage stageLayout.outputClaimRows) statement.stages layout.stages
  linked : ∀ stage ∈ layout.stages, ClaimsLinked stage.sumcheck.inputClaim stage.sumcheck.rounds stage.sumcheck.outputClaim
  finalOpenings : List.Forall₂ FinalOpeningMatch statement.finalOpenings layout.finalOpenings
  /-- The rows of the coefficients come first. -/
  coefficientRows : (layout.stages.flatMap fun stage => stage.sumcheck.rounds.map fun round => round.coefficients) =
    coefficientRows builder.numVars layout.witnessRowLen (allRounds statement.stages)
  /-- The rows of the openings come after them. -/
  openingRows : (layout.stages.flatMap fun stage => stage.outputClaimRows.flatMap fun row => row.vars) =
    (List.range' (builder.numVars + (allRounds statement.stages).length * layout.witnessRowLen)
      (outputRowCount statement.stages * layout.witnessRowLen)).map Variable.mk
  /-- The claims and the final openings come last. -/
  room : builder.numVars + (allRounds statement.stages).length * layout.witnessRowLen +
    outputRowCount statement.stages * layout.witnessRowLen ≤ builder'.numVars
  after : ∀ v ∈ layout.stages.flatMap StageLayout.claims ++ layout.finalOpenings.flatMap FinalOpeningLayout.vars,
    builder.numVars + (allRounds statement.stages).length * layout.witnessRowLen +
      outputRowCount statement.stages * layout.witnessRowLen ≤ v.index
  fresh : Fresh builder builder'
    ((layout.stages.flatMap fun stage => stage.sumcheck.rounds.flatMap fun round => round.coefficients) ++
      (layout.stages.flatMap fun stage => stage.outputClaimRows.flatMap fun row => row.vars) ++
      layout.stages.flatMap StageLayout.claims ++ layout.finalOpenings.flatMap FinalOpeningLayout.vars)

theorem allocateLayout_eq {statement : BlindFoldStatement F O Com P Ch} {builder builder' : R1csBuilder F}
    {layout : Layout} (allocated : statement.allocateLayout builder = .ok (layout, builder')) :
    LayoutAllocated statement builder builder' layout := by
  obtain ⟨rowLen, found, allocated⟩ := except_bind_eq_ok.mp allocated
  obtain ⟨positive, degrees, widths⟩ := witnessRowLen_eq found
  obtain ⟨⟨coefficients, first⟩, step, allocated⟩ := except_bind_eq_ok.mp allocated
  obtain ⟨rowsMatch, named, fresh, size⟩ := allocateStageCoefficients_eq step degrees
  simp only at allocated
  generalize step : allocateStageRows first rowLen statement.stages = result at allocated
  obtain ⟨rows, second⟩ := result
  obtain ⟨outputsMatch, namedRows, freshRows, size'⟩ := allocateStageRows_eq step
  simp only at allocated
  generalize step : allocateStages second coefficients rows = result at allocated
  obtain ⟨stages, third⟩ := result
  obtain ⟨sameCoefficients, sameRows, linked, freshClaims⟩ := allocateStages_eq step
    (rowsMatch.length_eq.symm.trans outputsMatch.length_eq)
  simp only at allocated
  generalize step : allocateFinalOpenings third rowLen statement.finalOpenings = result at allocated
  obtain ⟨finalOpenings, fourth⟩ := result
  obtain ⟨finals, freshFinals⟩ := allocateFinalOpenings_eq step
  obtain ⟨rfl, rfl⟩ := Prod.mk.inj (Except.ok.inj allocated)
  subst sameCoefficients sameRows
  rw [List.forall₂_map_right_iff] at rowsMatch outputsMatch
  rw [← List.flatMap_def] at named fresh namedRows freshRows
  rw [List.flatMap_assoc] at namedRows freshRows
  rw [size] at namedRows
  have flattened : (stages.flatMap fun stage => stage.sumcheck.rounds.map fun round => round.coefficients).flatten =
      stages.flatMap fun stage => stage.sumcheck.rounds.flatMap fun round => round.coefficients := by
    rw [List.flatten_eq_flatMap, List.flatMap_assoc]
    refine congrArg (stages.flatMap ·) (funext fun stage => ?_)
    rw [← List.flatten_eq_flatMap, List.flatMap_def]
  rw [flattened] at fresh
  have last := freshClaims.trans freshFinals
  refine ⟨positive, degrees, widths, rowsMatch, outputsMatch, linked, finals, named, namedRows, ?_, fun v member => ?_,
    ((fresh.trans freshRows).trans freshClaims).trans freshFinals⟩
  · have le := last.le
    rwa [size', size] at le
  · have from_ := last.ge member
    rwa [size', size] at from_

/-! ## Validity -/

/-- Every claim of a chain is the first one or comes out of a round. -/
theorem ClaimsLinked.mem {first last : Variable} {rounds : List SumcheckR1csRoundLayout}
    (linked : ClaimsLinked first rounds last) :
    (∀ round ∈ rounds, round.claimIn ∈ first :: rounds.map fun round => round.claimOut) ∧
      last ∈ first :: rounds.map fun round => round.claimOut := by
  induction rounds generalizing first with
  | nil =>
      obtain rfl := linked
      exact ⟨nofun, List.mem_cons_self⟩
  | cons round rounds ih =>
      obtain ⟨rfl, linked⟩ := linked
      obtain ⟨inside, final⟩ := ih linked
      refine ⟨List.forall_mem_cons.mpr ⟨List.mem_cons_self, fun other member => ?_⟩, List.mem_cons_of_mem _ final⟩
      exact List.mem_cons_of_mem _ (inside other member)

/-- What is related to a member of the first list. -/
theorem exists_of_mem_left {α β : Type} {R : α → β → Prop} {xs : List α} {ys : List β} (related : List.Forall₂ R xs ys)
    {x : α} (member : x ∈ xs) : ∃ y ∈ ys, R x y := by
  induction related with
  | nil => cases member
  | cons here _ ih =>
      rcases List.mem_cons.mp member with rfl | later
      · exact ⟨_, List.mem_cons_self, here⟩
      · obtain ⟨y, among, holds⟩ := ih later
        exact ⟨y, List.mem_cons_of_mem _ among, holds⟩

omit [Field F] in
theorem RowsMatch.valid {stage : BlindFoldStage F O Com P Ch} {layout : StageLayout} {numVars : ℕ}
    (rows : RowsMatch stage (layout.sumcheck.rounds.map fun round => round.coefficients))
    (linked : ClaimsLinked layout.sumcheck.inputClaim layout.sumcheck.rounds layout.sumcheck.outputClaim)
    (claims : ∀ v ∈ layout.claims, v.index < numVars)
    (coefficients : ∀ round ∈ layout.sumcheck.rounds, ∀ v ∈ round.coefficients, v.index < numVars) :
    LayoutValid numVars stage.statement stage.rounds layout.sumcheck := by
  obtain ⟨inside, final⟩ := ClaimsLinked.mem linked
  have lengths := rows.lengths
  rw [List.forall₂_map_left_iff] at lengths
  refine ⟨rows.count, rows.bound, claims _ List.mem_cons_self, claims _ final, fun round member => ?_, ?_, linked⟩
  · have out : round.claimOut ∈ layout.claims := List.mem_cons_of_mem _ (List.mem_map_of_mem member)
    refine ⟨claims _ (inside round member), claims _ out, coefficients round member, fun empty => ?_⟩
    obtain ⟨_, _, length⟩ := exists_of_mem_left lengths member
    rw [empty] at length
    cases length
  · exact lengths.imp fun layout round length => by
      rw [SumcheckR1csRoundLayout.degree, length]
      rfl

theorem LayoutAllocated.valid {statement : BlindFoldStatement F O Com P Ch} {builder builder' : R1csBuilder F}
    {layout : Layout} (allocated : LayoutAllocated statement builder builder' layout) :
    List.Forall₂ (fun stage (layout : StageLayout) =>
      LayoutValid builder'.numVars stage.statement stage.rounds layout.sumcheck) statement.stages layout.stages := by
  refine List.forall₂_iff_zip.mpr ⟨allocated.stages.length_eq, fun {stage stageLayout} member => ?_⟩
  have rows := (List.forall₂_iff_zip.mp allocated.stages).2 member
  have among := (List.of_mem_zip member).2
  refine rows.valid (allocated.linked _ among) (fun v within => allocated.fresh.lt ?_)
    fun round there v within => allocated.fresh.lt ?_
  · exact List.mem_append_left _ (List.mem_append_right _ (List.mem_flatMap.mpr ⟨stageLayout, among, within⟩))
  · exact List.mem_append_left _ (List.mem_append_left _ (List.mem_append_left _ (List.mem_flatMap.mpr
      ⟨stageLayout, among, List.mem_flatMap.mpr ⟨round, there, within⟩⟩)))

end

end JoltWasm.Blindfold
