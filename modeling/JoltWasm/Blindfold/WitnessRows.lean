import JoltWasm.Blindfold.FlatWitness
import JoltWasm.Blindfold.Folding

/-!
# The rows of a witness

The entries of the layout fill consecutive rows in the order of the rounds and of the committed openings, with zeros
at their ends, and all other variables come after them.
-/

namespace JoltWasm.Blindfold

open R1cs Lib

section

variable {F O Com P Ch : Type}

/-! ## Rows of one length -/

theorem length_resize {α : Type} (values : List α) (length : ℕ) (fill : α) : (resize values length fill).length = length := by
  rw [resize, List.length_append, List.length_take, List.length_replicate]
  omega

theorem resize_of_le {α : Type} {values : List α} {length : ℕ} (le : values.length ≤ length) (fill : α) :
    resize values length fill = values ++ List.replicate (length - values.length) fill := by
  rw [resize, List.take_of_length_le le]

/-- Rows of one length are the chunks of their values. -/
theorem chunks_flatten {α : Type} {rows : List (List α)} {len : ℕ} (widths : ∀ row ∈ rows, row.length = len) :
    chunks len rows.length rows.flatten = rows := by
  induction rows with
  | nil => rfl
  | cons row rows ih =>
      obtain ⟨width, widths⟩ := List.forall_mem_cons.mp widths
      rw [List.length_cons, chunks, List.flatten_cons, List.take_left' width, List.drop_left' width, ih widths]

/-! ## Entries of consecutive rows -/

/-- The entries of rows that start at `first`, one `rowLen` after the other. -/
def gridEntries (first rowLen : ℕ) : List (List F) → List (ℕ × F)
  | [] => []
  | values :: rows => (List.range' first values.length).zip values ++ gridEntries (first + rowLen) rowLen rows

theorem gridEntries_append (first rowLen : ℕ) (rows rows' : List (List F)) :
    gridEntries first rowLen (rows ++ rows') =
      gridEntries first rowLen rows ++ gridEntries (first + rows.length * rowLen) rowLen rows' := by
  induction rows generalizing first with
  | nil => simp [gridEntries]
  | cons values rows ih =>
      have start : first + rowLen + rows.length * rowLen = first + (rows.length + 1) * rowLen := by ring
      rw [List.cons_append, gridEntries, gridEntries, ih, start, List.append_assoc]
      rfl

theorem gridEntries_ge {first rowLen : ℕ} {rows : List (List F)} {entry : ℕ × F}
    (member : entry ∈ gridEntries first rowLen rows) : first ≤ entry.1 := by
  induction rows generalizing first with
  | nil => cases member
  | cons values rows ih =>
      rcases List.mem_append.mp member with here | later
      · exact (List.mem_range'_1.mp (List.of_mem_zip here).1).1
      · exact (Nat.le_add_right first rowLen).trans (ih later)

variable [Field F]

omit [Field F] in
theorem map_of_assigned {z : ℕ → F} {keys : List ℕ} {values : List F} (same : keys.length = values.length)
    (assigned : Assigned z (keys.zip values)) : keys.map z = values := by
  induction keys generalizing values with
  | nil => exact (List.eq_nil_of_length_eq_zero same.symm).symm
  | cons key keys ih =>
      obtain ⟨value, values, rfl⟩ := List.exists_cons_of_length_eq_add_one same.symm
      obtain ⟨here, assigned⟩ := assigned_cons.mp assigned
      rw [List.map_cons, ih (Nat.succ.inj same) assigned]
      exact congrArg (· :: values) here

/-- With zeros where there is no entry, the values are the rows, filled up with zeros. -/
theorem map_grid {z : ℕ → F} {first rowLen : ℕ} {rows : List (List F)} (short : ∀ row ∈ rows, row.length ≤ rowLen)
    (assigned : Assigned z (gridEntries first rowLen rows))
    (zeros : ∀ index, first ≤ index → index < first + rows.length * rowLen →
      index ∉ (gridEntries first rowLen rows).map Prod.fst → z index = 0) :
    (List.range' first (rows.length * rowLen)).map z = (rows.map fun row => resize row rowLen 0).flatten := by
  induction rows generalizing first with
  | nil => simp
  | cons values rows ih =>
      obtain ⟨fits, short⟩ := List.forall_mem_cons.mp short
      obtain ⟨here, later⟩ := assigned_append.mp assigned
      have total : (values :: rows).length * rowLen = values.length + (rowLen - values.length) + rows.length * rowLen := by
        rw [List.length_cons, Nat.add_mul, Nat.one_mul]
        omega
      have keys (index : ℕ) : index ∈ (gridEntries first rowLen (values :: rows)).map Prod.fst →
          index < first + values.length ∨ index ∈ (gridEntries (first + rowLen) rowLen rows).map Prod.fst := by
        rw [gridEntries, List.map_append, List.mem_append]
        refine Or.imp (fun head => ?_) id
        obtain ⟨entry, among, rfl⟩ := List.mem_map.mp head
        exact (List.mem_range'_1.mp (List.of_mem_zip among).1).2
      have rest := ih short later fun index after below absent => zeros index (by omega) (by omega)
        fun member => (keys index member).elim (by omega) absent
      have filled : (List.range' (first + values.length) (rowLen - values.length)).map z =
          List.replicate (rowLen - values.length) 0 := by
        refine List.eq_replicate_iff.mpr ⟨by rw [List.length_map, List.length_range'], fun value member => ?_⟩
        obtain ⟨index, within, rfl⟩ := List.mem_map.mp member
        obtain ⟨after, below⟩ := List.mem_range'_1.mp within
        refine zeros index (by omega) (by omega) fun present => (keys index present).elim (by omega) fun among => ?_
        obtain ⟨entry, tail, rfl⟩ := List.mem_map.mp among
        exact absurd (gridEntries_ge tail) (by omega)
      have split : List.range' first ((values :: rows).length * rowLen) = List.range' first values.length ++
          (List.range' (first + values.length) (rowLen - values.length) ++
            List.range' (first + rowLen) (rows.length * rowLen)) := by
        have place : first + rowLen = first + values.length + (rowLen - values.length) := by omega
        rw [total, place, List.range'_append_1, List.range'_append_1, Nat.add_assoc]
      rw [split, List.map_append, List.map_append, map_of_assigned (List.length_range' ..) here, filled, rest,
        List.map_cons, List.flatten_cons, resize_of_le fits, List.append_assoc]

/-! ## Where the entries of the layout are -/

/-- The entries of rows of variables. -/
def cellEntries (rows : List (List Variable)) (values : List (List F)) : List (ℕ × F) :=
  (List.zipWith pairs rows values).flatten

omit [Field F] in
theorem cellEntries_append {rows : List (List Variable)} {values : List (List F)} (same : rows.length = values.length)
    (rows' : List (List Variable)) (values' : List (List F)) :
    cellEntries (rows ++ rows') (values ++ values') = cellEntries rows values ++ cellEntries rows' values' := by
  rw [cellEntries, List.zipWith_append same, List.flatten_append]
  rfl

omit [Field F] in
theorem pairs_range' {values : List F} {count : ℕ} (fits : values.length ≤ count) (first : ℕ) :
    pairs ((List.range' first count).map Variable.mk) values = (List.range' first values.length).zip values := by
  have split : List.range' first count = List.range' first values.length ++
      List.range' (first + values.length) (count - values.length) := by
    rw [List.range'_append_1, Nat.add_sub_cancel' fits]
  have indices : ((List.range' first count).map Variable.mk).map Variable.index = List.range' first count := by
    rw [List.map_map]
    exact List.map_id _
  have joined : (List.range' first values.length ++ List.range' (first + values.length) (count - values.length)).zip
      (values ++ []) = _ := List.zip_append List.length_range'
  rw [List.append_nil, List.zip_nil_right, List.append_nil] at joined
  rw [pairs, indices, split, joined]

omit [Field F] in
theorem cellEntries_coefficients {rounds : List (VerifiedCommittedRound F Com)} {cells : List (List F)}
    (lengths : List.Forall₂ (fun row (round : VerifiedCommittedRound F Com) => row.length = round.degree + 1) cells rounds)
    (first rowLen : ℕ) : cellEntries (coefficientRows first rowLen rounds) cells = gridEntries first rowLen cells := by
  induction lengths generalizing first with
  | nil => rfl
  | @cons row round cells rounds same _ ih =>
      have head := pairs_range' same.le first
      rw [coefficientRows, gridEntries, ← ih, ← head]
      rfl

omit [Field F] in
theorem cellEntries_rows {rows : List (List Variable)} {cells : List (List F)} {rowLen : ℕ}
    (widths : ∀ row ∈ rows, row.length = rowLen)
    (short : List.Forall₂ (fun (row : List Variable) (values : List F) => values.length ≤ row.length) rows cells) {first : ℕ}
    (flat : rows.flatten = (List.range' first (rows.length * rowLen)).map Variable.mk) :
    cellEntries rows cells = gridEntries first rowLen cells := by
  induction short generalizing first with
  | nil => rfl
  | @cons row values rows cells fits _ ih =>
      obtain ⟨width, later⟩ := List.forall_mem_cons.mp widths
      have total : (row :: rows).length * rowLen = rowLen + rows.length * rowLen := by
        rw [List.length_cons]
        ring
      rw [total, ← List.range'_append_1, List.map_append, List.flatten_cons] at flat
      obtain ⟨here, rest⟩ := List.append_inj flat (by rw [width, List.length_map, List.length_range'])
      have head := pairs_range' (width ▸ fits) first
      rw [← here] at head
      rw [gridEntries, ← ih later rest, ← head]
      rfl

omit [Field F] in
theorem rowEntries_eq (rows : List OutputClaimRowLayout) (values : List (List F)) :
    rowEntries rows values = cellEntries (rows.map fun row => row.vars) values := by
  induction rows generalizing values with
  | nil => rfl
  | cons row rows ih =>
      cases values with
      | nil => rfl
      | cons first values =>
          rw [rowEntries, ih]
          rfl

/-- The entries of the rounds: the coefficients, and the claims between the rounds. -/
theorem roundEntries_perm {coefficients : List (List F)} {rounds : List (VerifiedCommittedRound F Com)}
    {layouts : List SumcheckR1csRoundLayout} (lengths : RoundLengths coefficients rounds layouts) :
    ∃ claims : List (ℕ × F), (roundEntries coefficients rounds layouts).Perm
      (cellEntries (layouts.map fun round => round.coefficients) coefficients ++ claims) ∧
        ∀ entry ∈ claims, ∃ round ∈ layouts, entry.1 = round.claimOut.index := by
  obtain ⟨degrees, counts⟩ := lengths
  induction degrees generalizing layouts with
  | nil =>
      obtain rfl := List.forall₂_nil_left_iff.mp counts
      exact ⟨[], .refl _, nofun⟩
  | @cons row round coefficients rounds _ _ ih =>
      obtain ⟨layout, later, _, countsLater, rfl⟩ := List.forall₂_cons_left_iff.mp counts
      obtain ⟨claims, perm, named⟩ := ih countsLater
      refine ⟨(layout.claimOut.index, evaluateAt row round.challenge) :: claims, ?_,
        List.forall_mem_cons.mpr ⟨⟨layout, List.mem_cons_self, rfl⟩, fun entry member => ?_⟩⟩
      · have cells : cellEntries ((layout :: later).map fun round => round.coefficients) (row :: coefficients) =
            pairs layout.coefficients row ++ cellEntries (later.map fun round => round.coefficients) coefficients := rfl
        rw [roundEntries, cells, List.append_assoc]
        exact ((perm.cons _).trans List.perm_middle.symm).append_left _
      · obtain ⟨round, among, same⟩ := named entry member
        exact ⟨round, List.mem_cons_of_mem _ among, same⟩

/-- The entries of the stages: the coefficients, the openings and the claims. -/
theorem AllStages.entries_perm {rowLen : ℕ} {values : SourceValues F O P Ch} {stages : List (BlindFoldStage F O Com P Ch)}
    {layouts : List StageLayout} {witnesses : List (CommittedSumcheckWitness F)}
    (all : AllStages rowLen values stages layouts witnesses) :
    ∃ claims : List (ℕ × F), (stagesEntries values stages layouts witnesses).Perm
      (cellEntries (layouts.flatMap fun stage => stage.sumcheck.rounds.map fun round => round.coefficients)
          (witnesses.flatMap fun witness => witness.roundCoefficients) ++
        cellEntries (layouts.flatMap fun stage => stage.outputClaimRows.map fun row => row.vars)
          (witnesses.flatMap fun witness => witness.outputClaimRows) ++ claims) ∧
        ∀ entry ∈ claims, ∃ v ∈ layouts.flatMap StageLayout.claims, entry.1 = v.index := by
  induction all with
  | nil => exact ⟨[], .refl _, nofun⟩
  | @cons stage layout witness stages layouts witnesses here later ih =>
      obtain ⟨claims, perm, named⟩ := ih
      have lengths := here.fits.lengths here.rows
      obtain ⟨first, perm', named'⟩ := roundEntries_perm lengths
      have rowCount := (here.fits.rows here.outputs).length_eq
      refine ⟨(layout.sumcheck.inputClaim.index, stage.inputClaim.evaluate values) :: (first ++ claims), ?_, ?_⟩
      · rw [stagesEntries, stageEntries, List.flatMap_cons, List.flatMap_cons, List.flatMap_cons, List.flatMap_cons,
          cellEntries_append (by rw [List.length_map, lengths.2.length_eq]), rowEntries_eq,
          cellEntries_append (by rw [List.length_map, rowCount])]
        classical
        refine (((perm'.append_right _).cons _).append perm).trans (List.perm_iff_count.mpr fun entry => ?_)
        simp only [List.count_append, List.count_cons]
        omega
      · have mine : ∀ v ∈ layout.claims, v ∈ (layout :: layouts).flatMap StageLayout.claims := fun v member =>
          List.mem_flatMap.mpr ⟨layout, List.mem_cons_self, member⟩
        refine List.forall_mem_cons.mpr ⟨⟨_, mine _ List.mem_cons_self, rfl⟩, List.forall_mem_append.mpr
          ⟨fun entry member => ?_, fun entry member => ?_⟩⟩
        · obtain ⟨round, among, same⟩ := named' entry member
          exact ⟨_, mine _ (List.mem_cons_of_mem _ (List.mem_map_of_mem among)), same⟩
        · obtain ⟨v, among, same⟩ := named entry member
          rw [List.flatMap_cons]
          exact ⟨v, List.mem_append_right _ among, same⟩

/-- The rows of all rounds and of all openings fit their variables. -/
theorem AllStages.cells {rowLen : ℕ} {values : SourceValues F O P Ch} {stages : List (BlindFoldStage F O Com P Ch)}
    {layouts : List StageLayout} {witnesses : List (CommittedSumcheckWitness F)}
    (all : AllStages rowLen values stages layouts witnesses) :
    List.Forall₂ (fun row (round : VerifiedCommittedRound F Com) => row.length = round.degree + 1)
        (witnesses.flatMap fun witness => witness.roundCoefficients) (allRounds stages) ∧
      List.Forall₂ (fun (row : List Variable) (values : List F) => values.length ≤ row.length)
        (layouts.flatMap fun stage => stage.outputClaimRows.map fun row => row.vars)
        (witnesses.flatMap fun witness => witness.outputClaimRows) ∧
      (∀ row ∈ layouts.flatMap fun stage => stage.outputClaimRows.map fun row => row.vars, row.length = rowLen) ∧
      (witnesses.flatMap fun witness => witness.outputClaimRows).length = outputRowCount stages := by
  induction all with
  | nil => exact ⟨.nil, .nil, nofun, rfl⟩
  | @cons stage layout witness stages layouts witnesses here later ih =>
      obtain ⟨coefficients, rows, widths, count⟩ := ih
      refine ⟨List.rel_append here.fits.degrees coefficients,
        List.rel_append (List.forall₂_map_left_iff.mpr (here.fits.rows here.outputs)) rows, ?_, ?_⟩
      · rw [List.flatMap_cons]
        exact List.forall_mem_append.mpr ⟨List.forall_mem_map.mpr here.outputs.widths, widths⟩
      · rw [List.flatMap_cons, List.length_append, count, here.fits.rowCount]
        rfl

/-- The committed rows: the coefficients of the rounds, then the openings. -/
def committedRows (witnesses : List (CommittedSumcheckWitness F)) : List (List F) :=
  (witnesses.flatMap fun witness => witness.roundCoefficients) ++ witnesses.flatMap fun witness => witness.outputClaimRows

/-- Their number. -/
def committedCount (stages : List (BlindFoldStage F O Com P Ch)) : ℕ := (allRounds stages).length + outputRowCount stages

theorem AllStages.length_committedRows {rowLen : ℕ} {values : SourceValues F O P Ch}
    {stages : List (BlindFoldStage F O Com P Ch)} {layouts : List StageLayout}
    {witnesses : List (CommittedSumcheckWitness F)} (all : AllStages rowLen values stages layouts witnesses) :
    (committedRows witnesses).length = committedCount stages := by
  obtain ⟨coefficients, -, -, count⟩ := all.cells
  rw [committedRows, List.length_append, coefficients.length_eq, count]
  rfl

theorem AllStages.committedRows_le {statement : BlindFoldStatement F O Com P Ch} {builder builder' : R1csBuilder F}
    {layout : Layout} (allocated : LayoutAllocated statement builder builder' layout) {values : SourceValues F O P Ch}
    {witnesses : List (CommittedSumcheckWitness F)}
    (all : AllStages layout.witnessRowLen values statement.stages layout.stages witnesses) :
    ∀ row ∈ committedRows witnesses, row.length ≤ layout.witnessRowLen := by
  obtain ⟨coefficients, rows, widths, -⟩ := all.cells
  refine List.forall_mem_append.mpr ⟨fun row member => ?_, fun row member => ?_⟩
  · obtain ⟨round, among, length⟩ := exists_of_mem_left coefficients member
    have below := allocated.degrees round among
    omega
  · obtain ⟨vars, among, fits⟩ := exists_of_mem_left rows.flip member
    exact fits.trans (widths vars among).le

/-- The entries of the layout are those of the committed rows, and of variables after them. -/
theorem layoutEntries_perm {statement : BlindFoldStatement F O Com P Ch} {builder builder' : R1csBuilder F}
    {layout : Layout} (allocated : LayoutAllocated statement builder builder' layout) {values : SourceValues F O P Ch}
    {witnesses : List (CommittedSumcheckWitness F)}
    (all : AllStages layout.witnessRowLen values statement.stages layout.stages witnesses)
    (evalOutputs evalBlindings : List F) :
    ∃ rest : List (ℕ × F), (layoutEntries statement layout values witnesses evalOutputs evalBlindings).Perm
      (gridEntries builder.numVars layout.witnessRowLen (committedRows witnesses) ++ rest) ∧
        ∀ entry ∈ rest, builder.numVars + committedCount statement.stages * layout.witnessRowLen ≤ entry.1 := by
  obtain ⟨claims, perm, named⟩ := all.entries_perm
  obtain ⟨coefficients, rows, widths, count⟩ := all.cells
  have rowCount : (layout.stages.flatMap fun stage => stage.outputClaimRows.map fun row => row.vars).length =
      outputRowCount statement.stages := rows.length_eq.trans count
  have flat : (layout.stages.flatMap fun stage => stage.outputClaimRows.map fun row => row.vars).flatten =
      (List.range' (builder.numVars + (witnesses.flatMap fun witness => witness.roundCoefficients).length *
        layout.witnessRowLen) ((layout.stages.flatMap fun stage => stage.outputClaimRows.map fun row => row.vars).length *
          layout.witnessRowLen)).map Variable.mk := by
    rw [coefficients.length_eq, rowCount, ← allocated.openingRows, List.flatten_eq_flatMap, List.flatMap_assoc]
    refine congrArg (layout.stages.flatMap ·) (funext fun stage => ?_)
    rw [← List.flatten_eq_flatMap, List.flatMap_def]
  rw [allocated.coefficientRows, cellEntries_coefficients coefficients, cellEntries_rows widths rows flat,
    ← gridEntries_append] at perm
  refine ⟨claims ++ finalEntries layout.finalOpenings evalOutputs evalBlindings, ?_, fun entry member => ?_⟩
  · rw [← List.append_assoc]
    exact perm.append_right _
  · have after (v : Variable) (member : v ∈ layout.stages.flatMap StageLayout.claims ++
        layout.finalOpenings.flatMap FinalOpeningLayout.vars) :
        builder.numVars + committedCount statement.stages * layout.witnessRowLen ≤ v.index := by
      rw [committedCount, Nat.add_mul, ← Nat.add_assoc]
      exact allocated.after v member
    rcases List.mem_append.mp member with claim | final
    · obtain ⟨v, among, same⟩ := named entry claim
      rw [same]
      exact after v (List.mem_append_left _ among)
    · have key := (keys_finalEntries layout.finalOpenings evalOutputs evalBlindings).subset
        (List.mem_map_of_mem (f := Prod.fst) final)
      obtain ⟨v, among, same⟩ := List.mem_map.mp key
      rw [← same]
      exact after v (List.mem_append_right _ among)

/-- The values of the committed rows in a flat assignment. -/
theorem map_committedRows {statement : BlindFoldStatement F O Com P Ch} {builder builder' final : R1csBuilder F}
    {layout : Layout} (allocated : LayoutAllocated statement builder builder' layout) (positive : 0 < builder.numVars)
    {values : SourceValues F O P Ch} {witnesses : List (CommittedSumcheckWitness F)}
    (all : AllStages layout.witnessRowLen values statement.stages layout.stages witnesses)
    {evalOutputs evalBlindings : List F} {flat : List F} (assigned : FlatAssigned builder'.numVars final
      (layoutEntries statement layout values witnesses evalOutputs evalBlindings) flat) :
    (List.range' builder.numVars (committedCount statement.stages * layout.witnessRowLen)).map (flat.getD · 0) =
      ((committedRows witnesses).map fun row => resize row layout.witnessRowLen 0).flatten := by
  obtain ⟨rest, perm, after⟩ := layoutEntries_perm allocated all evalOutputs evalBlindings
  rw [← all.length_committedRows] at after ⊢
  refine map_grid (all.committedRows_le allocated) (fun entry member => ?_) fun index from_ below absent => ?_
  · rw [List.getD_eq_getElem?_getD, assigned.assigned entry (perm.mem_iff.mpr (List.mem_append_left _ member))]
    rfl
  · have room := allocated.room
    rw [Nat.add_assoc, ← Nat.add_mul] at room
    change builder.numVars + committedCount statement.stages * layout.witnessRowLen ≤ _ at room
    rw [← all.length_committedRows] at room
    rw [List.getD_eq_getElem?_getD, assigned.zeros index (positive.trans_le from_) (below.trans_le room) fun member => ?_]
    · rfl
    · obtain ⟨entry, among, rfl⟩ := List.mem_map.mp member
      rcases List.mem_append.mp (perm.mem_iff.mp among) with here | later
      · exact absent (List.mem_map_of_mem here)
      · exact absurd (after entry later) (Nat.not_le.mpr below)

end

end JoltWasm.Blindfold
