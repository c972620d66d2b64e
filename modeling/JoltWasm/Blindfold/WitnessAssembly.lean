import JoltWasm.Blindfold.WitnessRows

/-!
# Assembled witnesses

The rows that are sliced from a flat assignment are its values in their order, and a committed row has the blinding of
its commitment, so that the rows open the instance of the protocol.
-/

namespace JoltWasm.Blindfold

open R1cs Lib

section

variable {F O Com P Ch : Type}

/-! ## Dimensions -/

theorem checkedSum_eq {name : String} {values : List ℕ} {total : ℕ} (found : checkedSum name values = .ok total) :
    total = values.sum := by
  have run (values : List ℕ) (start : ℕ) (found : values.foldlM (fun sum value =>
      if usizeMax < sum + value then .error (.dimensionOverflow name sum) else .ok (sum + value)) start =
        (.ok total : Except BlindFoldError ℕ)) : total = start + values.sum := by
    induction values generalizing start with
    | nil => exact (Except.ok.inj found).symm
    | cons value values ih =>
        rw [List.foldlM_cons] at found
        obtain ⟨next, step, found⟩ := except_bind_eq_ok.mp found
        split_ifs at step
        obtain rfl := Except.ok.inj step
        rw [ih _ found, List.sum_cons, Nat.add_assoc]
  exact (run values 0 found).trans (Nat.zero_add _)

theorem checkedMul_eq {name : String} {lhs rhs total : ℕ} (found : checkedMul name lhs rhs = .ok total) :
    total = lhs * rhs := by
  rw [checkedMul] at found
  split_ifs at found
  exact (Except.ok.inj found).symm

theorem checkedPowerOfTwo_eq {name : String} {value power : ℕ} (found : checkedPowerOfTwo name value = .ok power) :
    value ≤ power := by
  rw [checkedPowerOfTwo, checkedNextPowerOfTwo] at found
  split at found
  next step =>
    obtain rfl := Except.ok.inj found
    split_ifs at step
    exact (Option.some.inj step) ▸ Nat.le_pow_clog Nat.one_lt_two value
  · cases found

/-- The dimensions of `rounds` coefficient rows and `rows` rows of openings among `numVars` variables. -/
structure DimensionsFit (rowLen rounds rows numVars : ℕ) (dimensions : BlindFoldDimensions) : Prop where
  width : dimensions.witness.rowLen = rowLen
  coefficientValues : dimensions.coefficientValues = rounds * rowLen
  outputClaimRows : dimensions.outputClaimRows = rows
  used : (rounds + rows) * rowLen ≤ numVars - 1
  auxiliaryRows : dimensions.auxiliaryRows = (numVars - 1 - (rounds + rows) * rowLen) ⌈/⌉ rowLen
  coefficients : dimensions.witnessRows.coefficients.stop = rounds
  outputClaims : dimensions.witnessRows.outputClaims.stop = rounds + rows
  auxiliaryStart : dimensions.witnessRows.auxiliary.start = rounds + rows
  auxiliaryStop : dimensions.witnessRows.auxiliary.stop = rounds + rows + dimensions.auxiliaryRows
  rowCount : rounds + rows + dimensions.auxiliaryRows ≤ dimensions.witness.rowCount

theorem dimensions_eq {layout : Layout} {r1cs : ConstraintMatrices F} {rounds : List (List (VerifiedCommittedRound F Com))}
    {claims : List (List Com)} {dimensions : BlindFoldDimensions}
    (found : layout.dimensions r1cs rounds claims = .ok dimensions) :
    DimensionsFit layout.witnessRowLen (rounds.map List.length).sum (claims.map List.length).sum r1cs.numVars
      dimensions := by
  obtain ⟨totalRounds, first, found⟩ := except_bind_eq_ok.mp found
  obtain ⟨coefficientValues, second, found⟩ := except_bind_eq_ok.mp found
  obtain ⟨outputRows, third, found⟩ := except_bind_eq_ok.mp found
  obtain ⟨outputValues, fourth, found⟩ := except_bind_eq_ok.mp found
  obtain ⟨used, fifth, found⟩ := except_bind_eq_ok.mp found
  obtain rfl := checkedSum_eq first
  obtain rfl := checkedMul_eq second
  obtain rfl := checkedSum_eq third
  obtain rfl := checkedMul_eq fourth
  obtain rfl := checkedSum_eq fifth
  simp only at found
  split_ifs at found with short
  obtain ⟨occupied, sixth, found⟩ := except_bind_eq_ok.mp found
  obtain ⟨rowCount, power, found⟩ := except_bind_eq_ok.mp found
  obtain ⟨witnessRows, counts, found⟩ := except_bind_eq_ok.mp found
  obtain ⟨errors, _, found⟩ := except_bind_eq_ok.mp found
  obtain rfl := Except.ok.inj found
  obtain rfl := checkedSum_eq sixth
  have large := checkedPowerOfTwo_eq power
  obtain ⟨auxiliaryStart, start, counts⟩ := except_bind_eq_ok.mp counts
  obtain ⟨paddingStart, stop, counts⟩ := except_bind_eq_ok.mp counts
  obtain rfl := checkedSum_eq start
  obtain rfl := checkedSum_eq stop
  split_ifs at counts
  obtain rfl := Except.ok.inj counts
  simp only [List.sum_cons, List.sum_nil, Nat.add_zero] at short large ⊢
  have distributed := Nat.add_mul (rounds.map List.length).sum (claims.map List.length).sum layout.witnessRowLen
  refine ⟨rfl, rfl, rfl, by omega, by rw [distributed], rfl, rfl, rfl, ?_, ?_⟩
  · simp only
    omega
  · simp only
    omega

/-! ## Slices -/

variable [Field F]

omit [Field F] in
theorem length_chunks {α : Type} (len count : ℕ) (values : List α) : (chunks len count values).length = count := by
  induction count generalizing values with
  | zero => rfl
  | succ count ih => rw [chunks, List.length_cons, ih]

/-- Chunks that are filled up are the values and zeros. -/
theorem flatten_chunks {len count : ℕ} {values : List F} (fits : values.length ≤ count * len) :
    ((chunks len count values).map fun row => resize row len 0).flatten =
      values ++ List.replicate (count * len - values.length) 0 := by
  induction count generalizing values with
  | zero =>
      rw [Nat.zero_mul, Nat.le_zero] at fits
      obtain rfl := List.eq_nil_of_length_eq_zero fits
      simp [chunks]
  | succ count ih =>
      rw [Nat.succ_mul] at fits
      have shorter : (values.drop len).length ≤ count * len := by
        rw [List.length_drop]
        omega
      have later := ih shorter
      rw [chunks, List.map_cons, List.flatten_cons, later, List.length_drop]
      by_cases long : len ≤ values.length
      · have size : (values.take len).length = len := by rw [List.length_take, min_eq_left long]
        rw [resize_of_le size.le, size, Nat.sub_self, List.replicate_zero, List.append_nil, ← List.append_assoc,
          List.take_append_drop]
        exact congrArg (values ++ List.replicate · 0) (by rw [Nat.succ_mul]; omega)
      · have short : values.length ≤ len := by omega
        rw [List.take_of_length_le short, List.drop_of_length_le short, resize_of_le short, List.nil_append,
          List.append_assoc, ← List.replicate_add]
        exact congrArg (values ++ List.replicate · 0) (by rw [Nat.succ_mul]; omega)

omit [Field F] in
theorem drop_eq_map (flat : List F) (start : ℕ) (fill : F) :
    flat.drop start = (List.range' start (flat.length - start)).map (flat.getD · fill) := by
  refine List.ext_getElem ?_ fun index below _ => ?_
  · rw [List.length_drop, List.length_map, List.length_range']
  · rw [List.length_drop] at below
    have inside : start + index < flat.length := by omega
    rw [List.getElem_drop, List.getElem_map, List.getElem_range', Nat.one_mul, List.getD_eq_getElem _ _ inside]

omit [Field F] in
theorem drop_split {flat : List F} {start count : ℕ} (fits : start + count ≤ flat.length) (fill : F) :
    flat.drop start = (List.range' start count).map (flat.getD · fill) ++ flat.drop (start + count) := by
  have split : flat.length - start = count + (flat.length - (start + count)) := by omega
  rw [drop_eq_map flat start fill, split, ← List.range'_append_1, List.map_append, ← drop_eq_map]

omit [Field F] in
theorem length_flatten_resize {α : Type} (rows : List (List α)) (len : ℕ) (fill : α) :
    (rows.map fun row => resize row len fill).flatten.length = rows.length * len := by
  induction rows with
  | nil => simp
  | cons row rows ih =>
      rw [List.map_cons, List.flatten_cons, List.length_append, length_resize, ih, List.length_cons]
      ring

omit [Field F] in
/-- The rows of filled-up values. -/
theorem rowsOf_flatten {rowLen : ℕ} (positive : 0 < rowLen) (rows : List (List F)) (fill : F) :
    rowsOf rowLen (rows.map fun row => resize row rowLen fill).flatten = rows.map fun row => resize row rowLen fill := by
  have count : (rows.length * rowLen) ⌈/⌉ rowLen = rows.length := by
    rw [Nat.mul_comm]
    exact smul_ceilDiv positive rows.length
  have widths : ∀ row ∈ rows.map fun row => resize row rowLen fill, row.length = rowLen :=
    List.forall_mem_map.mpr fun row _ => length_resize row rowLen fill
  have whole := chunks_flatten widths
  rw [List.length_map] at whole
  rw [rowsOf, length_flatten_resize, count, whole]

/-- What is sliced from an assignment whose first values are the committed rows. -/
theorem sliceRows_eq {rowLen : ℕ} (positive : 0 < rowLen) {dimensions : BlindFoldDimensions} {flat : List F}
    (one : 0 < flat.length) {witnesses : List (CommittedSumcheckWitness F)}
    (dims : DimensionsFit rowLen (witnesses.flatMap fun witness => witness.roundCoefficients).length
      (witnesses.flatMap fun witness => witness.outputClaimRows).length flat.length dimensions)
    (committed : (List.range' 1 ((committedRows witnesses).length * rowLen)).map (flat.getD · 0) =
      ((committedRows witnesses).map fun row => resize row rowLen 0).flatten) (random : ℕ → F) :
    ∃ auxiliary : List (List F), auxiliary.length = dimensions.auxiliaryRows ∧
      (∀ row ∈ auxiliary, row.length = rowLen) ∧
      auxiliary.flatten = flat.drop (1 + (committedRows witnesses).length * rowLen) ++ List.replicate
        (dimensions.auxiliaryRows * rowLen - (flat.length - (1 + (committedRows witnesses).length * rowLen))) 0 ∧
      (sliceRows dimensions flat witnesses random).rows =
        ((committedRows witnesses).map fun row => resize row rowLen 0) ++ auxiliary ++ List.replicate
          (dimensions.witness.rowCount - ((committedRows witnesses).length + dimensions.auxiliaryRows))
            (List.replicate rowLen 0) := by
  have count : (committedRows witnesses).length = (witnesses.flatMap fun witness => witness.roundCoefficients).length +
      (witnesses.flatMap fun witness => witness.outputClaimRows).length := List.length_append
  have used := dims.used
  rw [← count] at used
  have inside : 1 + (committedRows witnesses).length * rowLen ≤ flat.length := by omega
  have tail : flat.drop 1 = ((committedRows witnesses).map fun row => resize row rowLen 0).flatten ++
      flat.drop (1 + (committedRows witnesses).length * rowLen) := by
    rw [drop_split inside 0, committed]
  have coefficients : rowsOf rowLen ((flat.drop 1).take dimensions.coefficientValues) =
      (witnesses.flatMap fun witness => witness.roundCoefficients).map fun row => resize row rowLen 0 := by
    rw [tail, committedRows, List.map_append, List.flatten_append, List.append_assoc, dims.coefficientValues,
      List.take_left' (length_flatten_resize _ _ _), rowsOf_flatten positive]
  have start : 1 + dimensions.coefficientValues + dimensions.outputClaimRows * rowLen =
      1 + (committedRows witnesses).length * rowLen := by
    rw [dims.coefficientValues, dims.outputClaimRows, count]
    ring
  generalize named : flat.drop (1 + (committedRows witnesses).length * rowLen) = values at tail ⊢
  have length : values.length = flat.length - (1 + (committedRows witnesses).length * rowLen) := by
    rw [← named, List.length_drop]
  have auxiliaryCount : values.length ⌈/⌉ rowLen = dimensions.auxiliaryRows := by
    rw [dims.auxiliaryRows, ← count, length, Nat.sub_sub]
  have fits : values.length ≤ dimensions.auxiliaryRows * rowLen := by
    rw [← auxiliaryCount, Nat.mul_comm]
    exact le_smul_ceilDiv positive
  have rowCount : ((rowsOf rowLen values).map fun row => resize row rowLen 0).length = dimensions.auxiliaryRows := by
    rw [List.length_map, rowsOf, length_chunks, auxiliaryCount]
  refine ⟨(rowsOf rowLen values).map fun row => resize row rowLen 0, rowCount,
    List.forall_mem_map.mpr fun row _ => length_resize row rowLen 0, ?_, ?_⟩
  · rw [rowsOf, auxiliaryCount, flatten_chunks fits, length]
  · simp only [sliceRows, dims.width, coefficients, start, named]
    have total : ((((witnesses.flatMap fun witness => witness.roundCoefficients).map fun row => resize row rowLen (0 : F)) ++
        (witnesses.flatMap fun stage => stage.outputClaimRows).map fun row => resize row rowLen 0) ++
          (rowsOf rowLen values).map fun row => resize row rowLen 0).length =
        (committedRows witnesses).length + dimensions.auxiliaryRows := by
      rw [List.length_append, rowCount, List.length_append, List.length_map, List.length_map, count]
    have stop : dimensions.witnessRows.auxiliary.stop = (committedRows witnesses).length + dimensions.auxiliaryRows := by
      rw [dims.auxiliaryStop, count]
    have within := dims.rowCount
    rw [← count] at within
    rw [resize_of_le (total.trans stop.symm).le, total, stop, Nat.sub_self, List.replicate_zero, List.append_nil,
      resize_of_le (total.le.trans within), total, committedRows, List.map_append]


/-! ## Blindings -/

/-- The blindings of the committed rows. -/
def committedBlindings (witnesses : List (CommittedSumcheckWitness F)) : List F :=
  (witnesses.flatMap fun witness => witness.roundBlindings) ++ witnesses.flatMap fun witness => witness.outputClaimBlindings

theorem sliceRows_blindings {rowLen rounds rows numVars : ℕ} {dimensions : BlindFoldDimensions}
    (dims : DimensionsFit rowLen rounds rows numVars dimensions) {witnesses : List (CommittedSumcheckWitness F)}
    (count : (committedBlindings witnesses).length = rounds + rows) (flat : List F) (random : ℕ → F) :
    (sliceRows dimensions flat witnesses random).blindings = committedBlindings witnesses ++
      (List.range dimensions.auxiliaryRows).map random ++
        List.replicate (dimensions.witness.rowCount - (rounds + rows + dimensions.auxiliaryRows)) 0 := by
  have total : (committedBlindings witnesses ++ (List.range dimensions.auxiliaryRows).map random).length =
      rounds + rows + dimensions.auxiliaryRows := by
    rw [List.length_append, count, List.length_map, List.length_range]
  have within := dims.rowCount
  rw [← total] at within
  exact (resize_of_le within 0).trans (by rw [total])

omit [Field F] in
/-- Every committed row has a blinding. -/
theorem AllStages.blindings [Field F] {rowLen : ℕ} {values : SourceValues F O P Ch}
    {stages : List (BlindFoldStage F O Com P Ch)} {layouts : List StageLayout}
    {witnesses : List (CommittedSumcheckWitness F)} (all : AllStages rowLen values stages layouts witnesses) :
    ∀ witness ∈ witnesses, witness.roundCoefficients.length = witness.roundBlindings.length ∧
      witness.outputClaimRows.length = witness.outputClaimBlindings.length := by
  induction all with
  | nil => exact nofun
  | cons here _ ih =>
      exact List.forall_mem_cons.mpr ⟨⟨here.fits.degrees.length_eq.trans here.fits.roundBlindings.symm,
        here.fits.rowCount.trans here.fits.outputBlindings.symm⟩, ih⟩

omit [Field F] in
/-- Lists of lists of equal lengths are zipped part by part. -/
theorem zipWith_flatMap {α β γ δ : Type} {items : List α} {first : α → List β} {second : α → List γ}
    (same : ∀ item ∈ items, (first item).length = (second item).length) (f : β → γ → δ) :
    List.zipWith f (items.flatMap first) (items.flatMap second) =
      items.flatMap fun item => List.zipWith f (first item) (second item) := by
  induction items with
  | nil => rfl
  | cons item items ih =>
      obtain ⟨here, later⟩ := List.forall_mem_cons.mp same
      rw [List.flatMap_cons, List.flatMap_cons, List.flatMap_cons, List.zipWith_append here, ih later]

omit [Field F] in
theorem length_flatMap_congr {α β γ : Type} {items : List α} {first : α → List β} {second : α → List γ}
    (same : ∀ item ∈ items, (first item).length = (second item).length) :
    (items.flatMap first).length = (items.flatMap second).length := by
  rw [List.length_flatMap, List.length_flatMap, List.map_congr_left same]

/-- The committed rows of all stages with their blindings. -/
def committedPairs (rowLen : ℕ) (witnesses : List (CommittedSumcheckWitness F)) : List (List F × F) :=
  (witnesses.flatMap fun witness =>
      (witness.roundCoefficients.map fun row => resize row rowLen 0).zip witness.roundBlindings) ++
    witnesses.flatMap fun witness =>
      (witness.outputClaimRows.map fun row => resize row rowLen 0).zip witness.outputClaimBlindings

theorem zip_committed {witnesses : List (CommittedSumcheckWitness F)} (same : ∀ witness ∈ witnesses,
      witness.roundCoefficients.length = witness.roundBlindings.length ∧
        witness.outputClaimRows.length = witness.outputClaimBlindings.length) (rowLen : ℕ) :
    ((committedRows witnesses).map fun row => resize row rowLen 0).zip (committedBlindings witnesses) =
      committedPairs rowLen witnesses := by
  rw [committedRows, committedBlindings, List.map_append, List.map_flatMap, List.map_flatMap, List.zip_append,
    List.zip_eq_zipWith, List.zip_eq_zipWith, zipWith_flatMap, zipWith_flatMap, committedPairs]
  · rfl
  · exact fun witness member => (List.length_map _).trans (same witness member).2
  · exact fun witness member => (List.length_map _).trans (same witness member).1
  · exact length_flatMap_congr fun witness member => (List.length_map _).trans (same witness member).1

/-- The rows are the assignment without its first value, cut into rows and filled up with zeros, and the committed
rows have the blindings of their commitments. -/
structure RowsAligned (dimensions : BlindFoldDimensions) (witnesses : List (CommittedSumcheckWitness F)) (flat : List F)
    (assigned : AssignedBlindFoldWitness F) : Prop where
  rowCount : assigned.rows.length = dimensions.witness.rowCount
  rowLen : ∀ row ∈ assigned.rows, row.length = dimensions.witness.rowLen
  values : assigned.rows.flatten = flat.tail ++
    List.replicate (dimensions.witness.rowCount * dimensions.witness.rowLen - flat.tail.length) 0
  blindingCount : assigned.blindings.length = dimensions.witness.rowCount
  paired : (assigned.rows.zip assigned.blindings).take (committedRows witnesses).length =
    committedPairs dimensions.witness.rowLen witnesses

theorem rowsAligned {rowLen : ℕ} (positive : 0 < rowLen) {dimensions : BlindFoldDimensions} {flat : List F}
    (one : 0 < flat.length) {witnesses : List (CommittedSumcheckWitness F)}
    (dims : DimensionsFit rowLen (witnesses.flatMap fun witness => witness.roundCoefficients).length
      (witnesses.flatMap fun witness => witness.outputClaimRows).length flat.length dimensions)
    (committed : (List.range' 1 ((committedRows witnesses).length * rowLen)).map (flat.getD · 0) =
      ((committedRows witnesses).map fun row => resize row rowLen 0).flatten)
    (same : ∀ witness ∈ witnesses, witness.roundCoefficients.length = witness.roundBlindings.length ∧
        witness.outputClaimRows.length = witness.outputClaimBlindings.length) (random : ℕ → F) :
    RowsAligned dimensions witnesses flat (sliceRows dimensions flat witnesses random) := by
  have count : (committedRows witnesses).length = (witnesses.flatMap fun witness => witness.roundCoefficients).length +
      (witnesses.flatMap fun witness => witness.outputClaimRows).length := List.length_append
  have blindingCount : (committedBlindings witnesses).length = (committedRows witnesses).length := by
    rw [committedBlindings, List.length_append, ← length_flatMap_congr fun witness member => (same witness member).1,
      ← length_flatMap_congr fun witness member => (same witness member).2, count]
  obtain ⟨auxiliary, auxiliaryCount, widths, values, rows⟩ := sliceRows_eq positive one dims committed random
  have blindings := sliceRows_blindings dims (blindingCount.trans count) flat random
  have within := dims.rowCount
  rw [← count] at within blindings
  have used := dims.used
  rw [← count] at used
  have inside : 1 + (committedRows witnesses).length * rowLen ≤ flat.length := by omega
  refine ⟨?_, ?_, ?_, ?_, ?_⟩
  · rw [rows, List.length_append, List.length_append, List.length_map, auxiliaryCount, List.length_replicate]
    omega
  · rw [rows, dims.width]
    refine List.forall_mem_append.mpr ⟨List.forall_mem_append.mpr ⟨List.forall_mem_map.mpr fun row _ =>
      length_resize row rowLen 0, widths⟩, fun row member => ?_⟩
    rw [List.eq_of_mem_replicate member, List.length_replicate]
  · have zeros (rowCount : ℕ) : (List.replicate rowCount (List.replicate rowLen (0 : F))).flatten =
        List.replicate (rowCount * rowLen) 0 := by
      rw [List.flatten_replicate_replicate]
    have room : flat.length - 1 - (committedRows witnesses).length * rowLen ≤ dimensions.auxiliaryRows * rowLen := by
      rw [dims.auxiliaryRows, ← count]
      exact (le_smul_ceilDiv positive).trans_eq (Nat.mul_comm _ _)
    have total : dimensions.witness.rowCount * rowLen = (committedRows witnesses).length * rowLen +
        dimensions.auxiliaryRows * rowLen +
          (dimensions.witness.rowCount - ((committedRows witnesses).length + dimensions.auxiliaryRows)) * rowLen := by
      rw [← Nat.add_mul, ← Nat.add_mul, Nat.add_sub_cancel' within]
    have tail := drop_split inside 0
    rw [List.drop_one] at tail
    rw [rows, List.flatten_append, List.flatten_append, values, zeros, ← committed, ← List.append_assoc, ← tail,
      List.append_assoc, ← List.replicate_add, dims.width, List.length_tail]
    exact congrArg (flat.tail ++ List.replicate · 0) (by omega)
  · rw [blindings, List.length_append, List.length_append, blindingCount, List.length_map, List.length_range,
      List.length_replicate]
    omega
  · have first : ((committedRows witnesses).map fun row => resize row rowLen (0 : F)).length =
        (committedBlindings witnesses).length := (List.length_map _).trans blindingCount.symm
    rw [rows, blindings, List.append_assoc, List.append_assoc, List.zip_append first, dims.width, zip_committed same,
      List.take_left']
    rw [← zip_committed same, List.length_zip, ← first, min_self, List.length_map]

end

/-! ## Commitments -/

section

variable {F O G P Ch : Type} [Field F] [AddCommGroup G] [Module F G] {setup : PedersenSetup G}

/-- Zeros at the end of a row do not change its commitment. -/
theorem commit_resize (setup : PedersenSetup G) {row : List F} {length : ℕ} (fits : row.length ≤ length) (blinding : F) :
    setup.commit (resize row length 0) blinding = setup.commit row blinding := by
  have sums (generators : List G) (row : List F) (zeros : ℕ) :
      (List.zipWith (fun generator value => value • generator) generators (row ++ List.replicate zeros 0)).sum =
        (List.zipWith (fun generator value => value • generator) generators row).sum := by
    induction generators generalizing row zeros with
    | nil => simp
    | cons generator generators ih =>
        cases row with
        | nil =>
            cases zeros with
            | zero => rfl
            | succ zeros =>
                have later := ih [] zeros
                rw [List.nil_append, List.zipWith_nil_right] at later
                rw [List.nil_append, List.replicate_succ, List.zipWith_cons_cons, List.sum_cons, later, zero_smul,
                  List.zipWith_nil_right, List.sum_nil, add_zero]
        | cons value row =>
            rw [List.cons_append, List.zipWith_cons_cons, List.sum_cons, ih, List.zipWith_cons_cons, List.sum_cons]
  rw [resize_of_le fits, PedersenSetup.commit, PedersenSetup.commit, sums]

/-- A row of zeros without a blinding has the identity as its commitment. -/
theorem commit_zeros (length : ℕ) : setup.commit (List.replicate length (0 : F)) 0 = 0 := by
  have padded := commit_resize setup (List.length_nil.le.trans (Nat.zero_le length) : ([] : List F).length ≤ length) 0
  rw [resize_of_le (Nat.zero_le length), List.nil_append, List.length_nil, Nat.sub_zero] at padded
  rw [padded, PedersenSetup.commit, List.zipWith_nil_right, List.sum_nil, zero_smul, zero_add]

/-- The commitments of a stage were made with the rows and blindings of its witness. -/
structure CommittedWith (setup : PedersenSetup G) (stage : BlindFoldStage F O G P Ch)
    (witness : CommittedSumcheckWitness F) : Prop where
  rounds : (stage.rounds.map fun round => round.commitment) =
    List.zipWith setup.commit witness.roundCoefficients witness.roundBlindings
  outputClaims : stage.outputClaimRows.commitments =
    List.zipWith setup.commit witness.outputClaimRows witness.outputClaimBlindings

omit [Field F] [AddCommGroup G] [Module F G] in
theorem rangeSlice_eq {α : Type} {name : String} {values before middle after : List α} {range : RowRange}
    (parts : values = before ++ middle ++ after) (start : range.start = before.length)
    (stop : range.stop = before.length + middle.length) : rangeSlice name values range = .ok middle := by
  have size : values.length = before.length + middle.length + after.length := by
    rw [parts, List.length_append, List.length_append]
  rw [rangeSlice, if_pos (by omega), parts, start, stop, List.take_left' List.length_append, List.drop_left' rfl]

omit [Field F] [Module F G] in
theorem padRows_eq {rows : List G} {targetLen : ℕ} {name : String} (same : rows.length = targetLen) :
    padRows rows targetLen name = .ok rows := by
  rw [padRows, if_neg (by omega), resize_of_le same.le, same, Nat.sub_self, List.replicate_zero, List.append_nil]

/-- Rows with the blindings of the commitments open the instance of the protocol. -/
theorem opens_instance {rowLen rounds rows numVars : ℕ} {protocol : BlindFoldProtocol F G}
    (dims : DimensionsFit rowLen rounds rows numVars protocol.dimensions) {assigned : AssignedBlindFoldWitness F}
    {committed auxiliary : List (List F)} {blindings auxiliaryBlindings : List F} {zeros : ℕ}
    (rowParts : assigned.rows = committed ++ auxiliary ++ List.replicate zeros (List.replicate rowLen 0))
    (blindingParts : assigned.blindings = blindings ++ auxiliaryBlindings ++ List.replicate zeros 0)
    (count : committed.length = rounds + rows) (same : committed.length = blindings.length)
    (auxiliaryCount : auxiliary.length = protocol.dimensions.auxiliaryRows)
    (sameAuxiliary : auxiliary.length = auxiliaryBlindings.length)
    (zeroCount : zeros = protocol.dimensions.witness.rowCount - (rounds + rows + protocol.dimensions.auxiliaryRows))
    (widths : ∀ row ∈ assigned.rows, row.length = rowLen)
    (roundCount : protocol.sumcheckConsistency.flatten.length = rounds)
    (commitments : (protocol.sumcheckConsistency.flatten.map fun round => round.commitment) ++
      protocol.committedOutputClaims.flatten = List.zipWith setup.commit committed blindings)
    (capacity : rowLen ≤ setup.capacity) :
    ∃ auxiliaryCommitments relaxed, protocol.auxiliaryRowCommitments setup assigned = .ok auxiliaryCommitments ∧
      protocol.committedRelaxedInstance auxiliaryCommitments = .ok relaxed ∧
        Opens setup relaxed.witnessRowCommitments assigned.rows assigned.blindings := by
  have within := dims.rowCount
  have auxiliaryRows : rangeSlice "auxiliary witness rows" assigned.rows protocol.dimensions.witnessRows.auxiliary =
      .ok auxiliary := rangeSlice_eq rowParts (dims.auxiliaryStart.trans count.symm) (by
        rw [dims.auxiliaryStop, count, auxiliaryCount])
  have auxiliaryValues : rangeSlice "auxiliary witness blindings" assigned.blindings
      protocol.dimensions.witnessRows.auxiliary = .ok auxiliaryBlindings :=
    rangeSlice_eq blindingParts (by rw [dims.auxiliaryStart, ← same, count]) (by
      rw [dims.auxiliaryStop, ← same, ← sameAuxiliary, count, auxiliaryCount])
  have fits : auxiliary.find? (fun row => row.length > setup.capacity) = none := by
    refine List.find?_eq_none.mpr fun row member => ?_
    have width := widths row (by
      rw [rowParts]
      exact List.mem_append_left _ (List.mem_append_right _ member))
    simp only [decide_eq_true_eq]
    omega
  have committedAuxiliary : setup.commitRows auxiliary auxiliaryBlindings "auxiliary witness rows" =
      .ok (List.zipWith setup.commit auxiliary auxiliaryBlindings) := by
    rw [PedersenSetup.commitRows, ensureLen, if_neg (not_not_intro sameAuxiliary), fits]
    rfl
  have whole : List.zipWith setup.commit assigned.rows assigned.blindings =
      List.zipWith setup.commit committed blindings ++ List.zipWith setup.commit auxiliary auxiliaryBlindings ++
        List.replicate zeros 0 := by
    have lengths : (committed ++ auxiliary).length = (blindings ++ auxiliaryBlindings).length := by
      rw [List.length_append, List.length_append, same, sameAuxiliary]
    rw [rowParts, blindingParts, List.zipWith_append lengths, List.zipWith_append same, List.zipWith_replicate,
      commit_zeros, min_self]
  have openingCount : (protocol.sumcheckConsistency.flatten.map (fun round => round.commitment) ++
      protocol.committedOutputClaims.flatten).length = rounds + rows := by
    rw [commitments, List.length_zipWith, ← same, min_self, count]
  have auxiliaryLength : (List.zipWith setup.commit auxiliary auxiliaryBlindings).length =
      protocol.dimensions.auxiliaryRows := by
    rw [List.length_zipWith, ← sameAuxiliary, min_self, auxiliaryCount]
  refine ⟨_, ⟨1, List.zipWith setup.commit assigned.rows assigned.blindings,
      List.replicate protocol.dimensions.error.rowCount 0, protocol.evalCommitments⟩,
    except_bind_eq_ok.mpr ⟨_, auxiliaryRows, except_bind_eq_ok.mpr ⟨_, auxiliaryValues, committedAuxiliary⟩⟩, ?_,
    ?_, fun row member => (widths row member).trans_le capacity, rfl⟩
  · simp only [BlindFoldProtocol.committedRelaxedInstance]
    rw [if_neg (not_not_intro auxiliaryLength)]
    refine except_bind_eq_ok.mpr ⟨_, padRows_eq (((List.length_map _).trans roundCount).trans dims.coefficients.symm),
      except_bind_eq_ok.mpr ⟨_, padRows_eq (openingCount.trans dims.outputClaims.symm),
        except_bind_eq_ok.mpr ⟨_, padRows_eq ?_, except_bind_eq_ok.mpr
          ⟨List.zipWith setup.commit assigned.rows assigned.blindings, ?_, rfl⟩⟩⟩⟩
    · rw [List.length_append, openingCount, auxiliaryLength, dims.auxiliaryStop]
    · have used : (protocol.sumcheckConsistency.flatten.map (fun round => round.commitment) ++
          protocol.committedOutputClaims.flatten ++ List.zipWith setup.commit auxiliary auxiliaryBlindings).length =
            rounds + rows + protocol.dimensions.auxiliaryRows := by
        rw [List.length_append, openingCount, auxiliaryLength]
      rw [padRows, if_neg (by omega), resize_of_le (by omega), used, whole, commitments, zeroCount]
  · rw [rowParts, blindingParts, List.length_append, List.length_append, List.length_append, List.length_append, same,
      sameAuxiliary, List.length_replicate, List.length_replicate]

/-! ## The assembly -/

/-- The assignment satisfies every constraint. -/
def ConstraintMatrices.SatisfiedBy (r1cs : ConstraintMatrices F) (flat : List F) : Prop :=
  flat.length = r1cs.numVars ∧ flat[0]? = some 1 ∧
    ∀ row ∈ r1cs.constraints, dot row.1.1 flat * dot row.1.2 flat = dot row.2 flat

variable [DecidableEq F] [DecidableEq O] [DecidableEq P] [DecidableEq Ch]

/-- What `assignWitness` does on honest witnesses. -/
structure WitnessAssembled (statement : BlindFoldStatement F O G P Ch) (protocol : BlindFoldProtocol F G)
    (witnesses : List (CommittedSumcheckWitness F)) (evalOutputs evalBlindings : List F) (random : ℕ → F)
    (flat : List F) (assigned : AssignedBlindFoldWitness F) : Prop where
  /-- No variable is assigned twice, and every product can be solved. -/
  solved : protocol.flatWitness (statement.stages.map fun stage => stage.domain) witnesses evalOutputs evalBlindings =
    .ok flat
  assembled : protocol.assignWitness (statement.stages.map fun stage => stage.domain) witnesses evalOutputs evalBlindings
    random = .ok assigned
  satisfied : protocol.r1cs.SatisfiedBy flat
  aligned : RowsAligned protocol.dimensions witnesses flat assigned
  /-- The rows and blindings open the instance that the verifier puts together from the commitments. -/
  opened : ∀ setup : PedersenSetup G, List.Forall₂ (CommittedWith setup) statement.stages witnesses →
    protocol.dimensions.witness.rowLen ≤ setup.capacity →
    ∃ auxiliaryCommitments relaxed, protocol.auxiliaryRowCommitments setup assigned = .ok auxiliaryCommitments ∧
      protocol.committedRelaxedInstance auxiliaryCommitments = .ok relaxed ∧
        Opens setup relaxed.witnessRowCommitments assigned.rows assigned.blindings

variable (F O G P Ch) in
/-- Honest witnesses of an allowed statement are assembled. -/
def AssemblesWitness (allowed : BlindFoldStatement F O G P Ch → Prop) : Prop :=
  ∀ (statement : BlindFoldStatement F O G P Ch) (publics : List (P × F)) (challenges : List (Ch × F))
    (protocol : BlindFoldProtocol F G) (values : SourceValues F O P Ch) (witnesses : List (CommittedSumcheckWitness F))
    (evalOutputs evalBlindings : List F) (random : ℕ → F), allowed statement →
    BlindFoldProtocol.fromParts statement publics challenges = .ok protocol →
    Honest protocol.layout.witnessRowLen statement publics challenges values witnesses evalOutputs evalBlindings →
    ∃ flat assigned,
      WitnessAssembled statement protocol witnesses evalOutputs evalBlindings random flat assigned

omit [Field F] [AddCommGroup G] [Module F G] [DecidableEq O] [DecidableEq P] [DecidableEq Ch] [DecidableEq F] in
theorem length_allRounds (stages : List (BlindFoldStage F O G P Ch)) :
    ((stages.map fun stage => stage.rounds).map List.length).sum = (allRounds stages).length := by
  rw [allRounds, List.length_flatMap, List.map_map]
  rfl

omit [DecidableEq F] [DecidableEq O] [DecidableEq P] [DecidableEq Ch] in
/-- The commitments of the statement, in the order of the rows. -/
theorem commitments_eq {stages : List (BlindFoldStage F O G P Ch)} {witnesses : List (CommittedSumcheckWitness F)}
    (committed : List.Forall₂ (CommittedWith setup) stages witnesses)
    (same : ∀ witness ∈ witnesses, witness.roundCoefficients.length = witness.roundBlindings.length ∧
      witness.outputClaimRows.length = witness.outputClaimBlindings.length) :
    (stages.map fun stage => stage.rounds).flatten.map (fun round => round.commitment) ++
        (stages.map fun stage => stage.outputClaimRows.commitments).flatten =
      List.zipWith setup.commit (committedRows witnesses) (committedBlindings witnesses) := by
  have rounds : (stages.map fun stage => stage.rounds).flatten.map (fun round => round.commitment) =
      List.zipWith setup.commit (witnesses.flatMap fun witness => witness.roundCoefficients)
        (witnesses.flatMap fun witness => witness.roundBlindings) := by
    rw [zipWith_flatMap fun witness member => (same witness member).1]
    clear same
    induction committed with
    | nil => rfl
    | cons here _ ih => rw [List.map_cons, List.flatten_cons, List.map_append, ih, here.rounds, List.flatMap_cons]
  have outputs : (stages.map fun stage => stage.outputClaimRows.commitments).flatten =
      List.zipWith setup.commit (witnesses.flatMap fun witness => witness.outputClaimRows)
        (witnesses.flatMap fun witness => witness.outputClaimBlindings) := by
    rw [zipWith_flatMap fun witness member => (same witness member).2]
    clear same rounds
    induction committed with
    | nil => rfl
    | cons here _ ih => rw [List.map_cons, List.flatten_cons, ih, here.outputClaims, List.flatMap_cons]
  rw [rounds, outputs, committedRows, committedBlindings, List.zipWith_append]
  exact length_flatMap_congr fun witness member => (same witness member).1

/-- Stages with rounds are assembled. -/
theorem assemblesWitness : AssemblesWitness F O G P Ch fun statement => ∀ stage ∈ statement.stages, stage.rounds ≠ [] := by
  intro statement publics challenges protocol values witnesses evalOutputs evalBlindings random rounds built honest
  obtain ⟨builder, made⟩ := fromParts_eq built
  obtain ⟨allocated, flat, facts, solved, assigned⟩ := flatWitness_eq made rounds honest
  have all := allStages_of_honest facts (validate_eq_ok made.valid).1 honest
  have same := all.blindings
  obtain ⟨coefficients, -, -, openings⟩ := all.cells
  have vars : protocol.r1cs.numVars = flat.length := by
    rw [made.r1cs, assigned.length]
    rfl
  have dims := dimensions_eq made.dimensions
  have claimCount : ((statement.stages.map fun stage => stage.outputClaimRows.commitments).map List.length).sum =
      (witnesses.flatMap fun witness => witness.outputClaimRows).length := by
    rw [openings, outputRowCount, List.map_map]
    rfl
  rw [length_allRounds, ← coefficients.length_eq, vars, claimCount] at dims
  have one : 0 < flat.length := (List.getElem?_eq_some_iff.mp assigned.one).choose
  have committed := map_committedRows facts Nat.one_pos all assigned
  rw [← all.length_committedRows] at committed
  refine ⟨flat, sliceRows protocol.dimensions flat witnesses random, solved, except_bind_eq_ok.mpr ⟨flat, solved, rfl⟩,
    ⟨vars.symm, assigned.one, ?_⟩, rowsAligned facts.positive one dims committed same random, fun setup made' capacity => ?_⟩
  · rw [made.r1cs]
    exact assigned.satisfied
  · obtain ⟨auxiliary, auxiliaryCount, -, -, rows⟩ := sliceRows_eq facts.positive one dims committed random
    have count : (committedRows witnesses).length = _ := List.length_append
    have blindingCount : (committedBlindings witnesses).length = (committedRows witnesses).length := by
      rw [committedBlindings, List.length_append, ← length_flatMap_congr fun witness member => (same witness member).1,
        ← length_flatMap_congr fun witness member => (same witness member).2, count]
    have blindings := sliceRows_blindings dims (blindingCount.trans count) flat random
    have aligned := rowsAligned facts.positive one dims committed same random
    rw [← count] at blindings
    refine opens_instance dims rows blindings ((List.length_map _).trans count)
      ((List.length_map _).trans blindingCount.symm) auxiliaryCount (by
        rw [auxiliaryCount, List.length_map, List.length_range]) (by rw [count])
      (fun row member => (aligned.rowLen row member).trans dims.width) ?_ ?_ (dims.width ▸ capacity)
    · rw [made.rounds, ← List.flatMap_def]
      exact coefficients.length_eq.symm
    · rw [made.rounds, made.claims, commitments_eq made' same]
      refine List.ext_getElem ?_ fun index _ _ => ?_
      · rw [List.length_zipWith, List.length_zipWith, List.length_map]
      · have fits := all.committedRows_le facts
        rw [List.getElem_zipWith, List.getElem_zipWith, List.getElem_map, commit_resize setup (fits _ (List.getElem_mem _))]

end

/-- A stage without rounds, whose claims are zero. -/
def emptyStatement : BlindFoldStatement ℚ Unit ℚ Unit Unit where
  stages := [⟨⟨0, 0⟩, .booleanHypercube, [], ⟨[], [], 0, []⟩, ⟨[]⟩, ⟨[]⟩⟩]
  finalOpenings := []

/-- A stage without rounds is refused, although the protocol is built. -/
theorem assemblesWitness_empty : ¬ AssemblesWitness ℚ Unit ℚ Unit Unit fun _ => True := by
  intro assembles
  have values : SourceValues ℚ Unit Unit Unit := ⟨fun _ => 0, fun _ => 0, fun _ => 0⟩
  have honest : Honest 1 emptyStatement [] [] values [⟨[], [], [], []⟩] [] [] := by
    refine ⟨nofun, nofun, .cons ⟨.nil, rfl, rfl, nofun, rfl⟩ .nil, .cons ⟨fun index id found => ?_, nofun, ?_⟩ .nil,
      .nil, rfl⟩
    · simp at found
    · rfl
  obtain ⟨flat, assigned, run⟩ := assembles emptyStatement [] [] _ values [⟨[], [], [], []⟩] [] [] (fun _ => 0) trivial
    rfl honest
  have solved := run.solved
  cases solved

end JoltWasm.Blindfold
