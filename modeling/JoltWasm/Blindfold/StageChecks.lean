import JoltWasm.Blindfold.Constraints

/-!
# The constraints are the stages' checks

An opening is the variable at its place in the committed rows, and an alias stands for its source.  With these the
source table of a validated statement is complete, and the constraints hold exactly when the checks of all stages
and final openings do.
-/

namespace JoltWasm.Blindfold

open R1cs Lib
open R1csBuilder (Emits AgreeBelow)

section

variable {F O Com P Ch : Type} [Field F] [DecidableEq O] [DecidableEq P] [DecidableEq Ch]

/-! ## Assigned openings -/

/-- The variable of an opening of a stage: its rows take `rowLen` openings each. -/
def StageLayout.slot (layout : StageLayout) (rowLen index : ℕ) : Option Variable := do
  let row ← layout.outputClaimRows[index / rowLen]?
  row.vars[index % rowLen]?

/-- Openings have the values in the committed rows, and aliases those of their sources. -/
structure StageOpeningsAssigned (z : ℕ → F) (openings : O → F) (stage : BlindFoldStage F O Com P Ch)
    (layout : StageLayout) : Prop where
  declared : ∀ (index : ℕ) (id : O), stage.outputClaimRows.openingIds[index]? = some id →
    ∃ v, layout.slot stage.outputClaimRows.rowLen index = some v ∧ openings id = z v.index
  aliases : ∀ entry ∈ stage.outputClaimRows.openingAliases, openings entry.aliasId = openings entry.source

/-! ## The source table -/

omit [Field F] in
/-- An insertion is of a new identifier. -/
theorem insertSource_eq {K V : Type} [DecidableEq K] {entries entries' : List (K × V)} {id : K} {value : V}
    (inserted : insertSource entries id value = some entries') :
    id ∉ entries.map Prod.fst ∧ entries' = entries ++ [(id, value)] := by
  rw [insertSource] at inserted
  split_ifs at inserted with present
  refine ⟨fun member => present ?_, (Option.some.inj inserted).symm⟩
  obtain ⟨entry, among, rfl⟩ := List.mem_map.mp member
  exact List.any_eq_true.mpr ⟨entry, among, by simp⟩

omit [Field F] in
/-- With different identifiers every entry is found. -/
theorem lookupSource_of_mem {K V : Type} [DecidableEq K] {entries : List (K × V)}
    (different : (entries.map Prod.fst).Nodup) {id : K} {value : V} (member : (id, value) ∈ entries) :
    lookupSource entries id = some value := by
  induction entries with
  | nil => cases member
  | cons entry entries ih =>
      rw [List.map_cons, List.nodup_cons] at different
      rcases List.mem_cons.mp member with rfl | later
      · simp [lookupSource]
      · have other : entry.1 ≠ id := fun same => different.1 (same ▸ List.mem_map_of_mem later)
        have rest := ih different.2 later
        rw [lookupSource] at rest ⊢
        rw [List.find?_cons_of_neg (by simpa using other)]
        exact rest

/-- The openings of the table are the inserted variables, each once. -/
structure Mirrors (inserted : Inserted F O P Ch) : Prop where
  openings : inserted.1.openings = inserted.2.map fun entry => (entry.1, .linearCombination (.ofVariable entry.2))
  different : (inserted.2.map Prod.fst).Nodup
  challenges : inserted.1.challenges = []
  publics : inserted.1.publics = []

/-- What an insertion does: its entry is the only new one. -/
structure Inserts (inserted inserted' : Inserted F O P Ch) (entries : List (O × Variable)) : Prop where
  mirrors : Mirrors inserted'
  entries : inserted'.2 = inserted.2 ++ entries

omit [DecidableEq P] [DecidableEq Ch] in
theorem insertOpening_eq {inserted inserted' : Inserted F O P Ch} {id : O} {v : Variable} (mirrors : Mirrors inserted)
    (step : insertOpening inserted id v = .ok inserted') : Inserts inserted inserted' [(id, v)] := by
  rw [insertOpening] at step
  split at step
  next table found =>
    obtain rfl := Except.ok.inj step
    obtain ⟨openings, new, shown⟩ := Option.bind_eq_some_iff.mp found
    obtain rfl := Option.some.inj shown
    obtain ⟨fresh, rfl⟩ := insertSource_eq new
    have keys : inserted.1.openings.map Prod.fst = inserted.2.map Prod.fst := by
      rw [mirrors.openings, List.map_map]
      rfl
    rw [keys] at fresh
    refine ⟨⟨?_, ?_, mirrors.challenges, mirrors.publics⟩, rfl⟩
    · simp only [mirrors.openings, List.map_append]
      rfl
    · rw [List.map_append]
      exact List.nodup_append'.mpr ⟨mirrors.different, List.nodup_singleton _, List.disjoint_singleton.mpr fresh⟩
  · cases step

omit [DecidableEq P] [DecidableEq Ch] in
theorem insertOpenings_eq {inserted inserted' : Inserted F O P Ch} {entries : List (O × Variable)}
    (mirrors : Mirrors inserted) (reached : insertOpenings inserted entries = .ok inserted') :
    Inserts inserted inserted' entries := by
  induction entries generalizing inserted with
  | nil =>
      obtain rfl := Except.ok.inj reached
      exact ⟨mirrors, (List.append_nil _).symm⟩
  | cons entry entries ih =>
      obtain ⟨middle, step, reached⟩ := except_bind_eq_ok.mp reached
      have first := insertOpening_eq mirrors step
      have rest := ih first.mirrors reached
      exact ⟨rest.mirrors, by rw [rest.entries, first.entries, List.append_assoc]; rfl⟩

omit [DecidableEq P] [DecidableEq Ch] in
/-- Aliases get the variables of their sources. -/
theorem insertAliases_eq {inserted inserted' : Inserted F O P Ch} {aliases : List (OpeningAlias O)}
    (mirrors : Mirrors inserted) (reached : insertAliases inserted aliases = .ok inserted') :
    ∃ entries, Inserts inserted inserted' entries ∧
      (∀ entry ∈ aliases, ∃ v, (entry.source, v) ∈ inserted'.2 ∧ (entry.aliasId, v) ∈ inserted'.2) ∧
      ∀ holds : O → Variable → Prop, (∀ entry ∈ inserted.2, holds entry.1 entry.2) →
        (∀ entry ∈ aliases, ∀ v, holds entry.source v → holds entry.aliasId v) →
          ∀ entry ∈ inserted'.2, holds entry.1 entry.2 := by
  induction aliases generalizing inserted with
  | nil =>
      obtain rfl := Except.ok.inj reached
      exact ⟨[], ⟨mirrors, (List.append_nil _).symm⟩, nofun, fun _ start _ => start⟩
  | cons head aliases ih =>
      rw [insertAliases] at reached
      split at reached
      · cases reached
      next v found =>
        obtain ⟨middle, step, reached⟩ := except_bind_eq_ok.mp reached
        have first := insertOpening_eq mirrors step
        obtain ⟨entries, rest, paired, inherits⟩ := ih first.mirrors reached
        have total : inserted'.2 = inserted.2 ++ ((head.aliasId, v) :: entries) := by
          rw [rest.entries, first.entries, List.append_assoc]
          rfl
        have source : (head.source, v) ∈ inserted'.2 := by
          rw [total]
          exact List.mem_append_left _ (ClaimSourceTable.mem_of_lookupSource found)
        refine ⟨_, ⟨rest.mirrors, total⟩, List.forall_mem_cons.mpr ⟨⟨v, source, ?_⟩, paired⟩,
          fun holds start inherited => ?_⟩
        · rw [total]
          exact List.mem_append_right _ List.mem_cons_self
        · obtain ⟨here, inherited⟩ := List.forall_mem_cons.mp inherited
          have new := here v (start _ (ClaimSourceTable.mem_of_lookupSource found))
          refine inherits holds ?_ inherited
          rw [first.entries]
          exact List.forall_mem_append.mpr ⟨start, List.forall_mem_singleton.mpr new⟩

/-- The openings and the aliases of a stage are among the entries. -/
structure StageInserted (entries : List (O × Variable)) (stage : BlindFoldStage F O Com P Ch) (layout : StageLayout) :
    Prop where
  declared : ∀ entry ∈ stage.outputClaimRows.openingIds.zip (openingVariables stage layout), entry ∈ entries
  aliases : ∀ entry ∈ stage.outputClaimRows.openingAliases,
    ∃ v, (entry.source, v) ∈ entries ∧ (entry.aliasId, v) ∈ entries

/-- A property of the openings that aliases inherit. -/
structure Inherited (holds : O → Variable → Prop) (stage : BlindFoldStage F O Com P Ch) (layout : StageLayout) : Prop where
  declared : ∀ entry ∈ stage.outputClaimRows.openingIds.zip (openingVariables stage layout), holds entry.1 entry.2
  aliases : ∀ entry ∈ stage.outputClaimRows.openingAliases, ∀ v, holds entry.source v → holds entry.aliasId v

omit [DecidableEq P] [DecidableEq Ch] in
theorem insertOutputClaimSources_eq {inserted inserted' : Inserted F O P Ch}
    {stages : List (BlindFoldStage F O Com P Ch)} {layouts : List StageLayout} (mirrors : Mirrors inserted)
    (same : stages.length = layouts.length)
    (reached : insertOutputClaimSources inserted stages layouts = .ok inserted') :
    (∃ entries, Inserts inserted inserted' entries) ∧ List.Forall₂ (StageInserted inserted'.2) stages layouts ∧
      ∀ holds : O → Variable → Prop, (∀ entry ∈ inserted.2, holds entry.1 entry.2) →
        List.Forall₂ (Inherited holds) stages layouts → ∀ entry ∈ inserted'.2, holds entry.1 entry.2 := by
  induction stages generalizing inserted layouts with
  | nil =>
      obtain rfl := List.eq_nil_of_length_eq_zero same.symm
      obtain rfl := Except.ok.inj reached
      exact ⟨⟨[], mirrors, (List.append_nil _).symm⟩, .nil, fun _ start _ => start⟩
  | cons stage stages ih =>
      obtain ⟨layout, layouts, rfl⟩ := List.exists_cons_of_length_eq_add_one same.symm
      obtain ⟨first, step, reached⟩ := except_bind_eq_ok.mp reached
      obtain ⟨second, step', reached⟩ := except_bind_eq_ok.mp reached
      have declared := insertOpenings_eq mirrors step
      obtain ⟨aliased, aliases, paired, passed⟩ := insertAliases_eq declared.mirrors step'
      obtain ⟨⟨entries, rest⟩, later, inherits⟩ := ih aliases.mirrors (Nat.succ.inj same) reached
      have kept : ∀ entry ∈ second.2, entry ∈ inserted'.2 := fun entry member => by
        rw [rest.entries]
        exact List.mem_append_left _ member
      have total : inserted'.2 = inserted.2 ++ (stage.outputClaimRows.openingIds.zip (openingVariables stage layout) ++
          (aliased ++ entries)) := by
        rw [rest.entries, aliases.entries, declared.entries, List.append_assoc, List.append_assoc]
      refine ⟨⟨_, rest.mirrors, total⟩,
        .cons ⟨fun entry member => kept _ ?_, fun entry member => ?_⟩ later, fun holds start inherited => ?_⟩
      · rw [aliases.entries, declared.entries]
        exact List.mem_append_left _ (List.mem_append_right _ member)
      · obtain ⟨v, source, target⟩ := paired entry member
        exact ⟨v, kept _ source, kept _ target⟩
      · obtain ⟨here, inherited⟩ := List.forall₂_cons.mp inherited
        have before : ∀ entry ∈ first.2, holds entry.1 entry.2 := by
          rw [declared.entries]
          exact List.forall_mem_append.mpr ⟨start, here.declared⟩
        exact inherits holds (passed holds before here.aliases) inherited

omit [Field F] [DecidableEq O] [DecidableEq Ch] in
theorem insertPublics_eq {table table' : ClaimSourceTable F O P Ch} {publics : List (P × F)}
    (reached : insertPublics table publics = .ok table') :
    table'.openings = table.openings ∧ table'.challenges = table.challenges ∧
      table'.publics = table.publics ++ publics.map (fun entry => (entry.1, .constant entry.2)) ∧
      ((table.publics.map Prod.fst).Nodup → (table'.publics.map Prod.fst).Nodup) := by
  induction publics generalizing table with
  | nil =>
      obtain rfl := Except.ok.inj reached
      exact ⟨rfl, rfl, (List.append_nil _).symm, id⟩
  | cons entry publics ih =>
      rw [insertPublics] at reached
      split at reached
      next middle step =>
        obtain ⟨entries, new, shown⟩ := Option.bind_eq_some_iff.mp step
        obtain rfl := Option.some.inj shown
        obtain ⟨fresh, rfl⟩ := insertSource_eq new
        obtain ⟨openings, challenges, publics, different⟩ := ih reached
        refine ⟨openings, challenges, by rw [publics, List.append_assoc]; rfl, fun before => different ?_⟩
        rw [List.map_append]
        exact List.nodup_append'.mpr ⟨before, List.nodup_singleton _, List.disjoint_singleton.mpr fresh⟩
      · cases reached

omit [Field F] [DecidableEq O] [DecidableEq P] in
theorem insertChallenges_eq {table table' : ClaimSourceTable F O P Ch} {challenges : List (Ch × F)}
    (reached : insertChallenges table challenges = .ok table') :
    table'.openings = table.openings ∧ table'.publics = table.publics ∧
      table'.challenges = table.challenges ++ challenges.map (fun entry => (entry.1, .constant entry.2)) ∧
      ((table.challenges.map Prod.fst).Nodup → (table'.challenges.map Prod.fst).Nodup) := by
  induction challenges generalizing table with
  | nil =>
      obtain rfl := Except.ok.inj reached
      exact ⟨rfl, rfl, (List.append_nil _).symm, id⟩
  | cons entry challenges ih =>
      rw [insertChallenges] at reached
      split at reached
      next middle step =>
        obtain ⟨entries, new, shown⟩ := Option.bind_eq_some_iff.mp step
        obtain rfl := Option.some.inj shown
        obtain ⟨fresh, rfl⟩ := insertSource_eq new
        obtain ⟨openings, publics, challenges, different⟩ := ih reached
        refine ⟨openings, publics, by rw [challenges, List.append_assoc]; rfl, fun before => different ?_⟩
        rw [List.map_append]
        exact List.nodup_append'.mpr ⟨before, List.nodup_singleton _, List.disjoint_singleton.mpr fresh⟩
      · cases reached

/-! ## Places of openings -/

omit [DecidableEq O] [DecidableEq P] [DecidableEq Ch] in
/-- Rows that are cut to one length are indexed by quotient and remainder. -/
theorem getElem?_flatMap_take {rowLen : ℕ} (positive : 0 < rowLen) {rows : List OutputClaimRowLayout}
    (widths : ∀ row ∈ rows, rowLen ≤ row.vars.length) (index : ℕ) :
    (rows.flatMap fun row => row.vars.take rowLen)[index]? =
      rows[index / rowLen]?.bind fun row => row.vars[index % rowLen]? := by
  induction rows generalizing index with
  | nil => simp
  | cons row rows ih =>
      obtain ⟨wide, widths⟩ := List.forall_mem_cons.mp widths
      have length : (row.vars.take rowLen).length = rowLen := by rw [List.length_take, min_eq_left wide]
      rw [List.flatMap_cons]
      by_cases here : index < rowLen
      · rw [List.getElem?_append_left (by rwa [length]), List.getElem?_take_of_lt here, Nat.div_eq_of_lt here,
          Nat.mod_eq_of_lt here]
        rfl
      · obtain ⟨later, rfl⟩ := Nat.exists_eq_add_of_le (Nat.not_lt.mp here)
        rw [List.getElem?_append_right (by rw [length]; exact Nat.le_add_right _ _), length, Nat.add_sub_cancel_left,
          ih widths, Nat.add_div_left _ positive, Nat.add_mod_left, List.getElem?_cons_succ]

/-- A stage with openings has rows for them. -/
structure RowsReady (stage : BlindFoldStage F O Com P Ch) : Prop where
  positive : stage.outputClaimRows.openingIds ≠ [] → 0 < stage.outputClaimRows.rowLen
  room : stage.outputClaimRows.openingIds.length ≤
    stage.outputClaimRows.commitments.length * stage.outputClaimRows.rowLen

omit [Field F] [DecidableEq O] [DecidableEq P] [DecidableEq Ch] in
theorem validateRows_ready {stage : BlindFoldStage F O Com P Ch} (valid : validateRows stage.outputClaimRows = .ok ()) :
    RowsReady stage := by
  simp only [validateRows] at valid
  split_ifs at valid with none_ some_ empty zero past short rest
  · have nothing := not_not.mp some_
    exact ⟨fun present => absurd nothing present, by rw [nothing]; exact Nat.zero_le _⟩
  · exact ⟨fun _ => Nat.pos_of_ne_zero zero, Nat.not_lt.mp short⟩

omit [Field F] [DecidableEq O] [DecidableEq P] [DecidableEq Ch] in
/-- The openings of a stage are declared in the order of their places. -/
theorem mem_zip_openingVariables {stage : BlindFoldStage F O Com P Ch} {layout : StageLayout} {rowLen : ℕ}
    (rows : OutputRowsMatch rowLen stage layout.outputClaimRows) (width : stage.outputClaimRows.rowLen ≤ rowLen)
    (ready : RowsReady stage) {id : O} {v : Variable} :
    (id, v) ∈ stage.outputClaimRows.openingIds.zip (openingVariables stage layout) ↔
      ∃ index : ℕ, stage.outputClaimRows.openingIds[index]? = some id ∧
        layout.slot stage.outputClaimRows.rowLen index = some v := by
  rw [List.mem_iff_getElem?]
  refine exists_congr fun index => ?_
  rw [List.getElem?_zip_eq_some]
  refine and_congr_right fun found => ?_
  have positive := ready.positive fun empty => by simp [empty] at found
  rw [openingVariables, getElem?_flatMap_take positive (fun row member => (rows.widths row member).symm ▸ width) index]
  rfl

omit [Field F] [DecidableEq O] [DecidableEq P] [DecidableEq Ch] in
/-- Every opening has a place. -/
theorem slot_isSome {stage : BlindFoldStage F O Com P Ch} {layout : StageLayout} {rowLen : ℕ}
    (rows : OutputRowsMatch rowLen stage layout.outputClaimRows) (width : stage.outputClaimRows.rowLen ≤ rowLen)
    (ready : RowsReady stage) {index : ℕ} {id : O} (found : stage.outputClaimRows.openingIds[index]? = some id) :
    ∃ v, layout.slot stage.outputClaimRows.rowLen index = some v := by
  obtain ⟨below, -⟩ := List.getElem?_eq_some_iff.mp found
  have positive := ready.positive fun empty => by simp [empty] at found
  have inRow : index / stage.outputClaimRows.rowLen < layout.outputClaimRows.length := by
    rw [rows.count]
    exact Nat.div_lt_of_lt_mul (by rw [Nat.mul_comm]; exact below.trans_le ready.room)
  have inColumn : index % stage.outputClaimRows.rowLen <
      (layout.outputClaimRows[index / stage.outputClaimRows.rowLen]).vars.length := by
    rw [rows.widths _ (List.getElem_mem inRow)]
    exact (Nat.mod_lt _ positive).trans_le width
  refine ⟨_, Option.bind_eq_some_iff.mpr ⟨_, List.getElem?_eq_getElem inRow, List.getElem?_eq_getElem inColumn⟩⟩

/-! ## Values of sources -/

/-- The values that the statement gives to the sources of its expressions. -/
structure ValuesAssigned (statement : BlindFoldStatement F O Com P Ch) (layout : Layout) (publics : List (P × F))
    (challenges : List (Ch × F)) (z : ℕ → F) (values : SourceValues F O P Ch) : Prop where
  openings : List.Forall₂ (StageOpeningsAssigned z values.opening) statement.stages layout.stages
  publics : ∀ entry ∈ publics, values.derived entry.1 = entry.2
  challenges : ∀ entry ∈ challenges, values.challenge entry.1 = entry.2

/-- The table of a build. -/
structure TableBuilt (statement : BlindFoldStatement F O Com P Ch) (layout : Layout) (publics : List (P × F))
    (challenges : List (Ch × F)) (entries : List (O × Variable)) (table : ClaimSourceTable F O P Ch) : Prop where
  different : (entries.map Prod.fst).Nodup
  differentPublics : (publics.map Prod.fst).Nodup
  differentChallenges : (challenges.map Prod.fst).Nodup
  openings : table.openings = entries.map fun entry => (entry.1, .linearCombination (.ofVariable entry.2))
  publics : table.publics = publics.map fun entry => (entry.1, .constant entry.2)
  challenges : table.challenges = challenges.map fun entry => (entry.1, .constant entry.2)
  inserted : List.Forall₂ (StageInserted entries) statement.stages layout.stages
  inherits : ∀ holds : O → Variable → Prop, List.Forall₂ (Inherited holds) statement.stages layout.stages →
    ∀ entry ∈ entries, holds entry.1 entry.2

/-- Shapes of the rows of a layout. -/
structure RowsFit (statement : BlindFoldStatement F O Com P Ch) (layout : Layout) : Prop where
  rows : List.Forall₂ (fun stage (stageLayout : StageLayout) =>
    OutputRowsMatch layout.witnessRowLen stage stageLayout.outputClaimRows) statement.stages layout.stages
  widths : ∀ stage ∈ statement.stages, stage.outputClaimRows.rowLen ≤ layout.witnessRowLen
  ready : ∀ stage ∈ statement.stages, RowsReady stage

omit [DecidableEq O] [DecidableEq P] [DecidableEq Ch] in
/-- Assigned openings are the values of their entries. -/
theorem TableBuilt.entries_eq {statement : BlindFoldStatement F O Com P Ch} {layout : Layout} {publics : List (P × F)}
    {challenges : List (Ch × F)} {entries : List (O × Variable)} {table : ClaimSourceTable F O P Ch}
    (built : TableBuilt statement layout publics challenges entries table) (fit : RowsFit statement layout) {z : ℕ → F}
    {openings : O → F} (assigned : List.Forall₂ (StageOpeningsAssigned z openings) statement.stages layout.stages) :
    ∀ entry ∈ entries, openings entry.1 = z entry.2.index := by
  refine built.inherits (fun id v => openings id = z v.index) (List.forall₂_iff_zip.mpr ⟨assigned.length_eq,
    fun {stage stageLayout} member => ⟨fun ⟨id, v⟩ among => ?_, fun entry among v source => ?_⟩⟩)
  · have here := (List.of_mem_zip member).1
    obtain ⟨index, found, slot⟩ := (mem_zip_openingVariables ((List.forall₂_iff_zip.mp fit.rows).2 member)
      (fit.widths stage here) (fit.ready stage here)).mp among
    obtain ⟨u, slot', value⟩ := ((List.forall₂_iff_zip.mp assigned).2 member).declared index id found
    obtain rfl := Option.some.inj (slot.symm.trans slot')
    exact value
  · exact (((List.forall₂_iff_zip.mp assigned).2 member).aliases entry among).trans source

/-- Assigned values are those of the table. -/
theorem TableBuilt.fits {statement : BlindFoldStatement F O Com P Ch} {layout : Layout} {publics : List (P × F)}
    {challenges : List (Ch × F)} {entries : List (O × Variable)} {table : ClaimSourceTable F O P Ch}
    (built : TableBuilt statement layout publics challenges entries table) (fit : RowsFit statement layout) {z : ℕ → F}
    {values : SourceValues F O P Ch} (assigned : ValuesAssigned statement layout publics challenges z values) :
    table.Fits z values where
  openings id source resolved := by
    rw [ClaimSourceTable.opening] at resolved
    split at resolved <;> cases resolved
    next found =>
      have member := ClaimSourceTable.mem_of_lookupSource found
      rw [built.openings] at member
      obtain ⟨entry, among, same⟩ := List.mem_map.mp member
      obtain ⟨rfl, rfl⟩ := Prod.mk.inj same
      rw [built.entries_eq fit assigned.openings entry among]
      exact (LinearCombination.value_ofVariable _ z).symm
  challenges id source resolved := by
    rw [ClaimSourceTable.challenge] at resolved
    split at resolved <;> cases resolved
    next found =>
      have member := ClaimSourceTable.mem_of_lookupSource found
      rw [built.challenges] at member
      obtain ⟨entry, among, same⟩ := List.mem_map.mp member
      obtain ⟨rfl, rfl⟩ := Prod.mk.inj same
      exact assigned.challenges entry among
  publics id source resolved := by
    rw [ClaimSourceTable.derived] at resolved
    split at resolved <;> cases resolved
    next found =>
      have member := ClaimSourceTable.mem_of_lookupSource found
      rw [built.publics] at member
      obtain ⟨entry, among, same⟩ := List.mem_map.mp member
      obtain ⟨rfl, rfl⟩ := Prod.mk.inj same
      exact assigned.publics entry among

omit [DecidableEq O] [DecidableEq P] [DecidableEq Ch] in
/-- The variables of the table are those of its entries. -/
theorem TableBuilt.known_of_entries {statement : BlindFoldStatement F O Com P Ch} {layout : Layout}
    {publics : List (P × F)} {challenges : List (Ch × F)} {entries : List (O × Variable)}
    {table : ClaimSourceTable F O P Ch} (built : TableBuilt statement layout publics challenges entries table)
    {holds : ℕ → Prop} (each : ∀ entry ∈ entries, holds entry.2.index) : table.Known holds where
  openings := by
    rw [built.openings]
    refine List.forall_mem_map.mpr fun entry member => ?_
    intro term column
    obtain rfl := List.mem_singleton.mp column
    exact each entry member
  challenges := by
    rw [built.challenges]
    exact List.forall_mem_map.mpr fun _ _ => trivial
  publics := by
    rw [built.publics]
    exact List.forall_mem_map.mpr fun _ _ => trivial

omit [DecidableEq O] [DecidableEq P] [DecidableEq Ch] in
/-- The variables of the table are allocated. -/
theorem TableBuilt.known {statement : BlindFoldStatement F O Com P Ch} {layout : Layout} {publics : List (P × F)}
    {challenges : List (Ch × F)} {entries : List (O × Variable)} {table : ClaimSourceTable F O P Ch}
    (built : TableBuilt statement layout publics challenges entries table) {count : ℕ}
    (rows : ∀ stage ∈ layout.stages, ∀ row ∈ stage.outputClaimRows, ∀ v ∈ row.vars, v.index < count) :
    table.Known (· < count) := by
  refine built.known_of_entries (built.inherits (fun _ v => v.index < count) (List.forall₂_iff_zip.mpr
    ⟨built.inserted.length_eq, fun {stage stageLayout} member => ⟨fun entry among => ?_, fun _ _ _ source => source⟩⟩))
  obtain ⟨row, there, inside⟩ := List.mem_flatMap.mp (List.of_mem_zip among).2
  exact rows stageLayout (List.of_mem_zip member).2 row there _ (List.mem_of_mem_take inside)

/-- The values of the table are assigned. -/
theorem TableBuilt.assigned {statement : BlindFoldStatement F O Com P Ch} {layout : Layout} {publics : List (P × F)}
    {challenges : List (Ch × F)} {entries : List (O × Variable)} {table : ClaimSourceTable F O P Ch}
    (built : TableBuilt statement layout publics challenges entries table) (fit : RowsFit statement layout) (z : ℕ → F) :
    ValuesAssigned statement layout publics challenges z (table.values z) := by
  have opening (id : O) (v : Variable) (member : (id, v) ∈ entries) : (table.values z).opening id = z v.index := by
    have keys : (table.openings.map Prod.fst).Nodup := by
      rw [built.openings, List.map_map]
      exact built.different
    have entry : (id, SourceValue.linearCombination (.ofVariable v)) ∈ table.openings := by
      rw [built.openings]
      exact List.mem_map_of_mem (f := fun entry : O × Variable =>
        (entry.1, SourceValue.linearCombination (LinearCombination.ofVariable (F := F) entry.2))) member
    simp only [ClaimSourceTable.values, lookupSource_of_mem keys entry]
    exact LinearCombination.value_ofVariable v z
  refine ⟨List.forall₂_iff_zip.mpr ⟨built.inserted.length_eq, fun {stage stageLayout} member => ⟨fun index id found => ?_,
    fun entry among => ?_⟩⟩, fun entry member => ?_, fun entry member => ?_⟩
  · have here := (List.of_mem_zip member).1
    have rows := (List.forall₂_iff_zip.mp fit.rows).2 member
    obtain ⟨v, slot⟩ := slot_isSome rows (fit.widths stage here) (fit.ready stage here) found
    refine ⟨v, slot, opening id v (((List.forall₂_iff_zip.mp built.inserted).2 member).declared (id, v) ?_)⟩
    exact (mem_zip_openingVariables rows (fit.widths stage here) (fit.ready stage here)).mpr ⟨index, found, slot⟩
  · obtain ⟨v, source, target⟩ := ((List.forall₂_iff_zip.mp built.inserted).2 member).aliases entry among
    rw [opening _ v source, opening _ v target]
  · have keys : (table.publics.map Prod.fst).Nodup := by
      rw [built.publics, List.map_map]
      exact built.differentPublics
    have found : (entry.1, SourceValue.constant entry.2) ∈ table.publics := by
      rw [built.publics]
      exact List.mem_map_of_mem (f := fun entry : P × F => (entry.1, SourceValue.constant entry.2)) member
    simp only [ClaimSourceTable.values, lookupSource_of_mem keys found]
    rfl
  · have keys : (table.challenges.map Prod.fst).Nodup := by
      rw [built.challenges, List.map_map]
      exact built.differentChallenges
    have found : (entry.1, SourceValue.constant entry.2) ∈ table.challenges := by
      rw [built.challenges]
      exact List.mem_map_of_mem (f := fun entry : Ch × F => (entry.1, SourceValue.constant entry.2)) member
    simp only [ClaimSourceTable.values, lookupSource_of_mem keys found]
    rfl

/-- The tables that a build makes. -/
theorem tableBuilt {statement : BlindFoldStatement F O Com P Ch} {layout : Layout} {publics : List (P × F)}
    {challenges : List (Ch × F)} {inserted : Inserted F O P Ch} {table table' : ClaimSourceTable F O P Ch}
    (same : statement.stages.length = layout.stages.length)
    (openings : insertOutputClaimSources (.new, []) statement.stages layout.stages = .ok inserted)
    (first : insertPublics inserted.1 publics = .ok table) (second : insertChallenges table challenges = .ok table') :
    TableBuilt statement layout publics challenges inserted.2 table' := by
  have start : Mirrors ((.new, []) : Inserted F O P Ch) := ⟨rfl, List.nodup_nil, rfl, rfl⟩
  obtain ⟨⟨entries, run⟩, placed, inherits⟩ := insertOutputClaimSources_eq start same openings
  obtain ⟨sameOpenings, sameChallenges, namedPublics, differentPublics⟩ := insertPublics_eq first
  obtain ⟨sameOpenings', samePublics, namedChallenges, differentChallenges⟩ := insertChallenges_eq second
  rw [run.mirrors.publics] at namedPublics differentPublics
  rw [sameChallenges, run.mirrors.challenges] at namedChallenges differentChallenges
  refine ⟨run.mirrors.different, ?_, ?_, ?_, ?_, ?_, placed, fun holds => inherits holds nofun⟩
  · have keys := differentPublics List.nodup_nil
    rwa [namedPublics, List.nil_append, List.map_map] at keys
  · have keys := differentChallenges List.nodup_nil
    rwa [namedChallenges, List.nil_append, List.map_map] at keys
  · rw [sameOpenings', sameOpenings, run.mirrors.openings]
  · rw [samePublics, namedPublics, List.nil_append]
  · rw [namedChallenges, List.nil_append]

/-! ## The checks -/

variable [DecidableEq F]

/-- The checks of all stages and final openings. -/
structure StatementHolds (statement : BlindFoldStatement F O Com P Ch) (layout : Layout) (values : SourceValues F O P Ch)
    (z : ℕ → F) : Prop where
  stages : List.Forall₂ (fun stage layout => StageHolds stage layout values z) statement.stages layout.stages
  finalOpenings : List.Forall₂ (fun binding layout => FinalOpeningHolds binding layout values z)
    statement.finalOpenings layout.finalOpenings

/-- A final opening is not empty, and has a coefficient for each opening. -/
structure BindingValid (binding : FinalOpeningBinding F O Com) (layout : FinalOpeningLayout) : Prop where
  evaluation : layout.evaluation ≠ none
  lengths : binding.openingIds.length = binding.coefficients.length

/-- What a build gives. -/
structure Builds (statement : BlindFoldStatement F O Com P Ch) (builder builder' : R1csBuilder F) (publics : List (P × F))
    (challenges : List (Ch × F)) (layout : Layout) : Prop where
  /-- Every opening has a variable, every alias its source's, and every final opening an evaluation. -/
  assigned : ∀ z, ∃ values, ValuesAssigned statement layout publics challenges z values
  bindings : List.Forall₂ BindingValid statement.finalOpenings layout.finalOpenings
  /-- The constraints can be satisfied, by some values of the auxiliary products, exactly when the checks hold. -/
  checks : ∃ allocated, statement.allocateLayout builder = .ok (layout, allocated) ∧
    ∀ z, z 0 = 1 → ∀ values, ValuesAssigned statement layout publics challenges z values →
      ((∃ z', AgreeBelow allocated.numVars z z' ∧ builder'.Satisfies z') ↔
        builder.Satisfies z ∧ StatementHolds statement layout values z)

/-- A statement that validates is built into its checks. -/
def BuildsStageChecks (F O Com P Ch : Type) [Field F] [DecidableEq F] [DecidableEq O] [DecidableEq P] [DecidableEq Ch] :
    Prop :=
  ∀ (statement : BlindFoldStatement F O Com P Ch) (builder builder' : R1csBuilder F) (publics : List (P × F))
    (challenges : List (Ch × F)) (layout : Layout), statement.validate = .ok () →
    statement.buildWithSources builder publics challenges = .ok (layout, builder') →
      Builds statement builder builder' publics challenges layout

omit [DecidableEq P] [DecidableEq Ch] [DecidableEq F] [Field F] in
theorem validate_eq_ok {statement : BlindFoldStatement F O Com P Ch} (valid : statement.validate = .ok ()) :
    (∀ stage ∈ statement.stages, RowsReady stage) ∧ ∀ binding ∈ statement.finalOpenings,
      binding.openingIds ≠ [] ∧ binding.openingIds.length = binding.coefficients.length := by
  obtain ⟨_, _, valid⟩ := except_bind_eq_ok.mp valid
  obtain ⟨_, rows, finals⟩ := except_bind_eq_ok.mp valid
  refine ⟨fun stage member => validateRows_ready (forM_eq_ok.mp rows stage member), fun binding member => ?_⟩
  have here := forM_eq_ok.mp finals binding member
  rw [validateFinalOpening] at here
  split_ifs at here with empty lengths
  exact ⟨empty, not_not.mp lengths⟩

omit [DecidableEq F] in
/-- The checks are the same under the values of the table. -/
theorem statementHolds_iff {statement : BlindFoldStatement F O Com P Ch} {layout : Layout} {count : ℕ}
    {table : ClaimSourceTable F O P Ch} (known : table.Known (· < count))
    (stages : ∀ stage ∈ statement.stages, StageResolved table stage)
    (finals : List.Forall₂ (FinalOpeningResolved table) statement.finalOpenings layout.finalOpenings) {z : ℕ → F}
    {values : SourceValues F O P Ch} (fits : table.Fits z values) :
    StatementHolds statement layout (table.values z) z ↔ StatementHolds statement layout values z := by
  have stage_iff (stage : BlindFoldStage F O Com P Ch) (stageLayout : StageLayout)
      (member : (stage, stageLayout) ∈ statement.stages.zip layout.stages) :
      StageHolds stage stageLayout (table.values z) z ↔ StageHolds stage stageLayout values z := by
    obtain ⟨input, output⟩ := stages stage (List.of_mem_zip member).1
    constructor
    · exact fun holds => ⟨by rw [holds.input, Expr.evaluate_eq known input fits], holds.rounds,
        by rw [holds.output, Expr.evaluate_eq known output fits]⟩
    · exact fun holds => ⟨by rw [holds.input, Expr.evaluate_eq known input fits], holds.rounds,
        by rw [holds.output, Expr.evaluate_eq known output fits]⟩
  have final_iff (binding : FinalOpeningBinding F O Com) (openingLayout : FinalOpeningLayout)
      (member : (binding, openingLayout) ∈ statement.finalOpenings.zip layout.finalOpenings) :
      FinalOpeningHolds binding openingLayout (table.values z) z ↔ FinalOpeningHolds binding openingLayout values z := by
    refine forall₂_congr fun evaluation present => ?_
    have resolved := (List.forall₂_iff_zip.mp finals).2 member (by rw [present]; exact Option.some_ne_none _)
    have same : ((binding.openingIds.zip binding.coefficients).map fun entry =>
        entry.2 * (table.values z).opening entry.1) =
          (binding.openingIds.zip binding.coefficients).map fun entry => entry.2 * values.opening entry.1 := by
      refine List.map_congr_left fun entry among => ?_
      obtain ⟨source, found⟩ := resolved entry among
      rw [(opening_eq known found).2 z, fits.openings entry.1 source found]
    rw [same]
  constructor
  · rintro ⟨stages, finals⟩
    exact ⟨List.forall₂_iff_zip.mpr ⟨stages.length_eq, fun {stage stageLayout} member =>
        (stage_iff stage stageLayout member).mp ((List.forall₂_iff_zip.mp stages).2 member)⟩,
      List.forall₂_iff_zip.mpr ⟨finals.length_eq, fun {binding openingLayout} member =>
        (final_iff binding openingLayout member).mp ((List.forall₂_iff_zip.mp finals).2 member)⟩⟩
  · rintro ⟨stages, finals⟩
    exact ⟨List.forall₂_iff_zip.mpr ⟨stages.length_eq, fun {stage stageLayout} member =>
        (stage_iff stage stageLayout member).mpr ((List.forall₂_iff_zip.mp stages).2 member)⟩,
      List.forall₂_iff_zip.mpr ⟨finals.length_eq, fun {binding openingLayout} member =>
        (final_iff binding openingLayout member).mpr ((List.forall₂_iff_zip.mp finals).2 member)⟩⟩

omit [DecidableEq O] [DecidableEq P] [DecidableEq Ch] [DecidableEq F] in
theorem evaluation_lt {statement : BlindFoldStatement F O Com P Ch} {layout : Layout} {start builder : R1csBuilder F}
    (allocated : LayoutAllocated statement start builder layout) :
    ∀ opening ∈ layout.finalOpenings, ∀ v, opening.evaluation = some v → v.index < builder.numVars :=
  fun opening member v found => allocated.fresh.lt (List.mem_append_right _ (List.mem_flatMap.mpr
    ⟨opening, member, List.mem_append_left _ (by rw [found]; exact List.mem_singleton_self v)⟩))

omit [DecidableEq F] in
/-- The checks are about the variables of the layout. -/
theorem statementHolds_congr {statement : BlindFoldStatement F O Com P Ch} {layout : Layout}
    {start builder : R1csBuilder F} (allocated : LayoutAllocated statement start builder layout)
    {table : ClaimSourceTable F O P Ch} (known : table.Known (· < builder.numVars)) {z z' : ℕ → F}
    (agree : AgreeBelow builder.numVars z z') (holds : StatementHolds statement layout (table.values z) z) :
    StatementHolds statement layout (table.values z') z' where
  stages := List.forall₂_iff_zip.mpr ⟨holds.stages.length_eq, fun {stage stageLayout} member =>
    stageHolds_congr known ((List.forall₂_iff_zip.mp allocated.valid).2 member) agree
      ((List.forall₂_iff_zip.mp holds.stages).2 member)⟩
  finalOpenings := List.forall₂_iff_zip.mpr ⟨holds.finalOpenings.length_eq, fun {binding opening} member v found => by
    rw [agree _ (evaluation_lt allocated opening (List.of_mem_zip member).2 v found),
      ClaimSourceTable.values_congr known agree]
    exact (List.forall₂_iff_zip.mp holds.finalOpenings).2 member v found⟩

/-- What the appended constraints emit. -/
theorem append_eq {statement : BlindFoldStatement F O Com P Ch} {layout : Layout} {start builder builder' : R1csBuilder F}
    (allocated : LayoutAllocated statement start builder layout) {table : ClaimSourceTable F O P Ch}
    (known : table.Known (· < builder.numVars)) (appended : statement.append builder layout table = .ok builder') :
    (∀ stage ∈ statement.stages, StageResolved table stage) ∧
      List.Forall₂ (FinalOpeningResolved table) statement.finalOpenings layout.finalOpenings ∧
      Emits builder builder' fun z => StatementHolds statement layout (table.values z) z := by
  rw [BlindFoldStatement.append] at appended
  split_ifs at appended with stageCount openingCount
  obtain ⟨middle, stages, finals⟩ := except_bind_eq_ok.mp appended
  obtain ⟨resolved, first⟩ := appendStages_eq known le_rfl allocated.valid stages
  have within := evaluation_lt allocated
  obtain ⟨resolved', second⟩ := appendFinalOpenings_eq known first.grows allocated.finalOpenings.length_eq within finals
  refine ⟨resolved, resolved', (first.trans second fun z z' _ agree _ held => ?_).congr
    fun z _ _ => ⟨fun both => ⟨both.1, both.2⟩, fun holds => ⟨holds.stages, holds.finalOpenings⟩⟩⟩
  refine List.forall₂_iff_zip.mpr ⟨held.length_eq, fun {binding opening} member v found => ?_⟩
  rw [agree _ (within opening (List.of_mem_zip member).2 v found), ClaimSourceTable.values_congr known agree]
  exact (List.forall₂_iff_zip.mp held).2 member v found

/-- The constraints of a validated statement are its checks. -/
theorem buildWithSources_eq {statement : BlindFoldStatement F O Com P Ch} {builder builder' : R1csBuilder F}
    {publics : List (P × F)} {challenges : List (Ch × F)} {layout : Layout} (valid : statement.validate = .ok ())
    (built : statement.buildWithSources builder publics challenges = .ok (layout, builder')) :
    Builds statement builder builder' publics challenges layout := by
  obtain ⟨⟨layout', allocated⟩, step, built⟩ := except_bind_eq_ok.mp built
  obtain ⟨inserted, openings, built⟩ := except_bind_eq_ok.mp built
  obtain ⟨first, publicEntries, built⟩ := except_bind_eq_ok.mp built
  obtain ⟨table, challengeEntries, built⟩ := except_bind_eq_ok.mp built
  obtain ⟨final, appended, shown⟩ := except_bind_eq_ok.mp built
  obtain ⟨rfl, rfl⟩ := Prod.mk.inj (Except.ok.inj shown)
  have facts := allocateLayout_eq step
  obtain ⟨ready, bindings⟩ := validate_eq_ok valid
  have fit : RowsFit statement layout' := ⟨facts.rows, facts.widths, ready⟩
  have tables := tableBuilt facts.stages.length_eq openings publicEntries challengeEntries
  have known : table.Known (· < allocated.numVars) := tables.known fun stage member row there v inside =>
    facts.fresh.lt (List.mem_append_left _ (List.mem_append_left _ (List.mem_append_right _ (List.mem_flatMap.mpr
      ⟨stage, member, List.mem_flatMap.mpr ⟨row, there, inside⟩⟩))))
  obtain ⟨resolved, resolved', emits⟩ := append_eq facts known appended
  refine ⟨fun z => ⟨_, tables.assigned fit z⟩, List.forall₂_iff_zip.mpr ⟨facts.finalOpenings.length_eq,
    fun {binding openingLayout} member => ⟨fun missing => ?_, ?_⟩⟩, allocated, step, fun z one values assigned => ?_⟩
  · have empty := ((List.forall₂_iff_zip.mp facts.finalOpenings).2 member).evaluation.mp missing
    exact (bindings binding (List.of_mem_zip member).1).1 empty
  · exact (bindings binding (List.of_mem_zip member).1).2
  · rw [emits.iff (fun _ _ agree => statementHolds_congr facts known agree) one, facts.fresh.satisfies,
      statementHolds_iff known resolved resolved' (tables.fits fit assigned)]

end

/-- The constraints of every statement that validates are its checks. -/
theorem buildsStageChecks {F : Type} [Field F] [DecidableEq F] (O Com P Ch : Type) [DecidableEq O] [DecidableEq P]
    [DecidableEq Ch] : BuildsStageChecks F O Com P Ch := fun _ _ _ _ _ _ => buildWithSources_eq

end JoltWasm.Blindfold
