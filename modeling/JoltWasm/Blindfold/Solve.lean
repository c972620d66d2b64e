import JoltWasm.Blindfold.Assignment

/-!
# Products in the order of their constraints

Each product constraint defines the next variable from variables before it, and every other constraint has an empty
third row.  One pass over the constraints then gives the products their values in any satisfying assignment.
-/

namespace JoltWasm.Blindfold

open R1cs Lib

section

variable {F O Com P Ch : Type} [Field F] [DecidableEq F]

/-- A variable that is ready, or was defined before `next`. -/
def Available (ready : ℕ → Prop) (base next index : ℕ) : Prop := ready index ∨ base ≤ index ∧ index < next

/-- The products define the variables from `next` to the last one, one after the other. -/
inductive ProductOrder (ready : ℕ → Prop) (base : ℕ) : ℕ → List (Constraint F) → ℕ → Prop
  | nil (next : ℕ) : ProductOrder ready base next [] next
  | check {a b : SparseRow F} {rest : List (Constraint F)} {next stop : ℕ}
      (later : ProductOrder ready base next rest stop) : ProductOrder ready base next (((a, b), []) :: rest) stop
  | product {a b : SparseRow F} {rest : List (Constraint F)} {next stop : ℕ}
      (left : ∀ term ∈ a, Available ready base next term.1) (right : ∀ term ∈ b, Available ready base next term.1)
      (later : ProductOrder ready base (next + 1) rest stop) :
      ProductOrder ready base next (((a, b), [(next, 1)]) :: rest) stop

omit [DecidableEq F] in
theorem ProductOrder.append {ready : ℕ → Prop} {base first second third : ℕ} {constraints constraints' : List (Constraint F)}
    (order : ProductOrder ready base first constraints second) (rest : ProductOrder ready base second constraints' third) :
    ProductOrder ready base first (constraints ++ constraints') third := by
  induction order with
  | nil => exact rest
  | check _ ih => exact .check (ih rest)
  | product left right _ ih => exact .product left right (ih rest)

omit [DecidableEq F] in
theorem ProductOrder.le {ready : ℕ → Prop} {base first second : ℕ} {constraints : List (Constraint F)}
    (order : ProductOrder ready base first constraints second) : first ≤ second := by
  induction order with
  | nil => exact le_rfl
  | check _ ih => exact ih
  | product _ _ _ ih => exact (Nat.le_succ _).trans ih

/-! ## One pass -/

/-- A partial assignment of `z`: the ready variables and the products before `next` have values, those from `next` to
`stop` have none. -/
structure SolvedTo (ready : ℕ → Prop) (base next stop : ℕ) (z : ℕ → F) (witness : Partial F) : Prop where
  ready : ∀ index, ready index → witness[index]? = some (some (z index))
  solved : ∀ index, base ≤ index → index < next → witness[index]? = some (some (z index))
  unsolved : ∀ index, next ≤ index → index < stop → witness[index]? = some none

omit [DecidableEq F] in
/-- A row of available variables has its value. -/
theorem evaluateSparse_eq {ready : ℕ → Prop} {base next stop : ℕ} {z : ℕ → F} {witness : Partial F}
    (solved : SolvedTo ready base next stop z witness) {row : SparseRow F}
    (available : ∀ term ∈ row, Available ready base next term.1) : evaluateSparse row witness = some (rowValue row z) := by
  have each : row.mapM (fun term => (witness.getD term.1 none).map (· * term.2)) =
      some (row.map fun term => term.2 * z term.1) := by
    induction row with
    | nil => rfl
    | cons term row ih =>
        obtain ⟨index, coefficient⟩ := term
        obtain ⟨here, available⟩ := List.forall_mem_cons.mp available
        have found : witness[index]? = some (some (z index)) :=
          here.elim (solved.ready index) fun between => solved.solved index between.1 between.2
        rw [List.mapM_cons, ih available]
        simp only [List.getD_eq_getElem?_getD, found]
        exact congrArg (fun value => some (value :: _)) (mul_comm _ _)
  exact congrArg (Option.map List.sum) each

omit [Field F] [DecidableEq F] in
theorem SolvedTo.step {ready : ℕ → Prop} {base next stop : ℕ} {z : ℕ → F} {witness : Partial F}
    (solved : SolvedTo ready base next stop z witness) (inside : next < stop) (fresh : ∀ index, ready index → index < base)
    (after : base ≤ next) : SolvedTo ready base (next + 1) stop z (witness.set next (some (z next))) where
  ready index here := by
    have other : next ≠ index := fun same => absurd (fresh index here) (by omega)
    rw [List.getElem?_set_ne other]
    exact solved.ready index here
  solved index from_ below := by
    obtain ⟨bound, -⟩ := List.getElem?_eq_some_iff.mp (solved.unsolved next le_rfl inside)
    by_cases same : next = index
    · subst same
      rw [List.getElem?_set_self bound]
    · rw [List.getElem?_set_ne same]
      exact solved.solved index from_ (by omega)
  unsolved index from_ below := by
    have other : next ≠ index := by omega
    rw [List.getElem?_set_ne other]
    exact solved.unsolved index (by omega) below

/-- The pass gives the products their values, and changes nothing else. -/
theorem solveProducts_eq {ready : ℕ → Prop} {base next stop : ℕ} {constraints : List (Constraint F)}
    (order : ProductOrder ready base next constraints stop) (fresh : ∀ index, ready index → index < base)
    (after : base ≤ next) {z : ℕ → F}
    (holds : ∀ row ∈ constraints, rowValue row.1.1 z * rowValue row.1.2 z = rowValue row.2 z) {witness : Partial F}
    (solved : SolvedTo ready base next stop z witness) (constraint : ℕ) :
    ∃ witness', solveProducts constraint witness constraints = .ok witness' ∧ witness'.length = witness.length ∧
      SolvedTo ready base stop stop z witness' ∧ ∀ index < next, witness'[index]? = witness[index]? := by
  induction order generalizing witness constraint with
  | nil => exact ⟨witness, rfl, rfl, solved, fun _ _ => rfl⟩
  | check _ ih => exact ih after (List.forall_mem_cons.mp holds).2 solved (constraint + 1)
  | @product a b rest next stop left right later ih =>
      obtain ⟨here, holds⟩ := List.forall_mem_cons.mp holds
      have inside : next < stop := Nat.lt_of_succ_le later.le
      have value : rowValue [(next, (1 : F))] z = z next := by simp [rowValue]
      obtain ⟨witness', reached, length, solved', same⟩ := ih (Nat.le_succ_of_le after) holds
        (solved.step inside fresh after) (constraint + 1)
      refine ⟨witness', ?_, length.trans List.length_set, solved', fun index below => ?_⟩
      · rw [solveProducts, if_neg (by simp [solved.unsolved next le_rfl inside]), evaluateSparse_eq solved left,
          evaluateSparse_eq solved right]
        simp only [here, value]
        exact reached
      · rw [same index (Nat.lt_succ_of_lt below), List.getElem?_set_ne below.ne']

/-! ## Builders -/

/-- The products that were appended define the variables that were allocated. -/
def Defines (ready : ℕ → Prop) (base : ℕ) (builder builder' : R1csBuilder F) : Prop :=
  ∃ constraints, builder'.intoMatrices.constraints = builder.intoMatrices.constraints ++ constraints ∧
    ProductOrder ready base builder.numVars constraints builder'.numVars

omit [DecidableEq F] in
theorem Defines.refl (ready : ℕ → Prop) (base : ℕ) (builder : R1csBuilder F) : Defines ready base builder builder :=
  ⟨[], (List.append_nil _).symm, .nil _⟩

omit [DecidableEq F] in
theorem Defines.trans {ready : ℕ → Prop} {base : ℕ} {first second third : R1csBuilder F}
    (run : Defines ready base first second) (rest : Defines ready base second third) : Defines ready base first third := by
  obtain ⟨constraints, grown, order⟩ := run
  obtain ⟨constraints', grown', order'⟩ := rest
  exact ⟨constraints ++ constraints', by rw [grown', grown, List.append_assoc], order.append order'⟩

/-- The variables of a combination are available. -/
def Reads (ready : ℕ → Prop) (base next : ℕ) (lc : LinearCombination F) : Prop :=
  ∀ term ∈ lc.terms, Available ready base next term.1.index

omit [Field F] [DecidableEq F] in
theorem Reads.mono {ready : ℕ → Prop} {base next next' : ℕ} (le : next ≤ next') {lc : LinearCombination F}
    (reads : Reads ready base next lc) : Reads ready base next' lc :=
  fun term member => (reads term member).imp_right fun between => ⟨between.1, between.2.trans_le le⟩

/-- The constraint that an append adds. -/
theorem assertProduct_constraints {builder builder' : R1csBuilder F} {lhs rhs output : LinearCombination F}
    (appended : builder.assertProduct lhs rhs output = some builder') :
    builder'.intoMatrices.constraints = builder.intoMatrices.constraints ++
      [((lhs.intoSparseRow, rhs.intoSparseRow), output.intoSparseRow)] := by
  rw [R1csBuilder.assertProduct] at appended
  split_ifs at appended with known
  obtain rfl := Option.some.inj appended
  simp only [ConstraintMatrices.constraints, R1csBuilder.intoMatrices]
  rw [List.zip_append builder.length_b.symm, List.zip_append]
  · rfl
  · rw [List.length_zip, builder.length_b, builder.length_c, min_self]

theorem defines_assertEqual {ready : ℕ → Prop} {base : ℕ} {builder builder' : R1csBuilder F}
    {lhs rhs : LinearCombination F} (appended : builder.assertEqual lhs rhs = some builder') :
    Defines ready base builder builder' := by
  refine ⟨_, assertProduct_constraints appended, ?_⟩
  have same : builder'.numVars = builder.numVars := congrArg List.length (R1csBuilder.assertProduct_eq appended).1
  rw [same]
  exact .check (.nil _)

theorem intoSparseRow_ofVariable (v : Variable) : (LinearCombination.ofVariable v : LinearCombination F).intoSparseRow =
    [(v.index, 1)] := by
  simp [LinearCombination.intoSparseRow, LinearCombination.ofVariable, LinearCombination.insertTerm]

theorem defines_multiply {ready : ℕ → Prop} {base : ℕ} {builder builder' : R1csBuilder F}
    {lhs rhs output : LinearCombination F} (multiplied : builder.multiply lhs rhs = some (output, builder'))
    (left : Reads ready base builder.numVars lhs) (right : Reads ready base builder.numVars rhs)
    (after : base ≤ builder.numVars) :
    Defines ready base builder builder' ∧ Reads ready base builder'.numVars output := by
  obtain ⟨next, appended, shown⟩ := Option.bind_eq_some_iff.mp multiplied
  obtain ⟨rfl, rfl⟩ := Prod.mk.inj (Option.some.inj shown)
  have grown : next.numVars = builder.numVars + 1 := by
    rw [R1csBuilder.numVars, (R1csBuilder.assertProduct_eq appended).1]
    exact List.length_append
  have added := assertProduct_constraints appended
  refine ⟨⟨_, added, ?_⟩, fun term member => .inr ?_⟩
  · rw [intoSparseRow_ofVariable, grown]
    exact .product (LinearCombination.forall_mem_intoSparseRow (P := Available ready base builder.numVars) left)
      (LinearCombination.forall_mem_intoSparseRow (P := Available ready base builder.numVars) right) (.nil _)
  · obtain rfl := List.mem_singleton.mp member
    rw [grown]
    exact ⟨after, Nat.lt_succ_self _⟩

/-! ## Lowering -/

omit [DecidableEq F] in
theorem Defines.le {ready : ℕ → Prop} {base : ℕ} {builder builder' : R1csBuilder F}
    (defines : Defines ready base builder builder') : builder.numVars ≤ builder'.numVars := by
  obtain ⟨_, _, order⟩ := defines
  exact order.le

theorem defines_multiplyAll {ready : ℕ → Prop} {base : ℕ} {builder builder' : R1csBuilder F}
    {product result : LinearCombination F} {factors : List (LinearCombination F)}
    (multiplied : multiplyAll builder product factors = some (result, builder'))
    (reads : Reads ready base builder.numVars product)
    (factorsRead : ∀ factor ∈ factors, ∀ next, Reads ready base next factor) (after : base ≤ builder.numVars) :
    Defines ready base builder builder' ∧ Reads ready base builder'.numVars result := by
  induction factors generalizing builder product with
  | nil =>
      obtain ⟨rfl, rfl⟩ := Prod.mk.inj (Option.some.inj multiplied)
      exact ⟨.refl ready base builder, reads⟩
  | cons factor factors ih =>
      obtain ⟨⟨next, middle⟩, step, multiplied⟩ := Option.bind_eq_some_iff.mp multiplied
      obtain ⟨here, factorsRead⟩ := List.forall_mem_cons.mp factorsRead
      obtain ⟨first, reads'⟩ := defines_multiply step reads (here _) after
      obtain ⟨rest, reads''⟩ := ih multiplied reads' factorsRead (after.trans first.le)
      exact ⟨first.trans rest, reads''⟩

theorem defines_lowerProduct (ready : ℕ → Prop) {base : ℕ} {builder builder' : R1csBuilder F} {coefficient : F}
    {factors : List (LinearCombination F)} {result : LinearCombination F}
    (lowered : lowerProduct builder coefficient factors = some (result, builder'))
    (factorsRead : ∀ factor ∈ factors, ∀ next, Reads ready base next factor) (after : base ≤ builder.numVars) :
    Defines ready base builder builder' := by
  unfold lowerProduct at lowered
  split_ifs at lowered with zero
  · obtain ⟨rfl, rfl⟩ := Prod.mk.inj (Option.some.inj lowered)
    exact .refl ready base builder
  · cases factors with
    | nil =>
        obtain ⟨rfl, rfl⟩ := Prod.mk.inj (Option.some.inj lowered)
        exact .refl ready base builder
    | cons first factors =>
        obtain ⟨⟨product, final⟩, multiplied, lowered⟩ := Option.bind_eq_some_iff.mp lowered
        obtain ⟨rfl, rfl⟩ := Prod.mk.inj (Option.some.inj lowered)
        obtain ⟨here, factorsRead⟩ := List.forall_mem_cons.mp factorsRead
        exact (defines_multiplyAll multiplied (here _) factorsRead after).1

variable [DecidableEq O] [DecidableEq P] [DecidableEq Ch]

theorem defines_lowerTerms {ready : ℕ → Prop} {base : ℕ} {table : ClaimSourceTable F O P Ch} (known : table.Known ready)
    {builder builder' : R1csBuilder F} {result result' : LinearCombination F} {terms : List (Term F O P Ch)}
    (lowered : lowerTerms table builder result terms = .ok (result', builder')) (after : base ≤ builder.numVars) :
    Defines ready base builder builder' := by
  induction terms generalizing builder result with
  | nil =>
      obtain ⟨rfl, rfl⟩ := Prod.mk.inj (Except.ok.inj lowered)
      exact .refl ready base builder
  | cons term terms ih =>
      obtain ⟨⟨coefficient, factors⟩, sorted, lowered⟩ := except_bind_eq_ok.mp lowered
      obtain ⟨knowns, -⟩ := lowerFactors_eq known sorted nofun
      simp only at lowered
      split at lowered
      · cases lowered
      next product middle step =>
        have first := defines_lowerProduct ready step
          (fun factor member _ column entry => .inl (knowns factor member column entry)) after
        exact first.trans (ih lowered (after.trans first.le))

theorem defines_assertClaimExprEq {ready : ℕ → Prop} {base : ℕ} {table : ClaimSourceTable F O P Ch}
    (known : table.Known ready) {builder builder' : R1csBuilder F} {expression : Expr F O P Ch} {expected : Variable}
    (asserted : assertClaimExprEq builder expression expected table = .ok builder') (after : base ≤ builder.numVars) :
    Defines ready base builder builder' := by
  obtain ⟨⟨lc, middle⟩, lowered, asserted⟩ := except_bind_eq_ok.mp asserted
  simp only at asserted
  split at asserted
  · cases asserted
  next final step =>
    obtain rfl := Except.ok.inj asserted
    exact (defines_lowerTerms known lowered after).trans (defines_assertEqual step)

/-! ## Stages -/

omit [DecidableEq O] [DecidableEq P] [DecidableEq Ch] in
theorem defines_appendRounds {ready : ℕ → Prop} {base : ℕ} {domain : SumcheckDomain} {index : ℕ}
    {builder builder' : R1csBuilder F} {layouts : List SumcheckR1csRoundLayout}
    {rounds : List (VerifiedCommittedRound F Com)}
    (appended : appendRounds domain index builder layouts rounds = .ok builder') :
    Defines ready base builder builder' := by
  induction layouts generalizing index builder rounds with
  | nil =>
      rw [appendRounds] at appended
      · obtain rfl := Except.ok.inj appended
        exact .refl ready base builder
      · simp
  | cons layout layouts ih =>
      cases rounds with
      | nil =>
          obtain rfl := Except.ok.inj appended
          exact .refl ready base builder
      | cons round rounds =>
          rw [appendRounds] at appended
          split at appended
          · cases appended
          · obtain ⟨middle, first, appended⟩ := except_bind_eq_ok.mp appended
            obtain ⟨lc, _, first⟩ := except_bind_eq_ok.mp first
            split at first
            next sum step =>
              split at first
              next next step' =>
                obtain rfl := Except.ok.inj first
                exact ((defines_assertEqual step).trans (defines_assertEqual step')).trans (ih appended)
              · cases first
            · cases first

theorem defines_appendStages {ready : ℕ → Prop} {base : ℕ} {table : ClaimSourceTable F O P Ch}
    (known : table.Known ready) {builder builder' : R1csBuilder F} {stageIndex : ℕ}
    {stages : List (BlindFoldStage F O Com P Ch)} {layouts : List StageLayout}
    (appended : appendStages table stageIndex builder stages layouts = .ok builder') (after : base ≤ builder.numVars) :
    Defines ready base builder builder' := by
  induction stages generalizing builder stageIndex layouts with
  | nil =>
      obtain rfl := Except.ok.inj appended
      exact .refl ready base builder
  | cons stage stages ih =>
      cases layouts with
      | nil =>
          obtain rfl := Except.ok.inj appended
          exact .refl ready base builder
      | cons layout layouts =>
          obtain ⟨first, input, appended⟩ := except_bind_eq_ok.mp appended
          obtain ⟨second, rounds, appended⟩ := except_bind_eq_ok.mp appended
          obtain ⟨third, output, appended⟩ := except_bind_eq_ok.mp appended
          rw [mapError_eq_ok] at input rounds output
          obtain ⟨_, _, rounds⟩ := except_bind_eq_ok.mp rounds
          have before := defines_assertClaimExprEq known input after
          have middle := before.trans (defines_appendRounds rounds)
          have stage := middle.trans (defines_assertClaimExprEq known output (after.trans middle.le))
          exact stage.trans (ih appended (after.trans stage.le))

omit [DecidableEq P] [DecidableEq Ch] in
theorem defines_appendFinalOpenings {ready : ℕ → Prop} {base : ℕ} {table : ClaimSourceTable F O P Ch}
    {builder builder' : R1csBuilder F} {bindings : List (FinalOpeningBinding F O Com)} {layouts : List FinalOpeningLayout}
    (appended : appendFinalOpenings table builder bindings layouts = .ok builder') :
    Defines ready base builder builder' := by
  induction bindings generalizing builder layouts with
  | nil =>
      obtain rfl := Except.ok.inj appended
      exact .refl ready base builder
  | cons binding bindings ih =>
      cases layouts with
      | nil =>
          obtain rfl := Except.ok.inj appended
          exact .refl ready base builder
      | cons layout layouts =>
          rw [appendFinalOpenings] at appended
          split at appended
          · exact ih appended
          · obtain ⟨combined, _, appended⟩ := except_bind_eq_ok.mp appended
            split at appended
            · cases appended
            next step => exact (defines_assertEqual step).trans (ih appended)

/-- The appended products define the variables after the layout. -/
theorem defines_append {ready : ℕ → Prop} {table : ClaimSourceTable F O P Ch} (known : table.Known ready)
    {statement : BlindFoldStatement F O Com P Ch} {builder builder' : R1csBuilder F} {layout : Layout}
    (appended : statement.append builder layout table = .ok builder') :
    Defines ready builder.numVars builder builder' := by
  rw [BlindFoldStatement.append] at appended
  split_ifs at appended
  obtain ⟨middle, stages, finals⟩ := except_bind_eq_ok.mp appended
  exact (defines_appendStages known stages le_rfl).trans (defines_appendFinalOpenings finals)

end

end JoltWasm.Blindfold
