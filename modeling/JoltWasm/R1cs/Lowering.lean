import JoltWasm.R1cs.Builder

/-!
# Lowering claim expressions

A claim expression is a sum of products of openings, challenges and derived values.  Lowering multiplies its
variables one after the other and folds its constants into the coefficients; the resulting combination has the
value of the expression under every satisfying assignment.
-/

namespace JoltWasm.R1cs

open Lib

inductive Source (O P C : Type) where
  | opening (id : O)
  | challenge (id : C)
  | derived (id : P)
  deriving DecidableEq

structure Term (F O P C : Type) where
  coefficient : F
  factors : List (Source O P C)

/-- A symbolic sum of products. -/
structure Expr (F O P C : Type) where
  terms : List (Term F O P C)

inductive ClaimLoweringError where
  | missingOpening
  | missingChallenge
  | missingPublic
  | panicked
  deriving DecidableEq

inductive SourceValue (F : Type) where
  | constant (value : F)
  | linearCombination (lc : LinearCombination F)

/-- Entries of a source table, and the first one of an identifier. -/
def lookupSource {K V : Type} [DecidableEq K] (entries : List (K × V)) (id : K) : Option V :=
  (entries.find? fun entry => entry.1 = id).map Prod.snd

/-- The source panics on a second entry of an identifier. -/
def insertSource {K V : Type} [DecidableEq K] (entries : List (K × V)) (id : K) (value : V) : Option (List (K × V)) :=
  if entries.any fun entry => entry.1 = id then none else some (entries ++ [(id, value)])

structure ClaimSourceTable (F O P C : Type) where
  openings : List (O × SourceValue F)
  challenges : List (C × SourceValue F)
  publics : List (P × SourceValue F)

section

variable {F O P C : Type} [Field F]

/-- What the sources of an expression stand for. -/
structure SourceValues (F O P C : Type) where
  opening : O → F
  challenge : C → F
  derived : P → F

def SourceValues.of (values : SourceValues F O P C) : Source O P C → F
  | .opening id => values.opening id
  | .challenge id => values.challenge id
  | .derived id => values.derived id

def Expr.evaluate (expr : Expr F O P C) (values : SourceValues F O P C) : F :=
  expr.terms.foldl (fun result term =>
    result + term.factors.foldl (fun value factor => value * values.of factor) term.coefficient) 0

namespace ClaimSourceTable

def new : ClaimSourceTable F O P C := ⟨[], [], []⟩

variable [DecidableEq O] [DecidableEq P] [DecidableEq C]

def insertOpening (table : ClaimSourceTable F O P C) (id : O) (v : Variable) : Option (ClaimSourceTable F O P C) := do
  let openings ← insertSource table.openings id (.linearCombination (.ofVariable v))
  return { table with openings }

def insertChallenge (table : ClaimSourceTable F O P C) (id : C) (value : F) : Option (ClaimSourceTable F O P C) := do
  let challenges ← insertSource table.challenges id (.constant value)
  return { table with challenges }

def insertPublic (table : ClaimSourceTable F O P C) (id : P) (value : F) : Option (ClaimSourceTable F O P C) := do
  let publics ← insertSource table.publics id (.constant value)
  return { table with publics }

def opening (table : ClaimSourceTable F O P C) (id : O) : Except ClaimLoweringError (SourceValue F) :=
  match lookupSource table.openings id with
  | some source => .ok source
  | none => .error .missingOpening

def challenge (table : ClaimSourceTable F O P C) (id : C) : Except ClaimLoweringError (SourceValue F) :=
  match lookupSource table.challenges id with
  | some source => .ok source
  | none => .error .missingChallenge

def derived (table : ClaimSourceTable F O P C) (id : P) : Except ClaimLoweringError (SourceValue F) :=
  match lookupSource table.publics id with
  | some source => .ok source
  | none => .error .missingPublic

def resolve (table : ClaimSourceTable F O P C) : Source O P C → Except ClaimLoweringError (SourceValue F)
  | .opening id => table.opening id
  | .challenge id => table.challenge id
  | .derived id => table.derived id

end ClaimSourceTable

/-! ## Lowering -/

variable [DecidableEq F]

def SourceValue.intoLinearCombination : SourceValue F → LinearCombination F
  | .constant value => .constant value
  | .linearCombination lc => lc

/-- The product of the combinations, from the first on. -/
def multiplyAll (builder : R1csBuilder F) (product : LinearCombination F) :
    List (LinearCombination F) → Option (LinearCombination F × R1csBuilder F)
  | [] => some (product, builder)
  | factor :: factors => do
      let (product, builder) ← builder.multiply product factor
      multiplyAll builder product factors

def lowerProduct (builder : R1csBuilder F) (coefficient : F) (factors : List (LinearCombination F)) :
    Option (LinearCombination F × R1csBuilder F) :=
  if coefficient = 0 then some (.zero, builder)
  else
    match factors with
    | [] => some (.constant coefficient, builder)
    | first :: factors => do
        let (product, builder) ← multiplyAll builder first factors
        return (product.scale coefficient, builder)

variable [DecidableEq O] [DecidableEq P] [DecidableEq C]

/-- The constants go to the coefficient, the combinations to the factors. -/
def lowerFactors (table : ClaimSourceTable F O P C) : F → List (LinearCombination F) → List (Source O P C) →
    Except ClaimLoweringError (F × List (LinearCombination F))
  | coefficient, factors, [] => .ok (coefficient, factors)
  | coefficient, factors, source :: rest => do
      match ← table.resolve source with
      | .constant value => lowerFactors table (coefficient * value) factors rest
      | .linearCombination lc => lowerFactors table coefficient (factors ++ [lc]) rest

def lowerTerms (table : ClaimSourceTable F O P C) (builder : R1csBuilder F) (result : LinearCombination F) :
    List (Term F O P C) → Except ClaimLoweringError (LinearCombination F × R1csBuilder F)
  | [] => .ok (result, builder)
  | term :: terms => do
      let (coefficient, factors) ← lowerFactors table term.coefficient [] term.factors
      match lowerProduct builder coefficient factors with
      | none => .error .panicked
      | some (product, builder) => lowerTerms table builder (result.add product) terms

def lowerClaimExpr (builder : R1csBuilder F) (expression : Expr F O P C) (table : ClaimSourceTable F O P C) :
    Except ClaimLoweringError (LinearCombination F × R1csBuilder F) :=
  lowerTerms table builder .zero expression.terms

def assertClaimExprEq (builder : R1csBuilder F) (expression : Expr F O P C) (expected : Variable)
    (table : ClaimSourceTable F O P C) : Except ClaimLoweringError (R1csBuilder F) := do
  let (actual, builder) ← lowerClaimExpr builder expression table
  match builder.assertEqual actual (.ofVariable expected) with
  | none => .error .panicked
  | some builder => return builder

/-! ## Values of sources -/

omit [DecidableEq F] in
def SourceValue.value (z : ℕ → F) : SourceValue F → F
  | .constant value => value
  | .linearCombination lc => lc.value z

/-- The combination of a source has variables with a property. -/
def SourceValue.Known (P : ℕ → Prop) : SourceValue F → Prop
  | .constant _ => True
  | .linearCombination lc => ∀ term ∈ lc.terms, P term.1.index

namespace ClaimSourceTable

/-- What the sources stand for under an assignment. -/
def values (table : ClaimSourceTable F O P C) (z : ℕ → F) : SourceValues F O P C where
  opening id := ((lookupSource table.openings id).map (·.value z)).getD 0
  challenge id := ((lookupSource table.challenges id).map (·.value z)).getD 0
  derived id := ((lookupSource table.publics id).map (·.value z)).getD 0

/-- The sources have variables with a property. -/
structure Known (table : ClaimSourceTable F O P C) (holds : ℕ → Prop) : Prop where
  openings : ∀ entry ∈ table.openings, entry.2.Known holds
  challenges : ∀ entry ∈ table.challenges, entry.2.Known holds
  publics : ∀ entry ∈ table.publics, entry.2.Known holds

omit [Field F] [DecidableEq F] in
theorem mem_of_lookupSource {K V : Type} [DecidableEq K] {entries : List (K × V)} {id : K} {value : V}
    (found : lookupSource entries id = some value) : (id, value) ∈ entries := by
  obtain ⟨⟨key, _⟩, first, rfl⟩ := Option.map_eq_some_iff.mp found
  obtain rfl : key = id := by simpa using List.find?_some first
  exact List.mem_of_find?_eq_some first

omit [DecidableEq F] in
/-- A resolved source has the table's property, and its value. -/
theorem resolve_eq {table : ClaimSourceTable F O P C} {holds : ℕ → Prop} (known : table.Known holds)
    (source : Source O P C) {value : SourceValue F} (resolved : table.resolve source = .ok value) :
    value.Known holds ∧ ∀ z, (table.values z).of source = value.value z := by
  cases source with
  | opening id =>
      simp only [resolve, opening] at resolved
      split at resolved <;> cases resolved
      next found =>
        refine ⟨known.openings _ (mem_of_lookupSource found), fun z => ?_⟩
        simp only [SourceValues.of, values, found]
        rfl
  | challenge id =>
      simp only [resolve, challenge] at resolved
      split at resolved <;> cases resolved
      next found =>
        refine ⟨known.challenges _ (mem_of_lookupSource found), fun z => ?_⟩
        simp only [SourceValues.of, values, found]
        rfl
  | derived id =>
      simp only [resolve, derived] at resolved
      split at resolved <;> cases resolved
      next found =>
        refine ⟨known.publics _ (mem_of_lookupSource found), fun z => ?_⟩
        simp only [SourceValues.of, values, found]
        rfl

end ClaimSourceTable

/-! ## What lowering emits -/

/-- A lowered combination has the given value under every satisfying assignment, and each assignment has values
of the auxiliary variables. -/
structure Lowers (builder builder' : R1csBuilder F) (lc : LinearCombination F) (value : (ℕ → F) → F) : Prop where
  emits : R1csBuilder.Emits builder builder' fun _ => True
  known : builder'.knownVariables lc
  means : ∀ z, z 0 = 1 → builder'.Satisfies z → lc.value z = value z

theorem multiplyAll_eq {builder builder' : R1csBuilder F} {product result : LinearCombination F}
    {factors : List (LinearCombination F)} (multiplied : multiplyAll builder product factors = some (result, builder'))
    (known : builder.knownVariables product) (knowns : ∀ factor ∈ factors, builder.knownVariables factor) :
    Lowers builder builder' result fun z => product.value z * (factors.map fun factor => factor.value z).prod := by
  induction factors generalizing builder product with
  | nil =>
      obtain ⟨rfl, rfl⟩ := Prod.mk.inj (Option.some.inj multiplied)
      exact ⟨.refl builder, known, fun z _ _ => (mul_one _).symm⟩
  | cons factor factors ih =>
      obtain ⟨⟨next, middle⟩, step, multiplied⟩ := Option.bind_eq_some_iff.mp multiplied
      obtain ⟨here, knowns⟩ := List.forall_mem_cons.mp knowns
      obtain ⟨emits, known', means⟩ := R1csBuilder.multiply_eq step known here
      have rest := ih multiplied known' fun factor member =>
        R1csBuilder.knownVariables_mono emits.grows (knowns factor member)
      refine ⟨(emits.trans rest.emits fun _ _ _ _ _ _ => trivial).congr fun _ _ _ => by simp, rest.known,
        fun z one satisfied => ?_⟩
      rw [rest.means z one satisfied, means z (rest.emits.sound z one satisfied).1, List.map_cons, List.prod_cons,
        mul_assoc]

theorem lowerProduct_eq {builder builder' : R1csBuilder F} {coefficient : F} {factors : List (LinearCombination F)}
    {result : LinearCombination F} (lowered : lowerProduct builder coefficient factors = some (result, builder'))
    (knowns : ∀ factor ∈ factors, builder.knownVariables factor) :
    Lowers builder builder' result fun z => coefficient * (factors.map fun factor => factor.value z).prod := by
  unfold lowerProduct at lowered
  split_ifs at lowered with zero
  · obtain ⟨rfl, rfl⟩ := Prod.mk.inj (Option.some.inj lowered)
    exact ⟨.refl builder, rfl, fun z _ _ => by rw [LinearCombination.value_zero, zero, zero_mul]⟩
  · cases factors with
    | nil =>
        obtain ⟨rfl, rfl⟩ := Prod.mk.inj (Option.some.inj lowered)
        exact ⟨.refl builder, R1csBuilder.knownVariables_constant builder.positive coefficient, fun z one _ => by
          rw [LinearCombination.value_constant one]
          exact (mul_one _).symm⟩
    | cons first factors =>
        obtain ⟨⟨product, final⟩, multiplied, lowered⟩ := Option.bind_eq_some_iff.mp lowered
        obtain ⟨rfl, rfl⟩ := Prod.mk.inj (Option.some.inj lowered)
        obtain ⟨here, knowns⟩ := List.forall_mem_cons.mp knowns
        obtain ⟨emits, known, means⟩ := multiplyAll_eq multiplied here knowns
        refine ⟨emits, R1csBuilder.knownVariables_scale known coefficient, fun z one satisfied => ?_⟩
        rw [LinearCombination.value_scale, means z one satisfied, List.map_cons, List.prod_cons, mul_comm]

omit [DecidableEq F] in
/-- Sorting the factors keeps their product. -/
theorem lowerFactors_eq {table : ClaimSourceTable F O P C} {holds : ℕ → Prop} (known : table.Known holds)
    {coefficient coefficient' : F} {factors factors' : List (LinearCombination F)} {sources : List (Source O P C)}
    (lowered : lowerFactors table coefficient factors sources = .ok (coefficient', factors'))
    (knowns : ∀ factor ∈ factors, ∀ term ∈ factor.terms, holds term.1.index) :
    (∀ factor ∈ factors', ∀ term ∈ factor.terms, holds term.1.index) ∧
      ∀ z, coefficient' * (factors'.map fun factor => factor.value z).prod =
        sources.foldl (fun value source => value * (table.values z).of source)
          (coefficient * (factors.map fun factor => factor.value z).prod) := by
  induction sources generalizing coefficient factors with
  | nil =>
      obtain ⟨rfl, rfl⟩ := Prod.mk.inj (Except.ok.inj lowered)
      exact ⟨knowns, fun _ => rfl⟩
  | cons source sources ih =>
      obtain ⟨value, resolved, lowered⟩ := except_bind_eq_ok.mp lowered
      obtain ⟨here, same⟩ := ClaimSourceTable.resolve_eq known _ resolved
      cases value with
      | constant value =>
          obtain ⟨knowns', value'⟩ := ih lowered knowns
          refine ⟨knowns', fun z => ?_⟩
          rw [value' z, List.foldl_cons, same z]
          exact congrArg (fun start => List.foldl _ start sources) (mul_right_comm _ _ _)
      | linearCombination lc =>
          obtain ⟨knowns', value'⟩ := ih lowered (List.forall_mem_append.mpr ⟨knowns, List.forall_mem_singleton.mpr here⟩)
          refine ⟨knowns', fun z => ?_⟩
          rw [value' z, List.foldl_cons, same z, List.map_append, List.prod_append, List.map_singleton,
            List.prod_singleton, ← mul_assoc]
          rfl

/-- The combination of the terms has their sum. -/
theorem lowerTerms_eq {table : ClaimSourceTable F O P C} {count : ℕ} (known : table.Known (· < count))
    {builder builder' : R1csBuilder F} (inside : count ≤ builder.numVars) {result result' : LinearCombination F}
    {terms : List (Term F O P C)} (lowered : lowerTerms table builder result terms = .ok (result', builder'))
    (start : builder.knownVariables result) :
    Lowers builder builder' result' fun z => terms.foldl (fun sum term =>
      sum + term.factors.foldl (fun value factor => value * (table.values z).of factor) term.coefficient)
        (result.value z) := by
  induction terms generalizing builder result with
  | nil =>
      obtain ⟨rfl, rfl⟩ := Prod.mk.inj (Except.ok.inj lowered)
      exact ⟨.refl builder, start, fun _ _ _ => rfl⟩
  | cons term terms ih =>
      obtain ⟨⟨coefficient, factors⟩, sorted, lowered⟩ := except_bind_eq_ok.mp lowered
      obtain ⟨knowns, value⟩ := lowerFactors_eq known sorted nofun
      have knowns : ∀ factor ∈ factors, builder.knownVariables factor := fun factor member =>
        R1csBuilder.knownVariables_iff.mpr fun column entry => (knowns factor member column entry).trans_le inside
      simp only at lowered
      split at lowered
      · cases lowered
      next product middle step =>
        obtain ⟨emits, known', means⟩ := lowerProduct_eq step knowns
        obtain ⟨emits', known'', means'⟩ := ih (inside.trans emits.grows) lowered
          (R1csBuilder.knownVariables_add (R1csBuilder.knownVariables_mono emits.grows start) known')
        refine ⟨(emits.trans emits' fun _ _ _ _ _ _ => trivial).congr fun _ _ _ => by simp, known'',
          fun z one satisfied => ?_⟩
        rw [means' z one satisfied, LinearCombination.value_add, means z one (emits'.sound z one satisfied).1, value z,
          List.foldl_cons, List.map_nil, List.prod_nil, mul_one]

/-- A lowered expression has its value. -/
theorem lowerClaimExpr_eq {table : ClaimSourceTable F O P C} {count : ℕ} (known : table.Known (· < count))
    {builder builder' : R1csBuilder F} (inside : count ≤ builder.numVars) {expression : Expr F O P C}
    {lc : LinearCombination F} (lowered : lowerClaimExpr builder expression table = .ok (lc, builder')) :
    Lowers builder builder' lc fun z => expression.evaluate (table.values z) :=
  lowerTerms_eq known inside lowered rfl

omit [DecidableEq F] in
/-- The values of the sources are about the allocated variables. -/
theorem ClaimSourceTable.values_congr {table : ClaimSourceTable F O P C} {count : ℕ} (known : table.Known (· < count))
    {z z' : ℕ → F} (agree : R1csBuilder.AgreeBelow count z z') : table.values z' = table.values z := by
  have entries {K : Type} [DecidableEq K] (items : List (K × SourceValue F))
      (known : ∀ entry ∈ items, entry.2.Known (· < count)) (id : K) :
      ((lookupSource items id).map (·.value z')).getD 0 = ((lookupSource items id).map (·.value z)).getD 0 := by
    cases found : lookupSource items id with
    | none => rfl
    | some source =>
        have here := known _ (mem_of_lookupSource found)
        cases source with
        | constant value => rfl
        | linearCombination lc =>
            refine congrArg List.sum (List.map_congr_left fun term member => ?_)
            rw [agree _ (here term member)]
  simp only [values, SourceValues.mk.injEq]
  exact ⟨funext (entries _ known.openings), funext (entries _ known.challenges), funext (entries _ known.publics)⟩

/-- The equality of a variable and an expression. -/
theorem assertClaimExprEq_eq {table : ClaimSourceTable F O P C} {count : ℕ} (known : table.Known (· < count))
    {builder builder' : R1csBuilder F} (inside : count ≤ builder.numVars) {expression : Expr F O P C}
    {expected : Variable} (within : expected.index < count)
    (asserted : assertClaimExprEq builder expression expected table = .ok builder') :
    R1csBuilder.Emits builder builder' fun z => z expected.index = expression.evaluate (table.values z) := by
  obtain ⟨⟨lc, middle⟩, lowered, asserted⟩ := except_bind_eq_ok.mp asserted
  obtain ⟨emits, _, means⟩ := lowerClaimExpr_eq known inside lowered
  simp only at asserted
  split at asserted
  · cases asserted
  next final step =>
    obtain rfl := Except.ok.inj asserted
    have equal := R1csBuilder.emits_assertEqual step
    have same : ∀ z, z 0 = 1 → middle.Satisfies z →
        (lc.value z = (LinearCombination.ofVariable expected).value z ↔
          z expected.index = expression.evaluate (table.values z)) := fun z one satisfied => by
      rw [means z one satisfied, LinearCombination.value_ofVariable, eq_comm]
    refine (emits.trans (equal.congr same) fun z z' _ agree _ held => ?_).congr fun _ _ _ => by simp
    rw [agree _ (within.trans_le inside), ClaimSourceTable.values_congr known (agree.mono inside)]
    exact held

/-- Every source of the expression has an entry. -/
def Expr.Resolved (expression : Expr F O P C) (table : ClaimSourceTable F O P C) : Prop :=
  ∀ term ∈ expression.terms, ∀ source ∈ term.factors, ∃ value, table.resolve source = .ok value

omit [DecidableEq F] in
theorem lowerFactors_resolved {table : ClaimSourceTable F O P C} {coefficient : F} {factors : List (LinearCombination F)}
    {sources : List (Source O P C)} {result : F × List (LinearCombination F)}
    (lowered : lowerFactors table coefficient factors sources = .ok result) :
    ∀ source ∈ sources, ∃ value, table.resolve source = .ok value := by
  induction sources generalizing coefficient factors with
  | nil => nofun
  | cons source sources ih =>
      obtain ⟨value, resolved, lowered⟩ := except_bind_eq_ok.mp lowered
      refine List.forall_mem_cons.mpr ⟨⟨value, resolved⟩, ?_⟩
      cases value with
      | constant _ => exact ih lowered
      | linearCombination _ => exact ih lowered

/-- What can be lowered is resolved. -/
theorem lowerClaimExpr_resolved {table : ClaimSourceTable F O P C} {builder : R1csBuilder F} {expression : Expr F O P C}
    {result : LinearCombination F × R1csBuilder F} (lowered : lowerClaimExpr builder expression table = .ok result) :
    expression.Resolved table := by
  have each (terms : List (Term F O P C)) (builder : R1csBuilder F) (start : LinearCombination F)
      (lowered : lowerTerms table builder start terms = .ok result) :
      ∀ term ∈ terms, ∀ source ∈ term.factors, ∃ value, table.resolve source = .ok value := by
    induction terms generalizing builder start with
    | nil => nofun
    | cons term terms ih =>
        obtain ⟨_, sorted, lowered⟩ := except_bind_eq_ok.mp lowered
        refine List.forall_mem_cons.mpr ⟨lowerFactors_resolved sorted, ?_⟩
        simp only at lowered
        split at lowered
        · cases lowered
        · exact ih _ _ lowered
  exact each expression.terms builder .zero lowered

/-- The values of the table's entries. -/
structure ClaimSourceTable.Fits (table : ClaimSourceTable F O P C) (z : ℕ → F) (values : SourceValues F O P C) :
    Prop where
  openings : ∀ id source, table.opening id = .ok source → values.opening id = source.value z
  challenges : ∀ id source, table.challenge id = .ok source → values.challenge id = source.value z
  publics : ∀ id source, table.derived id = .ok source → values.derived id = source.value z

omit [DecidableEq F] in
/-- A resolved expression has the same value whatever the other sources stand for. -/
theorem Expr.evaluate_eq {expression : Expr F O P C} {table : ClaimSourceTable F O P C} {count : ℕ}
    (known : table.Known (· < count)) (resolved : expression.Resolved table) {z : ℕ → F} {values : SourceValues F O P C}
    (fits : table.Fits z values) : expression.evaluate (table.values z) = expression.evaluate values := by
  have same (source : Source O P C) (found : ∃ value, table.resolve source = .ok value) :
      (table.values z).of source = values.of source := by
    obtain ⟨value, found⟩ := found
    rw [(ClaimSourceTable.resolve_eq known _ found).2 z]
    cases source with
    | opening id => exact (fits.openings id value found).symm
    | challenge id => exact (fits.challenges id value found).symm
    | derived id => exact (fits.publics id value found).symm
  refine List.foldl_ext _ _ _ fun sum term member => congrArg (sum + ·) ?_
  exact List.foldl_ext _ _ _ fun value source among => congrArg (value * ·) (same source (resolved term member source among))

end

end JoltWasm.R1cs
