import Mathlib.Algebra.BigOperators.Ring.List
import Mathlib.Logic.Function.Basic
import Mathlib.Tactic.Ring
import JoltWasm.Blindfold.Relaxed

/-!
# Building constraint systems

Linear combinations of variables, their sparse rows, and the builder: it allocates variables and appends
constraints.  An assignment satisfies the builder after an append when it did before and satisfies the new
constraint.
-/

namespace JoltWasm.R1cs

open Blindfold (SparseRow)

structure Variable where
  index : ℕ
  deriving DecidableEq

/-- The constant-one variable. -/
def Variable.one : Variable := ⟨0⟩

structure LinearCombination (F : Type) where
  terms : List (Variable × F)
  deriving DecidableEq

section

variable {F : Type} [Field F] [DecidableEq F]

namespace LinearCombination

def zero : LinearCombination F := ⟨[]⟩

def constant (value : F) : LinearCombination F := if value = 0 then zero else ⟨[(Variable.one, value)]⟩

def one : LinearCombination F := constant 1

/-- `LinearCombination::variable`. -/
def ofVariable (v : Variable) : LinearCombination F := ⟨[(v, 1)]⟩

def scale (lc : LinearCombination F) (s : F) : LinearCombination F :=
  if s = 0 then zero else ⟨lc.terms.map fun (v, coefficient) => (v, coefficient * s)⟩

def add (lhs rhs : LinearCombination F) : LinearCombination F := ⟨lhs.terms ++ rhs.terms⟩

def neg (lc : LinearCombination F) : LinearCombination F :=
  ⟨lc.terms.map fun (v, coefficient) => (v, -coefficient)⟩

def sub (lhs rhs : LinearCombination F) : LinearCombination F := lhs.add rhs.neg

/-- The entry of a variable, in the order of the variables. -/
def insertTerm (index : ℕ) (coefficient : F) : SparseRow F → SparseRow F
  | [] => [(index, coefficient)]
  | (head, existing) :: row =>
      if index < head then (index, coefficient) :: (head, existing) :: row
      else if index = head then (head, existing + coefficient) :: row
      else (head, existing) :: insertTerm index coefficient row

def intoSparseRow (lc : LinearCombination F) : SparseRow F :=
  (lc.terms.foldl (fun row (v, coefficient) =>
    if coefficient = 0 then row else insertTerm v.index coefficient row) []).filter fun term => term.2 ≠ 0

/-- The value where every variable has one. -/
def evaluate (lc : LinearCombination F) (witness : List (Option F)) : Option F :=
  lc.terms.foldlM (fun result (v, coefficient) => do
    let value ← witness.getD v.index none
    return result + coefficient * value) 0

end LinearCombination

omit [DecidableEq F] in
theorem LinearCombination.forall_mem_insertTerm {index : ℕ} {coefficient : F} {row : SparseRow F} {P : ℕ → Prop}
    (head : P index) (rest : ∀ term ∈ row, P term.1) : ∀ term ∈ insertTerm index coefficient row, P term.1 := by
  induction row with
  | nil => simpa [insertTerm] using head
  | cons first row ih =>
      obtain ⟨first', rest⟩ := List.forall_mem_cons.mp rest
      rw [insertTerm]
      split_ifs
      · exact List.forall_mem_cons.mpr ⟨head, List.forall_mem_cons.mpr ⟨first', rest⟩⟩
      · exact List.forall_mem_cons.mpr ⟨first', rest⟩
      · exact List.forall_mem_cons.mpr ⟨first', ih rest⟩

/-- The columns of a row are variables of the combination. -/
theorem LinearCombination.forall_mem_intoSparseRow {lc : LinearCombination F} {P : ℕ → Prop}
    (all : ∀ term ∈ lc.terms, P term.1.index) : ∀ term ∈ lc.intoSparseRow, P term.1 := by
  have gathered (terms : List (Variable × F)) (row : SparseRow F) (all : ∀ term ∈ terms, P term.1.index)
      (start : ∀ term ∈ row, P term.1) : ∀ term ∈ terms.foldl (fun row (v, coefficient) =>
        if coefficient = 0 then row else insertTerm v.index coefficient row) row, P term.1 := by
    induction terms generalizing row with
    | nil => exact start
    | cons term terms ih =>
        obtain ⟨here, all⟩ := List.forall_mem_cons.mp all
        rw [List.foldl_cons]
        refine ih _ all ?_
        simp only
        split_ifs
        · exact start
        · exact forall_mem_insertTerm here start
  exact fun term member => gathered lc.terms [] all nofun term (List.mem_filter.mp member).1

/-- The columns of the rows are allocated variables, the first of which is the constant one. -/
structure R1csBuilder (F : Type) [Field F] where
  witness : List (Option F)
  a : List (SparseRow F)
  b : List (SparseRow F)
  c : List (SparseRow F)
  length_b : b.length = a.length
  length_c : c.length = a.length
  columns : ∀ rows ∈ [a, b, c], ∀ row ∈ rows, ∀ term ∈ row, term.1 < witness.length
  one : witness.head? = some (some 1)

namespace R1csBuilder

def new : R1csBuilder F where
  witness := [some 1]
  a := []
  b := []
  c := []
  length_b := rfl
  length_c := rfl
  columns := by simp
  one := rfl

def numVars (builder : R1csBuilder F) : ℕ := builder.witness.length

def allocWitness (builder : R1csBuilder F) (value : Option F) : Variable × R1csBuilder F :=
  (⟨builder.witness.length⟩, { builder with
    witness := builder.witness ++ [value]
    columns := fun rows among row member term column => by
      rw [List.length_append]
      exact Nat.lt_add_right _ (builder.columns rows among row member term column)
    one := by rw [List.head?_append, builder.one]; rfl })

def alloc (builder : R1csBuilder F) (value : F) : Variable × R1csBuilder F := builder.allocWitness (some value)

def allocUnknown (builder : R1csBuilder F) : Variable × R1csBuilder F := builder.allocWitness none

/-- A variable for each value. -/
def allocAll (builder : R1csBuilder F) : List (Option F) → List Variable × R1csBuilder F
  | [] => ([], builder)
  | value :: values =>
      let (v, builder) := builder.allocWitness value
      let (rest, builder) := allocAll builder values
      (v :: rest, builder)

def knownVariables (builder : R1csBuilder F) (lc : LinearCombination F) : Bool :=
  lc.terms.all fun term => term.1.index < builder.witness.length

omit [DecidableEq F] in
theorem knownVariables_iff {builder : R1csBuilder F} {lc : LinearCombination F} :
    builder.knownVariables lc ↔ ∀ term ∈ lc.terms, term.1.index < builder.numVars := by
  simp [knownVariables, numVars]

/-- Rows with known columns, after the ones of the builder. -/
theorem columns_concat {numVars : ℕ} {rows : List (SparseRow F)} {lc : LinearCombination F}
    (columns : ∀ row ∈ rows, ∀ term ∈ row, term.1 < numVars) (known : ∀ term ∈ lc.terms, term.1.index < numVars) :
    ∀ row ∈ rows ++ [lc.intoSparseRow], ∀ term ∈ row, term.1 < numVars := by
  rw [List.forall_mem_append, List.forall_mem_singleton]
  exact ⟨columns, LinearCombination.forall_mem_intoSparseRow (P := (· < numVars)) known⟩

/-- The source panics on a variable that is not allocated. -/
def assertProduct (builder : R1csBuilder F) (lhs rhs output : LinearCombination F) : Option (R1csBuilder F) :=
  if known : builder.knownVariables lhs ∧ builder.knownVariables rhs ∧ builder.knownVariables output then
    some { builder with
      a := builder.a ++ [lhs.intoSparseRow]
      b := builder.b ++ [rhs.intoSparseRow]
      c := builder.c ++ [output.intoSparseRow]
      length_b := by rw [List.length_append, List.length_append, builder.length_b]; rfl
      length_c := by rw [List.length_append, List.length_append, builder.length_c]; rfl
      columns := by
        obtain ⟨lhs, rhs, output⟩ := known
        have columns := builder.columns
        simp only [List.forall_mem_cons] at columns ⊢
        exact ⟨columns_concat columns.1 (knownVariables_iff.mp lhs),
          columns_concat columns.2.1 (knownVariables_iff.mp rhs),
          columns_concat columns.2.2.1 (knownVariables_iff.mp output), columns.2.2.2⟩ }
  else none

def assertZero (builder : R1csBuilder F) (value : LinearCombination F) : Option (R1csBuilder F) :=
  builder.assertProduct value .one .zero

def assertEqual (builder : R1csBuilder F) (lhs rhs : LinearCombination F) : Option (R1csBuilder F) :=
  builder.assertZero (lhs.sub rhs)

def multiply (builder : R1csBuilder F) (lhs rhs : LinearCombination F) :
    Option (LinearCombination F × R1csBuilder F) := do
  let value := do
    let lhs ← lhs.evaluate builder.witness
    let rhs ← rhs.evaluate builder.witness
    return lhs * rhs
  let (output, builder) := builder.allocWitness value
  let builder ← builder.assertProduct lhs rhs (.ofVariable output)
  return (.ofVariable output, builder)

def intoMatrices (builder : R1csBuilder F) : Blindfold.ConstraintMatrices F where
  numConstraints := builder.a.length
  numVars := builder.witness.length
  a := builder.a
  b := builder.b
  c := builder.c
  length_a := rfl
  length_b := builder.length_b
  length_c := builder.length_c
  columns := builder.columns

end R1csBuilder

/-! ## Values -/

/-- The value of a sparse row. -/
def rowValue (row : SparseRow F) (z : ℕ → F) : F := (row.map fun term => term.2 * z term.1).sum

namespace LinearCombination

def value (lc : LinearCombination F) (z : ℕ → F) : F := (lc.terms.map fun term => term.2 * z term.1.index).sum

omit [DecidableEq F] in
@[simp] theorem value_zero (z : ℕ → F) : (zero : LinearCombination F).value z = 0 := rfl

omit [DecidableEq F] in
@[simp] theorem value_ofVariable (v : Variable) (z : ℕ → F) : (ofVariable v).value z = z v.index := by
  simp [value, ofVariable]

theorem value_constant {z : ℕ → F} (one : z 0 = 1) (c : F) : (constant c).value z = c := by
  rw [constant]
  split_ifs with zero
  · rw [value_zero, zero]
  · simp [value, Variable.one, one]

omit [DecidableEq F] in
@[simp] theorem value_add (lhs rhs : LinearCombination F) (z : ℕ → F) :
    (lhs.add rhs).value z = lhs.value z + rhs.value z := by
  rw [value, add, List.map_append, List.sum_append]
  rfl

omit [DecidableEq F] in
@[simp] theorem value_neg (lc : LinearCombination F) (z : ℕ → F) : lc.neg.value z = -lc.value z := by
  have scaled := List.sum_map_mul_left lc.terms (fun term => term.2 * z term.1.index) (-1)
  rw [neg_one_mul] at scaled
  rw [value, neg, List.map_map, value, ← scaled]
  refine congrArg List.sum (List.map_congr_left fun term _ => ?_)
  rw [Function.comp_apply, neg_one_mul, neg_mul]

omit [DecidableEq F] in
@[simp] theorem value_sub (lhs rhs : LinearCombination F) (z : ℕ → F) :
    (lhs.sub rhs).value z = lhs.value z - rhs.value z := by
  rw [sub, value_add, value_neg, sub_eq_add_neg]

@[simp] theorem value_scale (lc : LinearCombination F) (s : F) (z : ℕ → F) :
    (lc.scale s).value z = lc.value z * s := by
  rw [scale]
  split_ifs with zero
  · rw [zero, mul_zero, value_zero]
  · rw [value, List.map_map, value, ← List.sum_map_mul_right]
    refine congrArg List.sum (List.map_congr_left fun term _ => ?_)
    rw [Function.comp_apply, mul_right_comm]

omit [DecidableEq F] in
theorem rowValue_insertTerm (index : ℕ) (coefficient : F) (row : SparseRow F) (z : ℕ → F) :
    rowValue (insertTerm index coefficient row) z = coefficient * z index + rowValue row z := by
  induction row with
  | nil => rfl
  | cons head row ih =>
      rw [insertTerm]
      split_ifs with before same
      · rfl
      · subst same
        simp only [rowValue, List.map_cons, List.sum_cons]
        ring
      · simp only [rowValue, List.map_cons, List.sum_cons] at ih ⊢
        rw [ih]
        ring

/-- Dropping zero entries keeps the value. -/
theorem rowValue_filter (row : SparseRow F) (z : ℕ → F) : rowValue (row.filter fun term => term.2 ≠ 0) z = rowValue row z := by
  induction row with
  | nil => rfl
  | cons head row ih =>
      rw [List.filter_cons]
      split_ifs with nonzero
      · simp only [rowValue, List.map_cons, List.sum_cons] at ih ⊢
        rw [ih]
      · have zero : head.2 = 0 := by simpa using nonzero
        rw [ih, rowValue, rowValue, List.map_cons, List.sum_cons, zero, zero_mul, zero_add]

/-- The sparse row of a combination has its value. -/
theorem rowValue_intoSparseRow (lc : LinearCombination F) (z : ℕ → F) : rowValue lc.intoSparseRow z = lc.value z := by
  have gathered (terms : List (Variable × F)) (row : SparseRow F) :
      rowValue (terms.foldl (fun row (v, coefficient) =>
        if coefficient = 0 then row else insertTerm v.index coefficient row) row) z =
          rowValue row z + (terms.map fun term => term.2 * z term.1.index).sum := by
    induction terms generalizing row with
    | nil => rw [List.foldl_nil, List.map_nil, List.sum_nil, add_zero]
    | cons term terms ih =>
        rw [List.foldl_cons, ih, List.map_cons, List.sum_cons]
        simp only
        split_ifs with zero
        · rw [zero, zero_mul, zero_add]
        · rw [rowValue_insertTerm]
          ring
  rw [intoSparseRow, rowValue_filter, gathered, value]
  exact zero_add _

end LinearCombination

/-! ## Satisfaction -/

namespace R1csBuilder

/-- Every constraint holds. -/
def Satisfies (builder : R1csBuilder F) (z : ℕ → F) : Prop :=
  ∀ row ∈ (builder.a.zip builder.b).zip builder.c,
    rowValue row.1.1 z * rowValue row.1.2 z = rowValue row.2 z

omit [DecidableEq F] in
theorem satisfies_new (z : ℕ → F) : (new : R1csBuilder F).Satisfies z := nofun

/-- Nothing but variables with the given values was added. -/
structure Allocates (builder builder' : R1csBuilder F) (values : List (Option F)) : Prop where
  witness : builder'.witness = builder.witness ++ values
  a : builder'.a = builder.a
  b : builder'.b = builder.b
  c : builder'.c = builder.c

namespace Allocates

omit [DecidableEq F] in
theorem refl (builder : R1csBuilder F) : Allocates builder builder [] :=
  ⟨(List.append_nil _).symm, rfl, rfl, rfl⟩

omit [DecidableEq F] in
theorem trans {first second third : R1csBuilder F} {values values' : List (Option F)}
    (run : Allocates first second values) (rest : Allocates second third values') :
    Allocates first third (values ++ values') where
  witness := by rw [rest.witness, run.witness, List.append_assoc]
  a := rest.a.trans run.a
  b := rest.b.trans run.b
  c := rest.c.trans run.c

omit [DecidableEq F] in
theorem numVars {builder builder' : R1csBuilder F} {values : List (Option F)}
    (run : Allocates builder builder' values) : builder'.numVars = builder.numVars + values.length := by
  rw [R1csBuilder.numVars, run.witness, List.length_append]
  rfl

omit [DecidableEq F] in
theorem satisfies {builder builder' : R1csBuilder F} {values : List (Option F)}
    (run : Allocates builder builder' values) (z : ℕ → F) : builder'.Satisfies z ↔ builder.Satisfies z := by
  rw [Satisfies, Satisfies, run.a, run.b, run.c]

end Allocates

omit [DecidableEq F] in
theorem allocates_allocWitness (builder : R1csBuilder F) (value : Option F) :
    Allocates builder (builder.allocWitness value).2 [value] := ⟨rfl, rfl, rfl, rfl⟩

omit [DecidableEq F] in
theorem allocates_allocUnknown (builder : R1csBuilder F) : Allocates builder builder.allocUnknown.2 [none] :=
  allocates_allocWitness builder none

omit [DecidableEq F] in
/-- The variables of a run of allocations are consecutive. -/
theorem allocAll_eq (builder : R1csBuilder F) (values : List (Option F)) :
    (builder.allocAll values).1 = (List.range' builder.numVars values.length).map Variable.mk ∧
      Allocates builder (builder.allocAll values).2 values := by
  induction values generalizing builder with
  | nil => exact ⟨rfl, .refl builder⟩
  | cons value values ih =>
      obtain ⟨rest, run⟩ := ih (builder.allocWitness value).2
      have grown := (allocates_allocWitness builder value).numVars
      rw [grown] at rest
      exact ⟨congrArg (_ :: ·) rest, (allocates_allocWitness builder value).trans run⟩

/-- What an append does. -/
theorem assertProduct_eq {builder builder' : R1csBuilder F} {lhs rhs output : LinearCombination F}
    (appended : builder.assertProduct lhs rhs output = some builder') :
    builder'.witness = builder.witness ∧ builder.knownVariables lhs ∧ builder.knownVariables rhs ∧
      builder.knownVariables output ∧ ∀ z, builder'.Satisfies z ↔
        builder.Satisfies z ∧ lhs.value z * rhs.value z = output.value z := by
  rw [assertProduct] at appended
  split_ifs at appended with known
  obtain rfl := Option.some.inj appended
  refine ⟨rfl, known.1, known.2.1, known.2.2, fun z => ?_⟩
  have grown : ((builder.a ++ [lhs.intoSparseRow]).zip (builder.b ++ [rhs.intoSparseRow])).zip
        (builder.c ++ [output.intoSparseRow]) =
      (builder.a.zip builder.b).zip builder.c ++ [((lhs.intoSparseRow, rhs.intoSparseRow), output.intoSparseRow)] := by
    rw [List.zip_append builder.length_b.symm, List.zip_append]
    · rfl
    · rw [List.length_zip, builder.length_b, builder.length_c, min_self]
  rw [Satisfies, grown, List.forall_mem_append, List.forall_mem_singleton]
  simp only [LinearCombination.rowValue_intoSparseRow]
  rfl

/-! ## Known variables -/

omit [DecidableEq F] in
theorem knownVariables_add {builder : R1csBuilder F} {lhs rhs : LinearCombination F}
    (left : builder.knownVariables lhs) (right : builder.knownVariables rhs) : builder.knownVariables (lhs.add rhs) := by
  rw [knownVariables_iff] at left right ⊢
  exact List.forall_mem_append.mpr ⟨left, right⟩

theorem knownVariables_scale {builder : R1csBuilder F} {lc : LinearCombination F} (known : builder.knownVariables lc)
    (s : F) : builder.knownVariables (lc.scale s) := by
  rw [LinearCombination.scale]
  split_ifs with zero
  · rfl
  · rw [knownVariables_iff] at known ⊢
    exact List.forall_mem_map.mpr known

omit [DecidableEq F] in
theorem knownVariables_sub {builder : R1csBuilder F} {lhs rhs : LinearCombination F}
    (left : builder.knownVariables lhs) (right : builder.knownVariables rhs) : builder.knownVariables (lhs.sub rhs) := by
  refine knownVariables_add left ?_
  rw [knownVariables_iff] at right ⊢
  exact List.forall_mem_map.mpr right

omit [DecidableEq F] in
theorem knownVariables_ofVariable {builder : R1csBuilder F} {v : Variable} :
    builder.knownVariables (.ofVariable v : LinearCombination F) ↔ v.index < builder.numVars := by
  rw [knownVariables_iff]
  simp [LinearCombination.ofVariable]

theorem knownVariables_constant {builder : R1csBuilder F} (allocated : 0 < builder.numVars) (c : F) :
    builder.knownVariables (.constant c : LinearCombination F) := by
  rw [LinearCombination.constant]
  split_ifs with zero
  · rfl
  · rw [knownVariables_iff]
    simpa [Variable.one] using allocated

omit [DecidableEq F] in
theorem knownVariables_mono {builder builder' : R1csBuilder F} (grown : builder.numVars ≤ builder'.numVars)
    {lc : LinearCombination F} (known : builder.knownVariables lc) : builder'.knownVariables lc := by
  rw [knownVariables_iff] at known ⊢
  exact fun term member => (known term member).trans_le grown

/-- Known variables are enough for an append. -/
theorem assertProduct_isSome {builder : R1csBuilder F} {lhs rhs output : LinearCombination F}
    (left : builder.knownVariables lhs) (right : builder.knownVariables rhs) (out : builder.knownVariables output) :
    ∃ builder', builder.assertProduct lhs rhs output = some builder' :=
  ⟨_, dif_pos ⟨left, right, out⟩⟩

theorem assertEqual_isSome {builder : R1csBuilder F} {lhs rhs : LinearCombination F}
    (allocated : 0 < builder.numVars) (left : builder.knownVariables lhs) (right : builder.knownVariables rhs) :
    ∃ builder', builder.assertEqual lhs rhs = some builder' :=
  assertProduct_isSome (knownVariables_sub left right) (knownVariables_constant allocated 1) rfl

theorem assertEqual_eq {builder builder' : R1csBuilder F} {lhs rhs : LinearCombination F}
    (appended : builder.assertEqual lhs rhs = some builder') :
    builder'.witness = builder.witness ∧ ∀ z, z 0 = 1 →
      (builder'.Satisfies z ↔ builder.Satisfies z ∧ lhs.value z = rhs.value z) := by
  obtain ⟨same, -, -, -, holds⟩ := assertProduct_eq appended
  refine ⟨same, fun z one => ?_⟩
  rw [holds z, LinearCombination.value_sub, LinearCombination.one, LinearCombination.value_constant one, mul_one,
    LinearCombination.value_zero, sub_eq_zero]

/-! ## Auxiliary variables -/

/-- Values that agree on the first `count` variables. -/
def AgreeBelow (count : ℕ) (z z' : ℕ → F) : Prop := ∀ index < count, z' index = z index

omit [Field F] [DecidableEq F] in
theorem AgreeBelow.mono {m n : ℕ} (le : m ≤ n) {z z' : ℕ → F} (agree : AgreeBelow n z z') : AgreeBelow m z z' :=
  fun index below => agree index (below.trans_le le)

omit [Field F] [DecidableEq F] in
theorem AgreeBelow.trans {count : ℕ} {z z' z'' : ℕ → F} (first : AgreeBelow count z z')
    (rest : AgreeBelow count z' z'') : AgreeBelow count z z'' :=
  fun index below => (rest index below).trans (first index below)

omit [DecidableEq F] in
theorem positive (builder : R1csBuilder F) : 0 < builder.numVars := by
  refine List.length_pos_iff.mpr fun empty => ?_
  have one := builder.one
  rw [empty] at one
  cases one

omit [DecidableEq F] in
theorem value_congr {builder : R1csBuilder F} {lc : LinearCombination F} (known : builder.knownVariables lc)
    {z z' : ℕ → F} (agree : AgreeBelow builder.numVars z z') : lc.value z' = lc.value z := by
  rw [knownVariables_iff] at known
  refine congrArg List.sum (List.map_congr_left fun term member => ?_)
  rw [agree _ (known term member)]

omit [DecidableEq F] in
/-- Satisfaction is about the allocated variables. -/
theorem satisfies_congr {builder : R1csBuilder F} {z z' : ℕ → F} (agree : AgreeBelow builder.numVars z z') :
    builder.Satisfies z' ↔ builder.Satisfies z := by
  have rowValue_congr (rows : List (SparseRow F)) (among : rows ∈ [builder.a, builder.b, builder.c])
      (row : SparseRow F) (member : row ∈ rows) : rowValue row z' = rowValue row z := by
    refine congrArg List.sum (List.map_congr_left fun term column => ?_)
    rw [agree _ (builder.columns rows among row member term column)]
  refine forall₂_congr fun row member => ?_
  obtain ⟨front, last⟩ := List.of_mem_zip member
  obtain ⟨first, second⟩ := List.of_mem_zip front
  rw [rowValue_congr builder.a (by simp) _ first, rowValue_congr builder.b (by simp) _ second,
    rowValue_congr builder.c (by simp) _ last]

/-- The constraints that were appended hold, for some values of the variables that were allocated, exactly when
`holds` does. -/
structure Emits (builder builder' : R1csBuilder F) (holds : (ℕ → F) → Prop) : Prop where
  grows : builder.numVars ≤ builder'.numVars
  sound : ∀ z, z 0 = 1 → builder'.Satisfies z → builder.Satisfies z ∧ holds z
  complete : ∀ z, z 0 = 1 → builder.Satisfies z → holds z →
    ∃ z', AgreeBelow builder.numVars z z' ∧ builder'.Satisfies z'

omit [DecidableEq F] in
theorem Emits.refl (builder : R1csBuilder F) : Emits builder builder fun _ => True :=
  ⟨le_rfl, fun _ _ satisfied => ⟨satisfied, trivial⟩, fun z _ satisfied _ => ⟨z, fun _ _ => rfl, satisfied⟩⟩

omit [DecidableEq F] in
/-- A condition on the variables before the first run goes with a run after it. -/
theorem Emits.trans {first second third : R1csBuilder F} {holds holds' : (ℕ → F) → Prop}
    (run : Emits first second holds) (rest : Emits second third holds')
    (fixed : ∀ z z', z' 0 = 1 → AgreeBelow first.numVars z z' → second.Satisfies z' → holds' z → holds' z') :
    Emits first third fun z => holds z ∧ holds' z where
  grows := run.grows.trans rest.grows
  sound z one satisfied := by
    obtain ⟨satisfied, after⟩ := rest.sound z one satisfied
    obtain ⟨satisfied, before⟩ := run.sound z one satisfied
    exact ⟨satisfied, before, after⟩
  complete z one satisfied both := by
    obtain ⟨z', agree, satisfied⟩ := run.complete z one satisfied both.1
    have one' : z' 0 = 1 := (agree 0 first.positive).trans one
    obtain ⟨z'', agree', satisfied'⟩ := rest.complete z' one' satisfied (fixed z z' one' agree satisfied both.2)
    exact ⟨z'', agree.trans (agree'.mono run.grows), satisfied'⟩

omit [DecidableEq F] in
theorem Emits.congr {builder builder' : R1csBuilder F} {holds holds' : (ℕ → F) → Prop}
    (run : Emits builder builder' holds)
    (same : ∀ z, z 0 = 1 → builder.Satisfies z → (holds z ↔ holds' z)) : Emits builder builder' holds' where
  grows := run.grows
  sound z one satisfied := by
    obtain ⟨satisfied, held⟩ := run.sound z one satisfied
    exact ⟨satisfied, (same z one satisfied).mp held⟩
  complete z one satisfied held := run.complete z one satisfied ((same z one satisfied).mpr held)

omit [DecidableEq F] in
/-- A condition on the variables before a run holds exactly when they can be completed. -/
theorem Emits.iff {builder builder' : R1csBuilder F} {holds : (ℕ → F) → Prop} (run : Emits builder builder' holds)
    (fixed : ∀ z z', AgreeBelow builder.numVars z z' → holds z → holds z') {z : ℕ → F} (one : z 0 = 1) :
    (∃ z', AgreeBelow builder.numVars z z' ∧ builder'.Satisfies z') ↔ builder.Satisfies z ∧ holds z := by
  constructor
  · rintro ⟨z', agree, satisfied⟩
    obtain ⟨satisfied, held⟩ := run.sound z' ((agree 0 builder.positive).trans one) satisfied
    exact ⟨(satisfies_congr agree).mp satisfied, fixed z' z (fun index below => (agree index below).symm) held⟩
  · exact fun both => run.complete z one both.1 both.2

/-- An equality holds when the values are equal. -/
theorem emits_assertEqual {builder builder' : R1csBuilder F} {lhs rhs : LinearCombination F}
    (appended : builder.assertEqual lhs rhs = some builder') :
    Emits builder builder' fun z => lhs.value z = rhs.value z := by
  obtain ⟨same, holds⟩ := assertEqual_eq appended
  exact ⟨(congrArg List.length same).ge, fun z one => (holds z one).mp,
    fun z one satisfied equal => ⟨z, fun _ _ => rfl, (holds z one).mpr ⟨satisfied, equal⟩⟩⟩

/-- A product is the fresh variable's value. -/
theorem multiply_eq {builder builder' : R1csBuilder F} {lhs rhs output : LinearCombination F}
    (multiplied : builder.multiply lhs rhs = some (output, builder'))
    (left : builder.knownVariables lhs) (right : builder.knownVariables rhs) :
    Emits builder builder' (fun _ => True) ∧ builder'.knownVariables output ∧
      ∀ z, builder'.Satisfies z → output.value z = lhs.value z * rhs.value z := by
  obtain ⟨next, appended, shown⟩ := Option.bind_eq_some_iff.mp multiplied
  obtain ⟨rfl, rfl⟩ := Prod.mk.inj (Option.some.inj shown)
  obtain ⟨same, -, -, known, holds⟩ := assertProduct_eq appended
  have grown : next.numVars = builder.numVars + 1 := by
    rw [numVars, same]
    exact List.length_append
  have fresh : next.knownVariables (.ofVariable ⟨builder.numVars⟩ : LinearCombination F) := by
    rw [knownVariables_ofVariable, grown]
    exact Nat.lt_succ_self _
  refine ⟨⟨by omega, fun z _ satisfied => ⟨((holds z).mp satisfied).1, trivial⟩, fun z _ satisfied _ => ?_⟩, fresh,
    fun z satisfied => ((holds z).mp satisfied).2.symm⟩
  have agree : AgreeBelow builder.numVars z (Function.update z builder.numVars (lhs.value z * rhs.value z)) :=
    fun index below => Function.update_of_ne below.ne _ _
  refine ⟨_, agree, (holds _).mpr ⟨(satisfies_congr agree).mpr satisfied, ?_⟩⟩
  rw [value_congr left agree, value_congr right agree, LinearCombination.value_ofVariable]
  exact (Function.update_self (f := z) builder.numVars _).symm

end R1csBuilder

end

end JoltWasm.R1cs
