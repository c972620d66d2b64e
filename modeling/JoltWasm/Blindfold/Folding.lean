import Mathlib.Tactic.LinearCombination
import Mathlib.Tactic.Module
import JoltWasm.Blindfold.Relaxed
import JoltWasm.R1cs.Field

/-!
# Folding relaxed witnesses

The folded witness satisfies the relaxed relation and opens the folded commitments, and three
folds that satisfy it leave no room in either of the two witnesses.
-/

namespace JoltWasm.Blindfold

open Lib

/-! ## Values -/

section Values

variable {F : Type} [Field F]

theorem getD_foldValues (r : F) {real random : List F} (same : real.length = random.length) (i : ℕ) :
    (foldValues r real random).getD i 0 = real.getD i 0 + r * random.getD i 0 := by
  simp only [List.getD_eq_getElem?_getD, foldValues, List.getElem?_zipWith]
  by_cases small : i < real.length
  · have other : i < random.length := same ▸ small
    simp [small, other]
  · have other : random[i]? = none := List.getElem?_eq_none (by omega)
    have none : real[i]? = none := List.getElem?_eq_none (by omega)
    simp [none, other]

theorem length_foldValues (r : F) {real random : List F} (same : real.length = random.length) :
    (foldValues r real random).length = real.length := by
  simp [foldValues, same]

/-- An error fold is two folds. -/
theorem foldErrorValues_eq (r : F) (real cross random : List F) :
    foldErrorValues r real cross random = foldValues (r * r) (foldValues r real cross) random := by
  rw [foldErrorValues, foldValues, foldValues, List.zip, List.zipWith_zipWith_left,
    List.zipWith_zipWith_left]

theorem getD_foldErrorValues (r : F) {real cross random : List F} (same : real.length = random.length)
    (sameCross : real.length = cross.length) (i : ℕ) :
    (foldErrorValues r real cross random).getD i 0 =
      real.getD i 0 + r * cross.getD i 0 + r * r * random.getD i 0 := by
  rw [foldErrorValues_eq, getD_foldValues _ ((length_foldValues r sameCross).trans same),
    getD_foldValues _ sameCross]

theorem shape_foldValues (r : F) {real random : List (List F)}
    (same : real.map List.length = random.map List.length) :
    (List.zipWith (foldValues r) real random).map List.length = real.map List.length := by
  induction real generalizing random with
  | nil => rfl
  | cons row rows ih => cases random with
    | nil => cases same
    | cons other others =>
        obtain ⟨first, rest⟩ := List.cons.inj same
        rw [List.zipWith_cons_cons, List.map_cons, List.map_cons, ih rest, length_foldValues r first]

/-- Folding rows folds their entries. -/
theorem flatten_foldValues (r : F) {real random : List (List F)}
    (same : real.map List.length = random.map List.length) :
    (List.zipWith (foldValues r) real random).flatten = foldValues r real.flatten random.flatten := by
  induction real generalizing random with
  | nil => cases random with
    | nil => rfl
    | cons row rows => cases same
  | cons row rows ih => cases random with
    | nil => cases same
    | cons other others =>
        obtain ⟨first, rest⟩ := List.cons.inj same
        rw [List.zipWith_cons_cons, List.flatten_cons, ih rest, foldValues, foldValues, foldValues,
          List.flatten_cons, List.flatten_cons, List.zipWith_append first]

theorem flatten_foldErrorValues (r : F) {real cross random : List (List F)}
    (same : real.map List.length = random.map List.length)
    (sameCross : real.map List.length = cross.map List.length) :
    (List.zipWith (fun p row => foldErrorValues r p.1 p.2 row) (real.zip cross) random).flatten =
      foldErrorValues r real.flatten cross.flatten random.flatten := by
  rw [foldErrorValues_eq, ← flatten_foldValues r sameCross,
    ← flatten_foldValues (r * r) ((shape_foldValues r sameCross).trans same)]
  simp only [foldErrorValues_eq, List.zip, List.zipWith_zipWith_left]

/-- A sparse row is linear. -/
theorem dot_foldValues (row : SparseRow F) (r : F) {real random : List F}
    (same : real.length = random.length) :
    dot row (foldValues r real random) = dot row real + r * dot row random := by
  induction row with
  | nil => simp [dot]
  | cons term row ih =>
      simp only [dot, List.map_cons, List.sum_cons] at ih ⊢
      rw [ih, getD_foldValues r same]
      ring

theorem zVector_fold (r u₁ u₂ : F) (real random : List F) :
    zVector (u₁ + r * u₂) (foldValues r real random) =
      foldValues r (zVector u₁ real) (zVector u₂ random) := rfl

end Values

/-! ## The relaxed relation -/

section Relation

variable {F : Type} [Field F] (m : ConstraintMatrices F)

/-- `A z ∘ B z = u · C z + E` with `z = (u, W)`; the rows after the last constraint are zero. -/
def ConstraintMatrices.Relaxed (u : F) (witness : RelaxedWitness F) : Prop :=
  let z := zVector u witness.witnessRows
  ∀ i, dot (m.a.getD i []) z * dot (m.b.getD i []) z =
    u * dot (m.c.getD i []) z + witness.errorRows.getD i 0

/-- The entry of the cross term at a constraint. -/
def ConstraintMatrices.crossTerm (u₁ : F) (w₁ : List F) (u₂ : F) (w₂ : List F) (i : ℕ) : F :=
  let z₁ := zVector u₁ w₁
  let z₂ := zVector u₂ w₂
  dot (m.a.getD i []) z₁ * dot (m.b.getD i []) z₂ + dot (m.a.getD i []) z₂ * dot (m.b.getD i []) z₁ -
    u₁ * dot (m.c.getD i []) z₂ - u₂ * dot (m.c.getD i []) z₁

/-- How far a witness is from the relation at a constraint. -/
def ConstraintMatrices.residue (u : F) (witness error : List F) (i : ℕ) : F :=
  let z := zVector u witness
  dot (m.a.getD i []) z * dot (m.b.getD i []) z - u * dot (m.c.getD i []) z - error.getD i 0

variable {m}

theorem relaxed_iff_residue {u : F} {witness : RelaxedWitness F} :
    m.Relaxed u witness ↔ ∀ i, m.residue u witness.witnessRows witness.errorRows i = 0 := by
  refine forall_congr' fun i => ?_
  unfold ConstraintMatrices.residue
  constructor
  · intro holds
    linear_combination holds
  · intro zero
    linear_combination zero

/-- The residue of a fold is a quadratic in the challenge. -/
theorem residue_fold (u₁ u₂ r : F) {w₁ w₂ e₁ t e₂ : List F} (witness : w₁.length = w₂.length)
    (error : e₁.length = e₂.length) (cross : e₁.length = t.length) (i : ℕ) :
    m.residue (u₁ + r * u₂) (foldValues r w₁ w₂) (foldErrorValues r e₁ t e₂) i =
      m.residue u₁ w₁ e₁ i + r * (m.crossTerm u₁ w₁ u₂ w₂ i - t.getD i 0) +
        r ^ 2 * m.residue u₂ w₂ e₂ i := by
  have same : (zVector u₁ w₁).length = (zVector u₂ w₂).length := congrArg (· + 1) witness
  unfold ConstraintMatrices.residue ConstraintMatrices.crossTerm
  simp only [zVector_fold, dot_foldValues _ r same, getD_foldErrorValues r error cross]
  ring

/-- A quadratic with three different roots is zero. -/
theorem quadratic_eq_zero {a b c r₁ r₂ r₃ : F} (h₁₂ : r₁ ≠ r₂) (h₁₃ : r₁ ≠ r₃) (h₂₃ : r₂ ≠ r₃)
    (zero : ∀ r ∈ [r₁, r₂, r₃], a + r * b + r ^ 2 * c = 0) : a = 0 ∧ b = 0 ∧ c = 0 := by
  have z₁ := zero r₁ (by simp)
  have z₂ := zero r₂ (by simp)
  have z₃ := zero r₃ (by simp)
  have slope₂ : b + (r₁ + r₂) * c = 0 :=
    mul_left_cancel₀ (sub_ne_zero.mpr h₁₂) (by linear_combination z₁ - z₂)
  have slope₃ : b + (r₁ + r₃) * c = 0 :=
    mul_left_cancel₀ (sub_ne_zero.mpr h₁₃) (by linear_combination z₁ - z₃)
  have c_zero : c = 0 :=
    mul_left_cancel₀ (sub_ne_zero.mpr h₂₃) (by linear_combination slope₂ - slope₃)
  have b_zero : b = 0 := by linear_combination slope₂ - (r₁ + r₂) * c_zero
  exact ⟨by linear_combination z₁ - r₁ * b_zero - r₁ ^ 2 * c_zero, b_zero, c_zero⟩

end Relation

/-! ## The prover's rows -/

theorem length_eq_of_shape {α : Type} {rows : List (List α)} {count len : ℕ}
    (shape : rows.map List.length = List.replicate count len) : rows.length = count := by
  rw [← List.length_map (f := List.length), shape, List.length_replicate]

theorem length_flatten_of_shape {α : Type} {rows : List (List α)} {count len : ℕ}
    (shape : rows.map List.length = List.replicate count len) :
    rows.flatten.length = count * len := by
  rw [List.length_flatten, shape, List.sum_replicate, smul_eq_mul]

theorem shape_singletons {α : Type} (values : List α) :
    (values.map fun value => [value]).map List.length = List.replicate values.length 1 := by
  rw [List.map_map]
  exact List.map_const'

section Rows

variable {F : Type} [Field F] {m : ConstraintMatrices F}

theorem chunks_shape {α : Type} {len count : ℕ} {values : List α}
    (exact_ : values.length = count * len) :
    (chunks len count values).map List.length = List.replicate count len ∧
      (chunks len count values).flatten = values := by
  induction count generalizing values with
  | zero =>
      rw [zero_mul, List.length_eq_zero_iff] at exact_
      subst exact_
      exact ⟨rfl, rfl⟩
  | succ count ih =>
      rw [Nat.add_mul, one_mul] at exact_
      have rest : (values.drop len).length = count * len := by
        rw [List.length_drop]
        omega
      obtain ⟨shape, flat⟩ := ih rest
      constructor
      · rw [chunks, List.map_cons, shape, List.length_take, List.replicate_succ]
        congr 1
        omega
      · rw [chunks, List.flatten_cons, flat, List.take_append_drop]

theorem padToLen_ok {name : String} {values padded : List F} {targetLen : ℕ}
    (found : padToLen name values targetLen = .ok padded) :
    padded.length = targetLen ∧ ∀ i, padded.getD i 0 = values.getD i 0 := by
  unfold padToLen at found
  split_ifs at found with long
  cases found
  constructor
  · rw [List.length_append, List.length_replicate]
    omega
  · intro i
    simp only [List.getD_eq_getElem?_getD]
    by_cases small : i < values.length
    · rw [List.getElem?_append_left small]
    · rw [List.getElem?_append_right (by omega), List.getElem?_eq_none (l := values) (by omega),
        List.getElem?_replicate]
      split <;> rfl

/-- The rows of a value at each constraint. -/
theorem constraintRows_ok {name : String} {value : SparseRow F → SparseRow F → SparseRow F → F}
    {rowCount rowLen : ℕ} {rows : List (List F)} (empty : value [] [] [] = 0)
    (found : constraintRows name m value rowCount rowLen = .ok rows) :
    rows.map List.length = List.replicate rowCount rowLen ∧
      ∀ i, rows.flatten.getD i 0 = value (m.a.getD i []) (m.b.getD i []) (m.c.getD i []) := by
  unfold constraintRows at found
  obtain ⟨-, -, found⟩ := except_bind_eq_ok.mp found
  obtain ⟨-, found⟩ := except_check_eq_ok.mp found
  obtain ⟨errors, padded, found⟩ := except_bind_eq_ok.mp found
  cases found
  obtain ⟨length, entry⟩ := padToLen_ok padded
  obtain ⟨shape, flat⟩ := chunks_shape length
  refine ⟨shape, fun i => ?_⟩
  rw [flat, entry i]
  simp only [List.getD_eq_getElem?_getD, List.getElem?_map]
  by_cases small : i < m.numConstraints
  · have a := m.length_a ▸ small
    have b := m.length_b ▸ small
    have c := m.length_c ▸ small
    simp [List.zip, a, b, c]
  · have a := m.length_a
    have b := m.length_b
    have c := m.length_c
    rw [List.getElem?_eq_none (l := m.a) (by omega), List.getElem?_eq_none (l := m.b) (by omega),
      List.getElem?_eq_none (l := m.c) (by omega), List.getElem?_eq_none (by simp; omega)]
    exact empty.symm

/-- The error rows of a witness are its errors in the relaxed relation. -/
theorem errorRowsFor_relaxed {u : F} {witness : List F} {rowCount rowLen : ℕ} {rows : List (List F)}
    (found : errorRowsFor m u witness rowCount rowLen = .ok rows) :
    rows.map List.length = List.replicate rowCount rowLen ∧
      ∀ blindings errorBlindings,
        m.Relaxed u ⟨witness, blindings, rows.flatten, errorBlindings⟩ := by
  unfold errorRowsFor at found
  obtain ⟨shape, entry⟩ := constraintRows_ok (by simp [dot]) found
  refine ⟨shape, fun _ _ i => ?_⟩
  rw [entry i]
  ring

theorem crossTermErrorRowsFor_entry {u₁ u₂ : F} {w₁ w₂ : List F} {rowCount rowLen : ℕ}
    {rows : List (List F)}
    (found : crossTermErrorRowsFor m u₁ w₁ u₂ w₂ rowCount rowLen = .ok rows) :
    rows.map List.length = List.replicate rowCount rowLen ∧
      ∀ i, rows.flatten.getD i 0 = m.crossTerm u₁ w₁ u₂ w₂ i := by
  unfold crossTermErrorRowsFor at found
  exact constraintRows_ok (by simp [dot]) found

theorem foldRowsFrom_ok (r : F) {real random : List (List F)} (row : ℕ)
    (same : real.map List.length = random.map List.length) :
    foldRowsFrom r row real random = .ok (List.zipWith (foldValues r) real random) := by
  induction real generalizing random row with
  | nil => cases random with
    | nil => rfl
    | cons row rows => cases same
  | cons first rest ih => cases random with
    | nil => cases same
    | cons other others =>
        obtain ⟨lengths, tail⟩ := List.cons.inj same
        rw [foldRowsFrom, if_neg (not_not.mpr lengths), ih (row + 1) tail]
        rfl

theorem foldErrorRowsFrom_ok (r : F) {real cross random : List (List F)} (row : ℕ)
    (same : real.map List.length = random.map List.length)
    (sameCross : real.map List.length = cross.map List.length) :
    foldErrorRowsFrom r row real cross random =
      .ok (List.zipWith (fun p row => foldErrorValues r p.1 p.2 row) (real.zip cross) random) := by
  induction real generalizing cross random row with
  | nil => simp [foldErrorRowsFrom]
  | cons first rest ih => cases random with
    | nil => cases same
    | cons other others => cases cross with
      | nil => cases sameCross
      | cons third thirds =>
          obtain ⟨lengths, tail⟩ := List.cons.inj same
          obtain ⟨lengthsCross, tailCross⟩ := List.cons.inj sameCross
          rw [foldErrorRowsFrom, if_neg (not_not.mpr lengthsCross), if_neg (not_not.mpr lengths),
            ih (row + 1) tail tailCross]
          rfl

theorem ensureLen_ok {name : String} {expected actual : ℕ} (same : expected = actual) :
    ensureLen name expected actual = .ok () := if_neg (not_not.mpr same)

/-- The dimensions of a relaxed witness. -/
structure Dimensions where
  witnessRowCount : ℕ
  witnessRowLen : ℕ
  errorRowCount : ℕ
  errorRowLen : ℕ
  evals : ℕ

/-- Rows of the protocol's dimensions. -/
structure RelaxedRows.Shaped (rows : RelaxedRows F) (d : Dimensions) : Prop where
  witness : rows.witness.map List.length = List.replicate d.witnessRowCount d.witnessRowLen
  witnessBlindings : rows.witnessBlindings.length = d.witnessRowCount
  error : rows.error.map List.length = List.replicate d.errorRowCount d.errorRowLen
  errorBlindings : rows.errorBlindings.length = d.errorRowCount
  evalOutputs : rows.evalOutputs.length = d.evals
  evalBlindings : rows.evalBlindings.length = d.evals

/-- The value of the prover's fold. -/
def RelaxedRows.folded (real random : RelaxedRows F) (cross : List (List F)) (crossBlindings : List F)
    (r : F) : RelaxedRows F where
  u := real.u + r * random.u
  witness := List.zipWith (foldValues r) real.witness random.witness
  witnessBlindings := foldValues r real.witnessBlindings random.witnessBlindings
  error := List.zipWith (fun p row => foldErrorValues r p.1 p.2 row) (real.error.zip cross)
    random.error
  errorBlindings := foldErrorValues r real.errorBlindings crossBlindings random.errorBlindings
  evalOutputs := foldValues r real.evalOutputs random.evalOutputs
  evalBlindings := foldValues r real.evalBlindings random.evalBlindings

variable {real random : RelaxedRows F} {d : Dimensions} {cross : List (List F)} (shaped : real.Shaped d) (randomShaped : random.Shaped d)
  (crossShape : cross.map List.length = List.replicate d.errorRowCount d.errorRowLen)

include shaped randomShaped crossShape

/-- The residue of the folded rows. -/
theorem residue_folded (crossBlindings : List F) (m : ConstraintMatrices F) (r : F) (i : ℕ) :
    m.residue (real.folded random cross crossBlindings r).u
      (real.folded random cross crossBlindings r).flatten.witnessRows
      (real.folded random cross crossBlindings r).flatten.errorRows i =
    m.residue real.u real.flatten.witnessRows real.flatten.errorRows i +
      r * (m.crossTerm real.u real.flatten.witnessRows random.u random.flatten.witnessRows i -
        cross.flatten.getD i 0) +
      r ^ 2 * m.residue random.u random.flatten.witnessRows random.flatten.errorRows i := by
  unfold RelaxedRows.folded RelaxedRows.flatten
  rw [flatten_foldValues r (shaped.witness.trans randomShaped.witness.symm),
    flatten_foldErrorValues r (shaped.error.trans randomShaped.error.symm)
      (shaped.error.trans crossShape.symm),
    residue_fold _ _ _ (by rw [length_flatten_of_shape shaped.witness,
      length_flatten_of_shape randomShaped.witness])
      (by rw [length_flatten_of_shape shaped.error, length_flatten_of_shape randomShaped.error])
      (by rw [length_flatten_of_shape shaped.error, length_flatten_of_shape crossShape])]

variable {crossBlindings : List F} (crossLength : crossBlindings.length = d.errorRowCount)

include crossLength

theorem fold_eq_folded (r : F) :
    real.fold random cross crossBlindings r = .ok (real.folded random cross crossBlindings r) := by
  have witness := shaped.witness.trans randomShaped.witness.symm
  have error := shaped.error.trans randomShaped.error.symm
  have crossError := shaped.error.trans crossShape.symm
  unfold RelaxedRows.fold foldRows foldScalars foldErrorRows foldErrorScalars
  rw [foldRowsFrom_ok r 0 witness, foldErrorRowsFrom_ok r 0 error crossError,
    ensureLen_ok (by rw [length_eq_of_shape shaped.witness, length_eq_of_shape randomShaped.witness]),
    ensureLen_ok (by rw [shaped.witnessBlindings, randomShaped.witnessBlindings]),
    ensureLen_ok (by rw [length_eq_of_shape shaped.error, length_eq_of_shape crossShape]),
    ensureLen_ok (by rw [length_eq_of_shape shaped.error, length_eq_of_shape randomShaped.error]),
    ensureLen_ok (by rw [shaped.errorBlindings, crossLength]),
    ensureLen_ok (by rw [shaped.errorBlindings, randomShaped.errorBlindings]),
    ensureLen_ok (by rw [shaped.evalOutputs, randomShaped.evalOutputs]),
    ensureLen_ok (by rw [shaped.evalBlindings, randomShaped.evalBlindings])]
  rfl

/-- The flattened fold is the fold of the flattened witnesses. -/
theorem flatten_folded (r : F) :
    real.flatten.fold random.flatten cross.flatten crossBlindings r =
      .ok (real.folded random cross crossBlindings r).flatten := by
  have ensure {name : String} {expected actual : ℕ} (same : expected = actual) :
      RelaxedError.ensureLen name expected actual = .ok () := if_neg (not_not.mpr same)
  unfold RelaxedWitness.fold RelaxedRows.flatten
  rw [ensure (by rw [length_flatten_of_shape shaped.witness,
      length_flatten_of_shape randomShaped.witness]),
    ensure (by rw [shaped.witnessBlindings, randomShaped.witnessBlindings]),
    ensure (by rw [length_flatten_of_shape shaped.error,
      length_flatten_of_shape randomShaped.error]),
    ensure (by rw [length_flatten_of_shape shaped.error, length_flatten_of_shape crossShape]),
    ensure (by rw [shaped.errorBlindings, randomShaped.errorBlindings]),
    ensure (by rw [shaped.errorBlindings, crossLength])]
  unfold RelaxedRows.folded
  rw [flatten_foldValues r (shaped.witness.trans randomShaped.witness.symm),
    flatten_foldErrorValues r (shaped.error.trans randomShaped.error.symm)
      (shaped.error.trans crossShape.symm)]
  rfl

end Rows

/-! ## Commitments -/

section Commitments

variable {F G : Type} [Field F] [AddCommGroup G] [Module F G] (setup : PedersenSetup G)

/-- The commitments open to the rows under the blindings. -/
structure Opens (commitments : List G) (rows : List (List F)) (blindings : List F) : Prop where
  length : rows.length = blindings.length
  capacity : ∀ row ∈ rows, row.length ≤ setup.capacity
  value : commitments = List.zipWith setup.commit rows blindings

variable {setup}

/-- Commitments are homomorphic. -/
theorem commit_foldValues (r : F) {real random : List F} (same : real.length = random.length)
    (b₁ b₂ : F) : setup.commit (foldValues r real random) (b₁ + r * b₂) =
      linearCombine (setup.commit real b₁) (setup.commit random b₂) r := by
  have sums : ∀ generators : List G,
      (List.zipWith (fun generator (value : F) => value • generator) generators
          (foldValues r real random)).sum =
        (List.zipWith (fun generator value => value • generator) generators real).sum +
          r • (List.zipWith (fun generator value => value • generator) generators random).sum := by
    intro generators
    induction generators generalizing real random with
    | nil => simp
    | cons generator generators ih => cases real with
      | nil => cases random with
        | nil => simp [foldValues]
        | cons value values => cases same
      | cons first rest => cases random with
        | nil => cases same
        | cons value values =>
            have tail := ih (Nat.succ.inj (show rest.length + 1 = values.length + 1 from same))
            rw [foldValues] at tail ⊢
            simp only [List.zipWith_cons_cons, List.sum_cons, tail]
            module
  unfold PedersenSetup.commit linearCombine
  rw [sums]
  module

/-- The folded rows open the folded commitments. -/
theorem Opens.fold {c₁ c₂ : List G} {rows₁ rows₂ : List (List F)} {b₁ b₂ : List F}
    (first : Opens setup c₁ rows₁ b₁) (second : Opens setup c₂ rows₂ b₂)
    (same : rows₁.map List.length = rows₂.map List.length) (r : F) :
    Opens setup (List.zipWith (linearCombine · · r) c₁ c₂)
      (List.zipWith (foldValues r) rows₁ rows₂) (foldValues r b₁ b₂) := by
  obtain ⟨length₁, capacity₁, rfl⟩ := first
  obtain ⟨length₂, -, rfl⟩ := second
  induction rows₁ generalizing rows₂ b₁ b₂ with
  | nil =>
      obtain rfl : b₁ = [] := List.eq_nil_of_length_eq_zero length₁.symm
      exact ⟨by simp [foldValues], by simp, by simp⟩
  | cons row rows ih => cases rows₂ with
    | nil => cases same
    | cons row₂ rows₂ => cases b₁ with
      | nil => cases length₁
      | cons blinding b₁ => cases b₂ with
        | nil => cases length₂
        | cons blinding₂ b₂ =>
            obtain ⟨lengths, tail⟩ := List.cons.inj same
            obtain ⟨length, capacity, value⟩ := ih tail (Nat.succ.inj length₁)
              (fun row member => capacity₁ row (List.mem_cons_of_mem _ member))
              (Nat.succ.inj length₂)
            refine ⟨congrArg (· + 1) length, ?_, ?_⟩
            · rw [List.zipWith_cons_cons, List.forall_mem_cons]
              refine ⟨?_, capacity⟩
              rw [length_foldValues r lengths]
              exact capacity₁ row List.mem_cons_self
            · rw [foldValues, List.zipWith_cons_cons, List.zipWith_cons_cons,
                List.zipWith_cons_cons, List.zipWith_cons_cons, List.zipWith_cons_cons,
                List.zipWith_cons_cons, commit_foldValues r lengths, value]
              rfl

/-- The folded error rows open the folded commitments. -/
theorem Opens.foldError {c₁ c c₂ : List G} {rows₁ rows rows₂ : List (List F)} {b₁ b b₂ : List F}
    (first : Opens setup c₁ rows₁ b₁) (crossTerm : Opens setup c rows b)
    (second : Opens setup c₂ rows₂ b₂) (same : rows₁.map List.length = rows₂.map List.length)
    (sameCross : rows₁.map List.length = rows.map List.length) (r : F) :
    Opens setup (List.zipWith (fun p c₂ => linearCombine (linearCombine p.1 p.2 r) c₂ (r * r))
        (c₁.zip c) c₂)
      (List.zipWith (fun p row => foldErrorValues r p.1 p.2 row) (rows₁.zip rows) rows₂)
      (foldErrorValues r b₁ b b₂) := by
  have folded := (first.fold crossTerm sameCross r).fold second
    ((shape_foldValues r sameCross).trans same) (r * r)
  rw [List.zipWith_zipWith_left, List.zipWith_zipWith_left] at folded
  simp only [foldErrorValues_eq, List.zip, List.zipWith_zipWith_left]
  exact folded

/-- The rows and blindings open every commitment of the instance. -/
structure RelaxedInstance.OpenedBy (setup : PedersenSetup G) (relaxed : RelaxedInstance F G)
    (rows : RelaxedRows F) : Prop where
  u : relaxed.u = rows.u
  witness : Opens setup relaxed.witnessRowCommitments rows.witness rows.witnessBlindings
  error : Opens setup relaxed.errorRowCommitments rows.error rows.errorBlindings
  evals : Opens setup relaxed.evalCommitments (rows.evalOutputs.map fun output => [output])
    rows.evalBlindings

theorem Opens.length_commitments {commitments : List G} {rows : List (List F)} {blindings : List F}
    (opened : Opens setup commitments rows blindings) : commitments.length = rows.length := by
  rw [opened.value, List.length_zipWith, opened.length, min_self]

/-- The instance that commits to the rows. -/
def RelaxedRows.commit (setup : PedersenSetup G) (rows : RelaxedRows F) : RelaxedInstance F G where
  u := rows.u
  witnessRowCommitments := List.zipWith setup.commit rows.witness rows.witnessBlindings
  errorRowCommitments := List.zipWith setup.commit rows.error rows.errorBlindings
  evalCommitments := List.zipWith setup.commit (rows.evalOutputs.map fun output => [output])
    rows.evalBlindings

/-- Rows of one length that fits the capacity open their commitments. -/
theorem opens_of_shape {rows : List (List F)} {blindings : List F} {count len : ℕ}
    (shape : rows.map List.length = List.replicate count len) (length : blindings.length = count)
    (fits : len ≤ setup.capacity) :
    Opens setup (List.zipWith setup.commit rows blindings) rows blindings := by
  refine ⟨by rw [length_eq_of_shape shape, length], fun row member => ?_, rfl⟩
  have entry := List.mem_map_of_mem (f := List.length) member
  rw [shape, List.mem_replicate] at entry
  rwa [entry.2]

theorem openedBy_commit {rows : RelaxedRows F} {d : Dimensions} (shaped : rows.Shaped d)
    (witness : d.witnessRowLen ≤ setup.capacity) (error : d.errorRowLen ≤ setup.capacity) :
    (rows.commit setup).OpenedBy setup rows :=
  ⟨rfl, opens_of_shape shaped.witness shaped.witnessBlindings witness,
    opens_of_shape shaped.error shaped.errorBlindings error,
    opens_of_shape (shape_singletons rows.evalOutputs) (by rw [shaped.evalBlindings, shaped.evalOutputs])
      (List.length_pos_iff.mpr setup.nonempty)⟩

/-- The fold of two opened instances is opened by the folded rows. -/
theorem openedBy_folded {real random : RelaxedRows F} {d : Dimensions} {cross : List (List F)}
    {crossBlindings : List F} (shaped : real.Shaped d) (randomShaped : random.Shaped d)
    (crossShape : cross.map List.length = List.replicate d.errorRowCount d.errorRowLen)
    {realInstance randomInstance : RelaxedInstance F G} {crossCommitments : List G}
    (opened : realInstance.OpenedBy setup real) (randomOpened : randomInstance.OpenedBy setup random)
    (crossOpened : Opens setup crossCommitments cross crossBlindings) (r : F) :
    ∃ folded, realInstance.fold randomInstance crossCommitments r = .ok folded ∧
      folded.OpenedBy setup (real.folded random cross crossBlindings r) := by
  have ensure {name : String} {expected actual : ℕ} (same : expected = actual) :
      RelaxedError.ensureLen name expected actual = .ok () := if_neg (not_not.mpr same)
  unfold RelaxedInstance.fold
  rw [ensure (by rw [opened.witness.length_commitments, randomOpened.witness.length_commitments,
      length_eq_of_shape shaped.witness, length_eq_of_shape randomShaped.witness]),
    ensure (by rw [opened.error.length_commitments, randomOpened.error.length_commitments,
      length_eq_of_shape shaped.error, length_eq_of_shape randomShaped.error]),
    ensure (by rw [opened.error.length_commitments, crossOpened.length_commitments,
      length_eq_of_shape shaped.error, length_eq_of_shape crossShape]),
    ensure (by rw [opened.evals.length_commitments, randomOpened.evals.length_commitments,
      List.length_map, List.length_map, shaped.evalOutputs, randomShaped.evalOutputs])]
  refine ⟨_, rfl, ?_⟩
  constructor
  · rw [opened.u, randomOpened.u]
    rfl
  · exact opened.witness.fold randomOpened.witness
      (shaped.witness.trans randomShaped.witness.symm) r
  · exact opened.error.foldError crossOpened randomOpened.error
      (shaped.error.trans randomShaped.error.symm) (shaped.error.trans crossShape.symm) r
  · have evals := opened.evals.fold randomOpened.evals (by
      rw [shape_singletons, shape_singletons, shaped.evalOutputs, randomShaped.evalOutputs]) r
    have rows : List.zipWith (foldValues r) (real.evalOutputs.map fun output => [output])
        (random.evalOutputs.map fun output => [output]) =
          (foldValues r real.evalOutputs random.evalOutputs).map fun output => [output] := by
      rw [foldValues, List.map_zipWith, List.zipWith_map]
      rfl
    rw [rows] at evals
    exact evals

end Commitments

/-- One constraint, `x · x = x`. -/
def squareMatrices : ConstraintMatrices Fr where
  numConstraints := 1
  numVars := 2
  a := [[(1, 1)]]
  b := [[(1, 1)]]
  c := [[(1, 1)]]
  length_a := rfl
  length_b := rfl
  length_c := rfl
  columns := by decide

end JoltWasm.Blindfold
