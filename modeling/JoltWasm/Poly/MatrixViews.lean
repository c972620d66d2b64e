import JoltWasm.Poly.MultilinearPoly

/-!
# One table behind every view

The rows, the folds and the values of a polynomial are those of one vector, its dense table; linear
combinations keep this.
-/

namespace JoltWasm

open Finset Lib

section

variable {F : Type} [Field F]

/-- All operations of the polynomial read one table of `2 ^ numVars` entries. -/
structure Represents (poly : MultilinearPoly F) (table : ℕ → F) : Prop where
  rows : ∀ σ ≤ poly.numVars, poly.forEachRow σ = matrixRows table poly.numVars σ
  fold : ∀ σ ≤ poly.numVars, ∀ left : List F, left.length = 2 ^ (poly.numVars - σ) →
    poly.foldRows left σ = matrixFold table poly.numVars σ left
  value : ∀ point : List F, point.length = poly.numVars → poly.evaluate point = extension table point
  dense : ∀ evaluations, poly.denseEvaluations = some evaluations →
    evaluations = (List.range (2 ^ poly.numVars)).map table

/-! ## Rows -/

theorem addMultiple_map (n : ℕ) (f g : ℕ → F) (l : F) :
    addMultiple ((List.range n).map f) l ((List.range n).map g) = (List.range n).map fun c => f c + l * g c := by
  rw [addMultiple, List.drop_of_length_le (by simp), List.append_nil]
  refine List.ext_getElem (by simp) fun c below below' => ?_
  simp

theorem replicate_zero (n : ℕ) : List.replicate n (0 : F) = (List.range n).map fun _ => 0 := by
  rw [List.map_const', List.length_range]

/-- The loop over the rows is the left vector times the matrix. -/
theorem foldRowsOf_matrixRows (table : ℕ → F) (n σ : ℕ) (left : List F) :
    foldRowsOf (matrixRows table n σ) left σ = matrixFold table n σ left := by
  have upTo (m : ℕ) : (((List.range m).map fun row => (List.range (2 ^ σ)).map fun column =>
      table (row * 2 ^ σ + column)).zipIdx.foldl
        (fun result row => addMultiple result (left.getD row.2 0) row.1) (List.replicate (1 <<< σ) 0)) =
      (List.range (2 ^ σ)).map fun column =>
        ∑ row ∈ range m, left.getD row 0 * table (row * 2 ^ σ + column) := by
    induction m with
    | zero => simp [Nat.one_shiftLeft]
    | succ m ih =>
      rw [List.range_succ, List.map_append, List.zipIdx_append, List.foldl_append, ih, List.map_singleton,
        List.zipIdx_singleton, List.foldl_cons, List.foldl_nil, List.length_map, List.length_range, Nat.zero_add,
        addMultiple_map]
      exact List.map_congr_left fun column _ => (sum_range_succ _ m).symm
  exact upTo _

/-- The chunks of a table are its rows. -/
theorem rowsOfTable_eq {table : List F} {n σ : ℕ} (length : table.length = 2 ^ n) (fits : σ ≤ n) :
    rowsOfTable (1 <<< σ) table = matrixRows (fun i => table.getD i 0) n σ := by
  have whole : 2 ^ n = 2 ^ (n - σ) * 2 ^ σ := by rw [← pow_add, Nat.sub_add_cancel fits]
  have positive := Nat.two_pow_pos σ
  have count : (2 ^ n + 2 ^ σ - 1) / 2 ^ σ = 2 ^ (n - σ) := by
    rw [whole, Nat.add_sub_assoc positive, Nat.mul_comm, Nat.mul_add_div positive, Nat.div_eq_of_lt (by omega),
      Nat.add_zero]
  rw [rowsOfTable, matrixRows, Nat.one_shiftLeft, length, count]
  refine List.map_congr_left fun row member => ?_
  have room : row * 2 ^ σ + 2 ^ σ ≤ 2 ^ n := by
    rw [whole, ← Nat.succ_mul]
    exact Nat.mul_le_mul_right _ (List.mem_range.mp member)
  refine List.ext_getElem (by simp [length]; omega) fun column below below' => ?_
  have small : column < 2 ^ σ := by simpa using below'
  rw [List.getElem_take, List.getElem_drop, List.getElem_map, List.getElem_range,
    List.getD_eq_getElem _ _ (by rw [length]; omega)]

theorem evaluateTable_eq {table point : List F} (length : table.length = 2 ^ point.length) :
    evaluateTable table point = extension (fun i => table.getD i 0) point := by
  have weights : (EqPolynomial.evaluations point).length = 2 ^ point.length := by
    rw [EqPolynomial.evaluations_eq, EqPolynomial.length_table]
  rw [evaluateTable, sum_zipWith _ 0 0 length weights]
  refine sum_congr rfl fun i member => ?_
  rw [EqPolynomial.evaluations_eq, EqPolynomial.getD_table _ _ (mem_range.mp member), one_mul]

theorem eq_map_getD {table : List F} {n : ℕ} (length : table.length = n) :
    table = (List.range n).map fun i => table.getD i 0 := by
  refine List.ext_getElem (by simp [length]) fun i below below' => ?_
  rw [List.getElem_map, List.getElem_range, List.getD_eq_getElem _ _ below]

/-! ## Dense tables -/

theorem DensePolynomial.represents {p : DensePolynomial F} (length : p.evals.length = 2 ^ p.numVars) :
    Represents p.view (fun i => p.evals.getD i 0) where
  rows _ fits := rowsOfTable_eq length fits
  fold σ fits left _ := (congrArg (foldRowsOf · left σ) (rowsOfTable_eq length fits)).trans (foldRowsOf_matrixRows _ _ _ _)
  value point arity := by
    have some : p.evaluate point = some (evaluateTable p.evals point) := if_pos arity
    calc (p.evaluate point).getD 0 = evaluateTable p.evals point := by rw [some, Option.getD_some]
      _ = extension (fun i => p.evals.getD i 0) point :=
        evaluateTable_eq (length.trans (congrArg (2 ^ ·) arity.symm))
  dense evaluations is := by
    obtain rfl := Option.some.inj is
    exact eq_map_getD length

theorem sliceView_represents {values : List F} {n : ℕ} (length : values.length = 2 ^ n) :
    (sliceView values).numVars = n ∧ Represents (sliceView values) (fun i => values.getD i 0) := by
  have vars : (sliceView values).numVars = n := by
    have some : values.isEmpty = false := by
      rw [List.isEmpty_eq_false_iff, ← List.length_pos_iff, length]
      exact Nat.two_pow_pos n
    rw [sliceView, some, if_neg (by decide), length, Nat.log_pow one_lt_two]
  refine ⟨vars, ⟨fun σ fits => ?_, fun σ fits left _ => ?_, fun point arity => ?_, fun evaluations is => ?_⟩⟩
  · rw [vars] at fits ⊢
    exact rowsOfTable_eq length fits
  · rw [vars] at fits ⊢
    exact (congrArg (foldRowsOf · left σ) (rowsOfTable_eq length fits)).trans (foldRowsOf_matrixRows _ _ _ _)
  · rw [vars] at arity
    exact evaluateTable_eq (by rw [length, arity])
  · obtain rfl := Option.some.inj is
    rw [vars]
    exact eq_map_getD length

/-! ## One-hot tables -/

namespace OneHotPolynomial

variable (poly : OneHotPolynomial)

/-- The entry of the grid of rows and columns. -/
def gridEntry (row col : ℕ) : F := if (poly.indices.getD row none).map UInt8.toNat = some col then 1 else 0

/-- The dense table: the grid, row by row or column by column. -/
def table (place : ℕ) : F :=
  match poly.indexOrder with
  | .rowMajor => poly.gridEntry (place / poly.k) (place % poly.k)
  | .columnMajor => poly.gridEntry (place % poly.indices.length) (place / poly.indices.length)

/-- The row that a place belongs to. -/
def rowOf (place : ℕ) : ℕ :=
  match poly.indexOrder with
  | .rowMajor => place / poly.k
  | .columnMajor => place % poly.indices.length

def entry (row : ℕ) : Option (ℕ × F) := (poly.indices.getD row none).map fun col => (poly.flatIndex row col, 1)

theorem ones_eq : poly.ones.map (fun flat => (flat, (1 : F))) = (List.range poly.indices.length).filterMap poly.entry := by
  have listed : poly.indices.zipIdx = (List.range poly.indices.length).map fun row => (poly.indices.getD row none, row) := by
    refine List.ext_getElem (by simp) fun row below below' => ?_
    have inside : row < poly.indices.length := by simpa using below
    simp [List.getElem?_eq_getElem inside]
  rw [ones, listed, List.filterMap_map, List.map_filterMap]
  refine List.filterMap_congr fun row _ => ?_
  simp only [Function.comp_apply, Option.map_map, entry]
  rfl

variable {poly} in
theorem hot_of_getD {row : ℕ} {col : UInt8} (is : poly.indices.getD row none = some col) :
    row < poly.indices.length ∧ col.toNat < poly.k := by
  have inside : row < poly.indices.length := by
    by_contra outside
    rw [List.getD_eq_default _ _ (Nat.not_lt.mp outside)] at is
    cases is
  rw [List.getD_eq_getElem _ _ inside] at is
  exact ⟨inside, poly.hot col (List.reduceOption_mem_iff.mpr (is ▸ List.getElem_mem inside))⟩

/-- A place tells its row and its column. -/
theorem flatIndex_spec {row : ℕ} {col : UInt8} (inside : row < poly.indices.length) (narrow : col.toNat < poly.k) :
    poly.flatIndex row col < 2 ^ poly.numVars ∧ poly.rowOf (poly.flatIndex row col) = row := by
  rw [← poly.total, flatIndex, rowOf]
  cases poly.indexOrder with
  | rowMajor =>
    dsimp only
    constructor
    · calc row * poly.k + col.toNat < row * poly.k + poly.k := by omega
        _ = (row + 1) * poly.k := (Nat.succ_mul row poly.k).symm
        _ ≤ poly.indices.length * poly.k := Nat.mul_le_mul_right _ inside
        _ = poly.k * poly.indices.length := Nat.mul_comm _ _
    · rw [Nat.mul_comm, Nat.mul_add_div (by omega), Nat.div_eq_of_lt narrow, Nat.add_zero]
  | columnMajor =>
    dsimp only
    constructor
    · calc col.toNat * poly.indices.length + row < col.toNat * poly.indices.length + poly.indices.length := by omega
        _ = (col.toNat + 1) * poly.indices.length := (Nat.succ_mul _ _).symm
        _ ≤ poly.k * poly.indices.length := Nat.mul_le_mul_right _ narrow
    · rw [Nat.mul_comm, Nat.mul_add_mod, Nat.mod_eq_of_lt inside]

/-- The ones are the entries of the table. -/
theorem hits_ones {place : ℕ} (below : place < 2 ^ poly.numVars) :
    hits (poly.ones.map fun flat => (flat, (1 : F))) place = poly.table place := by
  have tells : ∀ row < poly.indices.length, ∀ e : ℕ × F, poly.entry row = some e → poly.rowOf e.1 = row := by
    intro row inside e is
    obtain ⟨col, hot, rfl⟩ := Option.map_eq_some_iff.mp is
    exact (poly.flatIndex_spec inside (hot_of_getD hot).2).2
  rw [ones_eq, hits_range tells]
  rw [← poly.total] at below
  have some : 0 < poly.indices.length := Nat.pos_of_mul_pos_left (Nat.zero_lt_of_lt below)
  have wide : 0 < poly.k := Nat.pos_of_mul_pos_right (Nat.zero_lt_of_lt below)
  cases order : poly.indexOrder with
  | rowMajor =>
    simp only [table, rowOf, entry, gridEntry, flatIndex, order]
    rw [if_pos (by rwa [Nat.div_lt_iff_lt_mul wide, Nat.mul_comm])]
    cases poly.indices.getD (place / poly.k) none with
    | none => rfl
    | some col =>
      have whole := Nat.div_add_mod place poly.k
      simp only [Option.map_some, Option.getD_some, Option.some.injEq]
      exact if_congr (by rw [Nat.mul_comm] at whole; omega) rfl rfl
  | columnMajor =>
    simp only [table, rowOf, entry, gridEntry, flatIndex, order]
    rw [if_pos (Nat.mod_lt _ some)]
    cases poly.indices.getD (place % poly.indices.length) none with
    | none => rfl
    | some col =>
      have whole := Nat.div_add_mod place poly.indices.length
      simp only [Option.map_some, Option.getD_some, Option.some.injEq]
      refine if_congr ⟨fun here => ?_, fun here => ?_⟩ rfl rfl
      · exact Nat.eq_of_mul_eq_mul_right some (by rw [Nat.mul_comm poly.indices.length] at whole; omega)
      · rw [here, Nat.mul_comm, whole]

theorem ones_inside {entry : ℕ × F} (member : entry ∈ poly.ones.map fun flat => (flat, (1 : F))) :
    entry.1 < 2 ^ poly.numVars := by
  rw [ones_eq] at member
  obtain ⟨row, inside, is⟩ := List.mem_filterMap.mp member
  obtain ⟨col, hot, rfl⟩ := Option.map_eq_some_iff.mp is
  exact (poly.flatIndex_spec (List.mem_range.mp inside) (hot_of_getD hot).2).1

theorem ones_distinct : ((poly.ones.map fun flat => (flat, (1 : F))).map Prod.fst).Nodup := by
  rw [ones_eq]
  refine nodup_range poly.rowOf fun row inside e is => ?_
  obtain ⟨col, hot, rfl⟩ := Option.map_eq_some_iff.mp is
  exact (poly.flatIndex_spec inside (hot_of_getD hot).2).2

/-- Pushing every place to its row leaves each row with its places, in order. -/
theorem rowHotCols_eq (numCols numRows : ℕ) : poly.rowHotCols numCols numRows = (List.range numRows).map fun row =>
    (poly.ones.filter fun flat => flat / numCols = row).map (· % numCols) := by
  have pushed (flats : List ℕ) (start : ℕ → List ℕ) : flats.foldl
      (fun rows flat => rows.modify (flat / numCols) (· ++ [flat % numCols])) ((List.range numRows).map start) =
      (List.range numRows).map fun row => start row ++ (flats.filter fun flat => flat / numCols = row).map (· % numCols) := by
    induction flats generalizing start with
    | nil => simp
    | cons flat flats ih =>
      have one : ((List.range numRows).map start).modify (flat / numCols) (· ++ [flat % numCols]) =
          (List.range numRows).map fun row =>
            if flat / numCols = row then start row ++ [flat % numCols] else start row := by
        refine List.ext_getElem (by simp) fun row below below' => ?_
        rw [List.getElem_modify, List.getElem_map, List.getElem_map, List.getElem_range]
      rw [List.foldl_cons, one, ih]
      refine List.map_congr_left fun row _ => ?_
      by_cases here : flat / numCols = row
      · rw [if_pos here, List.filter_cons, if_pos (decide_eq_true here), List.map_cons, List.append_assoc,
          List.singleton_append]
      · rw [if_neg here, List.filter_cons, if_neg (by simpa using here)]
  have start : List.replicate numRows ([] : List ℕ) = (List.range numRows).map fun _ => [] := by
    rw [List.map_const', List.length_range]
  rw [rowHotCols, start, pushed]
  rfl

theorem represents : Represents poly.view (poly.table (F := F)) where
  rows σ fits := by
    have fits : σ ≤ poly.numVars := fits
    have count : 1 <<< poly.numVars / 1 <<< σ = 2 ^ (poly.numVars - σ) := by
      rw [Nat.one_shiftLeft, Nat.one_shiftLeft, Nat.pow_div fits two_pos]
    change (poly.rowHotCols (1 <<< σ) (1 <<< poly.numVars / 1 <<< σ)).map _ = matrixRows poly.table poly.numVars σ
    rw [count, rowHotCols_eq, List.map_map, matrixRows, Nat.one_shiftLeft]
    refine List.map_congr_left fun row member => ?_
    have places : (poly.ones.filter fun flat => flat / 2 ^ σ = row).map (fun flat => (flat, (1 : F))) =
        (poly.ones.map fun flat => (flat, (1 : F))).filter fun entry => entry.1 / 2 ^ σ = row := by
      rw [List.filter_map]
      rfl
    have set := foldl_set_row (poly.ones_distinct (F := F)) σ row
    rw [← places, List.foldl_map] at set
    rw [Function.comp_apply, List.foldl_map, ← List.map_congr_left fun column inside =>
      poly.hits_ones (F := F) (place_lt fits (List.mem_range.mp member) (List.mem_range.mp inside)), ← set]
    refine List.foldl_ext _ _ _ fun buffer flat kept => ?_
    have quotient := of_decide_eq_true (List.mem_filter.mp kept).2
    have whole := Nat.div_add_mod flat (2 ^ σ)
    rw [quotient, Nat.mul_comm] at whole
    have place : flat - row * 2 ^ σ = flat % 2 ^ σ := by omega
    rw [place]
  fold σ fits left _ := by
    have fits : σ ≤ poly.numVars := fits
    have folded := scatter_matrix fits (fun _ => poly.ones_inside (F := F)) left
    rw [List.map_map, scatter, List.foldl_map] at folded
    change poly.ones.foldl (fun result flat => result.modify (flat % 1 <<< σ) (· + left.getD (flat / 1 <<< σ) 0))
      (List.replicate (1 <<< σ) 0) = _
    simp only [Nat.one_shiftLeft]
    calc _ = matrixFold (hits (poly.ones.map fun flat => (flat, (1 : F)))) poly.numVars σ left := by
          rw [← folded]
          simp only [Function.comp_apply, mul_one]
      _ = matrixFold poly.table poly.numVars σ left := matrixFold_congr fits fun place below => poly.hits_ones below
  value point arity := by
    have weights : ∀ flat ∈ poly.ones, (EqPolynomial.evaluations point).getD flat 0 = 1 * eqWeight point flat := by
      intro flat member
      have inside := poly.ones_inside (List.mem_map.mpr ⟨flat, member, rfl⟩ : (flat, (1 : F)) ∈ _)
      rw [EqPolynomial.evaluations_eq, EqPolynomial.getD_table _ _ (by rw [arity]; exact inside)]
    change poly.ones.foldl (fun result flat => result + (EqPolynomial.evaluations point).getD flat 0) 0 = _
    rw [foldl_add, zero_add, List.map_congr_left weights]
    have inside : ∀ entry ∈ poly.ones.map fun flat => (flat, (1 : F)), entry.1 < 2 ^ point.length := fun _ member => by
      rw [arity]
      exact poly.ones_inside (F := F) member
    have sum := sum_entries inside
    rw [List.map_map] at sum
    refine Eq.trans sum (extension_congr fun place inside => ?_)
    exact poly.hits_ones (by rwa [arity] at inside)
  dense _ is := by cases is

end OneHotPolynomial

/-! ## Linear combinations -/

/-- The table of a combination of polynomials that come with their tables. -/
def combination (sources : List (MultilinearPoly F × (ℕ → F))) (scalars : List F) (place : ℕ) : F :=
  ((sources.zip scalars).map fun source => source.2 * source.1.2 place).sum

theorem foldl_addMultiple {A : Type} (m : ℕ) (terms : List A) (scalar : A → F) (row : A → ℕ → F) (start : ℕ → F) :
    terms.foldl (fun combined term => addMultiple combined (scalar term) ((List.range m).map (row term)))
        ((List.range m).map start) =
      (List.range m).map fun c => start c + (terms.map fun term => scalar term * row term c).sum := by
  induction terms generalizing start with
  | nil => simp
  | cons term terms ih =>
    rw [List.foldl_cons, addMultiple_map, ih]
    exact List.map_congr_left fun c _ => by rw [List.map_cons, List.sum_cons, add_assoc]

/-- Weighted sums of terms, term by term. -/
theorem sum_terms {A : Type} (terms : List A) (scalar : A → F) (n : ℕ) (entry : A → ℕ → F) {weight : ℕ → F} :
    (terms.map fun term => scalar term * ∑ row ∈ range n, weight row * entry term row).sum =
      ∑ row ∈ range n, weight row * (terms.map fun term => scalar term * entry term row).sum := by
  induction terms with
  | nil => simp
  | cons term terms ih =>
    simp only [List.map_cons, List.sum_cons, mul_add, sum_add_distrib]
    rw [ih, mul_sum]
    exact congrArg (· + _) (sum_congr rfl fun row _ => mul_left_comm _ _ _)

theorem extension_terms {A : Type} (terms : List A) (scalar : A → F) (table : A → ℕ → F) (point : List F) :
    (terms.map fun term => scalar term * extension (table term) point).sum =
      extension (fun place => (terms.map fun term => scalar term * table term place).sum) point := by
  induction terms with
  | nil => exact (extension_zero point).symm
  | cons term terms ih =>
    simp only [List.map_cons, List.sum_cons]
    rw [extension_add, ih, extension_mul]

omit [Field F] in
theorem RlcSource.new_some {sources : List (MultilinearPoly F)} {scalars : List F} {rlc : RlcSource F}
    (made : RlcSource.new sources scalars = some rlc) : rlc.sources = sources ∧ rlc.scalars = scalars ∧
      ∀ source ∈ sources, source.numVars = rlc.numVars := by
  rw [RlcSource.new] at made
  split_ifs at made with valid
  obtain rfl := Option.some.inj made
  exact ⟨rfl, rfl, fun source member => beq_iff_eq.mp (List.all_eq_true.mp valid.2 source member)⟩

/-- The combination of polynomials that read their tables reads the combination of the tables. -/
theorem RlcSource.represents {sources : List (MultilinearPoly F × (ℕ → F))} {scalars : List F} {rlc : RlcSource F}
    (some_ : sources ≠ []) (made : RlcSource.new (sources.map Prod.fst) scalars = some rlc)
    (each : ∀ source ∈ sources, Represents source.1 source.2) : Represents rlc.view (combination sources scalars) := by
  obtain ⟨polys, factors, vars⟩ := RlcSource.new_some made
  have terms : rlc.sources.zip rlc.scalars = (sources.zip scalars).map fun source => (source.1.1, source.2) := by
    rw [polys, factors, List.zip_map_left]
    rfl
  have numVars : ∀ term ∈ sources.zip scalars, term.1.1.numVars = rlc.numVars := fun term member =>
    vars _ (List.mem_map_of_mem (List.of_mem_zip member).1)
  have reads : ∀ term ∈ sources.zip scalars, Represents term.1.1 term.1.2 := fun term member =>
    each _ (List.of_mem_zip member).1
  refine ⟨fun σ fits => ?_, fun σ fits left length => ?_, fun point arity => ?_, fun _ is => by cases is⟩
  · -- the rows of all sources, combined row by row
    have nonempty : rlc.sources.isEmpty = false := by
      rw [polys, List.isEmpty_eq_false_iff]
      exact List.map_eq_nil_iff.not.mpr some_
    have rows : (rlc.sources.map fun source => source.forEachRow σ).zip rlc.scalars =
        (sources.zip scalars).map fun source => (source.1.1.forEachRow σ, source.2) := by
      rw [polys, factors, List.map_map, List.zip_map_left]
      rfl
    change (if rlc.sources.isEmpty then [] else _) = _
    rw [nonempty, if_neg (by decide), rows, Nat.one_shiftLeft, Nat.one_shiftLeft]
    refine List.map_congr_left fun row member => ?_
    have inside := List.mem_range.mp member
    rw [List.foldl_map, replicate_zero]
    refine Eq.trans (List.foldl_ext _ _ _ fun combined term kept => ?_)
      ((foldl_addMultiple (2 ^ σ) (sources.zip scalars) Prod.snd (fun term column => term.1.2 (row * 2 ^ σ + column))
        fun _ => 0).trans (List.map_congr_left fun column _ => zero_add _))
    have same := numVars term kept
    rw [(reads term kept).rows σ (by rw [same]; exact fits), matrixRows, same,
      List.getD_eq_getElem _ _ (by rw [List.length_map, List.length_range]; exact inside), List.getElem_map,
      List.getElem_range]
  · -- the folds of the sources, combined
    change (rlc.sources.zip rlc.scalars).foldl
      (fun result source => addMultiple result source.2 (source.1.foldRows left σ)) (List.replicate (1 <<< σ) 0) = _
    rw [terms, List.foldl_map, Nat.one_shiftLeft, replicate_zero]
    refine Eq.trans (List.foldl_ext _ _ _ fun result term kept => ?_)
      ((foldl_addMultiple (2 ^ σ) (sources.zip scalars) Prod.snd (fun term column =>
        ∑ row ∈ range (2 ^ (rlc.numVars - σ)), left.getD row 0 * term.1.2 (row * 2 ^ σ + column)) fun _ => 0).trans
        (List.map_congr_left fun column _ => (zero_add _).trans (sum_terms _ _ _ _)))
    have same := numVars term kept
    rw [(reads term kept).fold σ (by rw [same]; exact fits) left (by rw [same]; exact length), matrixFold, same]
  · change ((rlc.sources.zip rlc.scalars).map fun source => source.2 * source.1.evaluate point).foldl (· + ·) 0 = _
    rw [terms, List.map_map, ← List.sum_eq_foldl]
    refine Eq.trans (congrArg List.sum (List.map_congr_left fun term kept => ?_)) (extension_terms _ _ _ _)
    rw [Function.comp_apply, (reads term kept).value point (by rw [numVars term kept]; exact arity)]

end

end JoltWasm
