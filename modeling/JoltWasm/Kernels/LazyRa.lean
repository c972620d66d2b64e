import JoltWasm.Kernels.BoundTables
import JoltWasm.Lib.Loops

/-!
# Lazily bound selector columns

A folded column is a lookup of each cycle's index in a small table.  The first three bindings scale copies of
the table by the weights of the bound bits, and only the fourth writes the column out.
-/

namespace JoltWasm

open Lib Finset

/-- The hot index of each cycle, for several polynomials; a call may stop. -/
structure ChunkIndexSource where
  numPolys : ℕ
  cycles : ℕ
  index : ℕ → ℕ → Option (Option ℕ)

inductive LazyFoldedRa (F : Type) where
  | lazy (tables : List (List F)) (width : ℕ) (source : ChunkIndexSource)
  | dense (polys : List (DensePolynomial F))

variable {F : Type} [Field F]

namespace LazyFoldedRa

/-- What the lookup of an index adds; a cold cycle adds nothing. -/
def lookupEntry (table : List F) (base : ℕ) : Option ℕ → Option F
  | none => some 0
  | some k => table[base + k]?

/-- The sum over the branches of a row. -/
def gather (table : List F) (width : ℕ) (source : ChunkIndexSource) (i j : ℕ) : Option F := do
  if width = 1 then lookupEntry table 0 (← source.index i j)
  else
    let stride := table.length / width
    let (sum, _) ← (List.range width).foldlM (fun ((sum, base) : F × ℕ) offset => do
      let entry ← lookupEntry table base (← source.index i (j * width + offset))
      return (sum + entry, base + stride)) (0, 0)
    return sum

/-- The table for bit zero, then the table for bit one. -/
def doubleBranches (tables : List (List F)) (challenge : F) : List (List F) :=
  let oneMinus := 1 - challenge
  tables.map fun table => table.map (oneMinus * ·) ++ table.map (challenge * ·)

def materialize (tables : List (List F)) (source : ChunkIndexSource) (branches : ℕ) :
    Option (List (DensePolynomial F)) :=
  if source.cycles < branches then none
  else
    let newLen := source.cycles / branches
    (List.range tables.length).mapM fun i => do
      let table ← tables[i]?
      let evals ← (List.range newLen).mapM (gather table branches source i)
      DensePolynomial.new evals

def new (tables : List (List F)) (source : ChunkIndexSource) : Option (LazyFoldedRa F) :=
  if tables.length = source.numPolys then some (.lazy tables 1 source) else none

def numPolys : LazyFoldedRa F → ℕ
  | .lazy tables _ _ => tables.length
  | .dense polys => polys.length

/-- The bound value of a polynomial at a row. -/
def value (state : LazyFoldedRa F) (i j : ℕ) : Option F :=
  match state with
  | .lazy tables width source => do gather (← tables[i]?) width source i j
  | .dense polys => do (← polys[i]?).evals[j]?

def loHi (state : LazyFoldedRa F) (i row : ℕ) : Option (F × F) := do
  return (← state.value i (2 * row), ← state.value i (2 * row + 1))

/-- The pairs of all polynomials at a row, written to a slice of one entry for each. -/
def loHiAll (state : LazyFoldedRa F) (row : ℕ) : Option (List (F × F)) :=
  match state with
  | .lazy tables width source => tables.zipIdx.mapM fun (table, i) => do
      return (← gather table width source i (2 * row), ← gather table width source i (2 * row + 1))
  | .dense polys => polys.mapM fun poly => do
      return (← poly.evals[2 * row]?, ← poly.evals[2 * row + 1]?)

def finalValues (state : LazyFoldedRa F) : Option (List F) :=
  (List.range state.numPolys).mapM fun i => state.value i 0

def bind (state : LazyFoldedRa F) (challenge : F) : Option (LazyFoldedRa F) :=
  match state with
  | .lazy tables width source =>
      let tables := doubleBranches tables challenge
      if width < 8 then some (.lazy tables (width * 2) source)
      else do return .dense (← materialize tables source (width * 2))
  | .dense polys => do return .dense (← polys.mapM fun poly => poly.bindLowToHigh challenge)

/-! ## The scaled copies -/

/-- One copy of the table for each pattern of the bound bits, scaled by its weight. -/
def branches (table low : List F) : List F :=
  (List.range (2 ^ low.length)).flatMap fun offset => table.map (eqWeight low offset * ·)

theorem branches_nil (table : List F) : branches table [] = table := by
  simp [branches, eqWeight]

omit [Field F] in
/-- Pieces of one length are indexed by piece and place. -/
theorem getElem?_pieces {pieces : ℕ → List F} {width : ℕ} (widths : ∀ piece, (pieces piece).length = width)
    {count piece place : ℕ} (inside : piece < count) (within : place < width) :
    ((List.range count).flatMap pieces)[piece * width + place]? = (pieces piece)[place]? := by
  induction count with
  | zero => omega
  | succ count ih =>
      have length : ((List.range count).flatMap pieces).length = count * width := by
        simp [List.length_flatMap, widths]
      rw [List.range_succ, List.flatMap_append, List.flatMap_singleton]
      rcases Nat.lt_succ_iff_lt_or_eq.mp inside with before | rfl
      · have below : piece * width + place < count * width :=
          calc piece * width + place < (piece + 1) * width := by rw [Nat.succ_mul]; omega
            _ ≤ count * width := Nat.mul_le_mul_right _ before
        rw [List.getElem?_append_left (length ▸ below), ih before]
      · rw [List.getElem?_append_right (by rw [length]; omega), length, Nat.add_sub_cancel_left]

theorem length_branches (table low : List F) : (branches table low).length = 2 ^ low.length * table.length := by
  rw [branches, List.length_flatMap]
  simp

/-- The scaled copies after one more challenge. -/
theorem double_branches (table low : List F) (challenge : F) :
    (branches table low).map ((1 - challenge) * ·) ++ (branches table low).map (challenge * ·) =
      branches table (challenge :: low) := by
  have copies (weight : F) (shift : ℕ) (weights : ∀ offset < 2 ^ low.length,
      eqWeight (challenge :: low) (shift + offset) = weight * eqWeight low offset) :
      (branches table low).map (weight * ·) = (List.range (2 ^ low.length)).flatMap fun offset =>
        table.map (eqWeight (challenge :: low) (shift + offset) * ·) := by
    rw [branches, List.map_flatMap]
    refine List.flatMap_congr fun offset member => ?_
    rw [weights offset (List.mem_range.mp member), List.map_map]
    exact List.map_congr_left fun entry _ => (mul_assoc _ _ _).symm
  rw [copies (1 - challenge) 0 fun offset inside => by rw [Nat.zero_add, eqWeight_cons_low challenge low inside],
    copies challenge (2 ^ low.length) fun offset inside => by
      rw [Nat.add_comm, eqWeight_cons_high challenge low inside],
    branches, List.length_cons, pow_succ, mul_two, List.range_add, List.flatMap_append, List.flatMap_map]
  simp only [Nat.zero_add]

theorem getElem?_branches (table low : List F) {offset k : ℕ} (branch : offset < 2 ^ low.length) (inside : k < table.length) :
    (branches table low)[offset * table.length + k]? = some (eqWeight low offset * table.getD k 0) := by
  rw [branches, getElem?_pieces (fun _ => List.length_map _) branch inside, List.getElem?_map,
    List.getElem?_eq_getElem inside, List.getD_eq_getElem _ _ inside]
  rfl

/-! ## The gather -/

/-- The entry of the column at a cycle. -/
def cell (table : List F) (source : ChunkIndexSource) (i j : ℕ) : Option F := do
  lookupEntry table 0 (← source.index i j)

theorem lookupEntry_branches {table low : List F} {offset : ℕ} (branch : offset < 2 ^ low.length) {hot : Option ℕ} {entry : F}
    (found : lookupEntry table 0 hot = some entry) :
    lookupEntry (branches table low) (offset * table.length) hot = some (eqWeight low offset * entry) := by
  cases hot with
  | none =>
      obtain rfl := Option.some.inj found
      exact congrArg some (mul_zero _).symm
  | some k =>
      simp only [lookupEntry, Nat.zero_add] at found
      obtain ⟨inside, rfl⟩ := List.getElem?_eq_some_iff.mp found
      rw [lookupEntry, getElem?_branches table low branch inside, List.getD_eq_getElem _ _ inside]

/-- The branches of a row add up to the bound value of the column. -/
theorem gather_branches {table low : List F} {source : ChunkIndexSource} {i j : ℕ} {column : ℕ → F}
    (cells : ∀ offset < 2 ^ low.length, cell table source i (j * 2 ^ low.length + offset) =
      some (column (j * 2 ^ low.length + offset))) :
    gather (branches table low) (2 ^ low.length) source i j =
      some (∑ offset ∈ range (2 ^ low.length), eqWeight low offset * column (j * 2 ^ low.length + offset)) := by
  rw [gather]
  split_ifs with single
  · -- No challenge is bound yet.
    have empty : low = [] := by
      rw [← List.length_eq_zero_iff]
      exact (Nat.pow_eq_one.mp single).resolve_left (by decide)
    subst empty
    have here := cells 0 Nat.one_pos
    rw [List.length_nil, pow_zero, mul_one, add_zero, cell] at here
    simp [branches_nil, eqWeight, here]
  · have stride : (branches table low).length / 2 ^ low.length = table.length := by
      rw [length_branches, Nat.mul_div_cancel_left _ (Nat.two_pow_pos _)]
    have loop (count : ℕ) (most : count ≤ 2 ^ low.length) :
        (List.range count).foldlM (fun ((sum, base) : F × ℕ) offset => do
          let entry ← lookupEntry (branches table low) base (← source.index i (j * 2 ^ low.length + offset))
          return (sum + entry, base + table.length)) (0, 0) =
          some (∑ offset ∈ range count, eqWeight low offset * column (j * 2 ^ low.length + offset), count * table.length) := by
      induction count with
      | zero => simp
      | succ count ih =>
          have here := cells count most
          rw [cell] at here
          obtain ⟨hot, indexed, found⟩ := Option.bind_eq_some_iff.mp here
          rw [List.range_succ, List.foldlM_append, ih (Nat.le_of_succ_le most)]
          simp only [Option.bind_eq_bind, Option.bind_some, List.foldlM_cons, indexed, lookupEntry_branches most found,
            List.foldlM_nil, Option.pure_def, sum_range_succ, Nat.succ_mul]
    simp only [stride]
    rw [loop _ le_rfl]
    rfl

/-! ## The invariant -/

/-- The columns of a source with `2 ^ n` cycles. -/
structure Columns (tables : List (List F)) (source : ChunkIndexSource) (columns : ℕ → ℕ → F) (n : ℕ) : Prop where
  cycles : source.cycles = 2 ^ n
  cells : ∀ i table, tables[i]? = some table → ∀ j < 2 ^ n, cell table source i j = some (columns i j)

/-- The state after the challenges of `low`, with `m` free variables: scaled copies up to the third
challenge, and the bound columns from the fourth on. -/
inductive Bound (tables : List (List F)) (source : ChunkIndexSource) (columns : ℕ → ℕ → F) (m : ℕ) (low : List F) :
    LazyFoldedRa F → Prop
  | lazy : low.length < 4 →
      Bound tables source columns m low (.lazy (tables.map fun table => branches table low) (2 ^ low.length) source)
  | dense : 4 ≤ low.length →
      Bound tables source columns m low
        (.dense ((List.range tables.length).map fun i => tabulatedPolynomial (extension (columns i)) m low))

variable {tables : List (List F)} {source : ChunkIndexSource} {columns : ℕ → ℕ → F} {n m : ℕ} {low : List F}
  {state : LazyFoldedRa F}

theorem Columns.gather_eq (holds : Columns tables source columns n) (lengths : m + low.length = n) {i j : ℕ} {table : List F}
    (found : tables[i]? = some table) (inside : j < 2 ^ m) :
    gather (branches table low) (2 ^ low.length) source i j = some (extension (columns i) (bitPoint F m j ++ low)) := by
  rw [gather_branches fun offset branch => holds.cells i table found _ ?_, extension_bitPoint_append _ inside]
  rw [← lengths, pow_add]
  calc j * 2 ^ low.length + offset < (j + 1) * 2 ^ low.length := by rw [Nat.succ_mul]; omega
    _ ≤ 2 ^ m * 2 ^ low.length := Nat.mul_le_mul_right _ inside

theorem getElem?_tabulated (f : List F → F) {m j : ℕ} (low : List F) (inside : j < 2 ^ m) :
    (tabulatedPolynomial f m low).evals[j]? = some (f (bitPoint F m j ++ low)) := by
  have length := length_tabulated f [] m low
  rw [tabulatedPolynomial, List.getElem?_eq_getElem (length ▸ inside), ← List.getD_eq_getElem _ 0,
    getD_tabulated f [] low inside, List.nil_append]

theorem Bound.value_eq (bound : Bound tables source columns m low state) (holds : Columns tables source columns n)
    (lengths : m + low.length = n) {i j : ℕ} (listed : i < tables.length) (inside : j < 2 ^ m) :
    state.value i j = some (extension (columns i) (bitPoint F m j ++ low)) := by
  cases bound with
  | lazy few =>
      have found := List.getElem?_eq_getElem listed
      rw [value, List.getElem?_map, found]
      exact holds.gather_eq lengths found inside
  | dense many =>
      rw [value, List.getElem?_map, List.getElem?_range listed]
      exact getElem?_tabulated _ low inside

theorem Bound.numPolys_eq (bound : Bound tables source columns m low state) : state.numPolys = tables.length := by
  cases bound with
  | lazy few => exact List.length_map _
  | dense many => rw [numPolys, List.length_map, List.length_range]

theorem doubleBranches_eq (challenge : F) :
    doubleBranches (tables.map fun table => branches table low) challenge =
      tables.map fun table => branches table (challenge :: low) := by
  rw [doubleBranches, List.map_map]
  exact List.map_congr_left fun table _ => double_branches table low challenge

/-- The columns are written out at their bound values. -/
theorem materialize_eq (holds : Columns tables source columns n) (lengths : m + low.length = n) :
    materialize (tables.map fun table => branches table low) source (2 ^ low.length) =
      some ((List.range tables.length).map fun i => tabulatedPolynomial (extension (columns i)) m low) := by
  have cycles : 2 ^ n = 2 ^ m * 2 ^ low.length := by rw [← lengths, pow_add]
  rw [materialize, holds.cycles, if_neg (by rw [cycles]; exact Nat.not_lt.mpr (Nat.le_mul_of_pos_left _ (Nat.two_pow_pos m))),
    List.length_map]
  refine UnivariatePoly.mapM_some fun i member => ?_
  have listed := List.mem_range.mp member
  have found := List.getElem?_eq_getElem listed
  have evals : (List.range (2 ^ n / 2 ^ low.length)).mapM (gather (branches tables[i] low) (2 ^ low.length) source i) =
      some (tabulated (extension (columns i)) [] m low) := by
    rw [cycles, Nat.mul_div_cancel _ (Nat.two_pow_pos _)]
    refine UnivariatePoly.mapM_some fun j inside => ?_
    rw [holds.gather_eq lengths found (List.mem_range.mp inside)]
    rfl
  rw [List.getElem?_map, found]
  simp only [Option.map_some, Option.bind_eq_bind, Option.bind_some, evals, new_tabulated]

theorem Bound.bind_eq (bound : Bound tables source columns (m + 1) low state) (holds : Columns tables source columns n)
    (lengths : m + 1 + low.length = n) (challenge : F) :
    ∃ state', state.bind challenge = some state' ∧ Bound tables source columns m (challenge :: low) state' := by
  cases bound with
  | lazy few =>
      rw [bind, doubleBranches_eq]
      have width : 2 ^ low.length * 2 = 2 ^ (challenge :: low).length := by rw [List.length_cons, pow_succ]
      split_ifs with narrow
      · rw [width]
        refine ⟨_, rfl, .lazy ?_⟩
        have below : 2 ^ low.length < 2 ^ 3 := narrow
        have := (Nat.pow_lt_pow_iff_right (by decide)).mp below
        rw [List.length_cons]
        omega
      · have rest : m + (challenge :: low).length = n := by rw [List.length_cons]; omega
        rw [width, materialize_eq holds rest]
        refine ⟨_, rfl, .dense ?_⟩
        have above : 2 ^ 3 ≤ 2 ^ low.length := Nat.not_lt.mp narrow
        have := (Nat.pow_le_pow_iff_right (by decide)).mp above
        rw [List.length_cons]
        omega
  | dense many =>
      refine ⟨_, ?_, .dense (by rw [List.length_cons]; omega)⟩
      have each : (List.range tables.length).mapM ((fun poly => poly.bindLowToHigh challenge) ∘ fun i =>
          tabulatedPolynomial (extension (columns i)) (m + 1) low) = some ((List.range tables.length).map fun i =>
            tabulatedPolynomial (extension (columns i)) m (challenge :: low)) :=
        UnivariatePoly.mapM_some fun i _ => bindLowToHigh_tabulated (multilinear_extension (columns i)) m low challenge
      rw [bind, List.mapM_map, each]
      rfl

/-- Any number of bindings. -/
theorem bind_run (holds : Columns tables source columns n) {challenges : List F} (bound : Bound tables source columns m low state)
    (lengths : m + low.length = n) (few : challenges.length ≤ m) :
    ∃ state', challenges.foldlM bind state = some state' ∧
      Bound tables source columns (m - challenges.length) (challenges.reverse ++ low) state' := by
  induction challenges generalizing state m low with
  | nil => exact ⟨state, rfl, bound⟩
  | cons challenge challenges ih =>
      obtain ⟨m, rfl⟩ : ∃ k, m = k + 1 := ⟨m - 1, by rw [List.length_cons] at few; omega⟩
      obtain ⟨next, ran, bound⟩ := bound.bind_eq holds lengths challenge
      obtain ⟨last, rest, done⟩ := ih bound (by rw [List.length_cons]; omega) (Nat.le_of_succ_le_succ few)
      refine ⟨last, by rw [List.foldlM_cons, ran]; exact rest, ?_⟩
      rwa [List.reverse_cons, List.append_assoc, List.singleton_append, List.length_cons, Nat.add_sub_add_right]

/-! ## The dense columns -/

/-- The columns written out before any challenge. -/
def denseColumns (tables : List (List F)) (source : ChunkIndexSource) : Option (List (DensePolynomial F)) :=
  (List.range tables.length).mapM fun i => do
    let table ← tables[i]?
    let evals ← (List.range source.cycles).mapM (cell table source i)
    DensePolynomial.new evals

/-- A dense polynomial that is not empty is the table of its own extension. -/
theorem new_eq {evals : List F} {poly : DensePolynomial F} (made : DensePolynomial.new evals = some poly) (some_ : evals ≠ []) :
    ∃ n, evals.length = 2 ^ n ∧ poly = tabulatedPolynomial (extension fun j => evals.getD j 0) n [] := by
  rw [DensePolynomial.new, dif_neg (by rwa [List.length_eq_zero_iff])] at made
  split_ifs at made with power
  refine ⟨_, power, ?_⟩
  have again := new_listed (Nat.log 2 evals.length) fun j => evals.getD j 0
  rw [← eq_listed power, DensePolynomial.new, dif_neg (by rwa [List.length_eq_zero_iff]), dif_pos power] at again
  exact Option.some.inj (made.symm.trans again)

/-- Dense columns have a power of two of cycles, unless they are empty. -/
theorem columns_of_dense {dense : List (DensePolynomial F)} (written : denseColumns tables source = some dense)
    (some_ : tables ≠ []) (cycles : source.cycles ≠ 0) : ∃ columns n, Columns tables source columns n ∧
      dense = (List.range tables.length).map fun i => tabulatedPolynomial (extension (columns i)) n [] := by
  have column (i : ℕ) (listed : i < tables.length) : ∃ evals poly, dense[i]? = some poly ∧
      (List.range source.cycles).mapM (cell tables[i] source i) = some evals ∧ DensePolynomial.new evals = some poly := by
    obtain ⟨poly, made, here⟩ := getElem?_of_mapM written (List.getElem?_range listed)
    rw [List.getElem?_eq_getElem listed, Option.bind_eq_bind, Option.bind_some] at made
    obtain ⟨evals, ran, made⟩ := Option.bind_eq_some_iff.mp made
    exact ⟨evals, poly, here, ran, made⟩
  choose! evals polys here ran made using column
  have count (i : ℕ) (listed : i < tables.length) : (evals i).length = source.cycles := by
    rw [length_of_mapM (ran i listed), List.length_range]
  have shape (i : ℕ) (listed : i < tables.length) := new_eq (made i listed) (List.ne_nil_of_length_pos (by
    rw [count i listed]
    exact Nat.pos_of_ne_zero cycles))
  obtain ⟨n, power, -⟩ := shape 0 (List.length_pos_iff.mpr some_)
  rw [count 0 (List.length_pos_iff.mpr some_)] at power
  refine ⟨fun i j => (evals i).getD j 0, n, ⟨power, fun i table found j inside => ?_⟩, ?_⟩
  · obtain ⟨listed, rfl⟩ := List.getElem?_eq_some_iff.mp found
    obtain ⟨entry, looked, there⟩ := getElem?_of_mapM (ran i listed) (List.getElem?_range (power ▸ inside))
    rw [looked, List.getD_eq_getElem?_getD, there, Option.getD_some]
  · refine List.ext_getElem? fun i => ?_
    by_cases listed : i < tables.length
    · obtain ⟨m, length, rfl_⟩ := shape i listed
      have same : m = n := Nat.pow_right_injective le_rfl (by
        change 2 ^ m = 2 ^ n
        rw [← length, count i listed, power])
      rw [here i listed, List.getElem?_map, List.getElem?_range listed, rfl_, same]
      rfl
    · rw [List.getElem?_eq_none (by
        rw [length_of_mapM written, List.length_range]
        exact Nat.not_lt.mp listed), List.getElem?_eq_none (by
        rw [List.length_map, List.length_range]
        exact Nat.not_lt.mp listed)]

/-- What the lazy state returns is what the dense columns hold. -/
structure LazyAgrees (state : LazyFoldedRa F) (bound : List (DensePolynomial F)) : Prop where
  numPolys : state.numPolys = bound.length
  value : ∀ i j poly entry, bound[i]? = some poly → poly.evals[j]? = some entry → state.value i j = some entry
  loHi : ∀ i row poly, bound[i]? = some poly → 2 * row + 1 < poly.evals.length →
    state.loHi i row = some (poly.sumcheckEvalPair row .lowToHigh)
  loHiAll : ∀ row, (∀ poly ∈ bound, 2 * row + 1 < poly.evals.length) →
    state.loHiAll row = some (bound.map fun poly => poly.sumcheckEvalPair row .lowToHigh)

/-- The bound columns. -/
def boundColumns (count : ℕ) (columns : ℕ → ℕ → F) (m : ℕ) (low : List F) : List (DensePolynomial F) :=
  (List.range count).map fun i => tabulatedPolynomial (extension (columns i)) m low

theorem getElem?_boundColumns {count i : ℕ} {poly : DensePolynomial F}
    (there : (boundColumns count columns m low)[i]? = some poly) :
    i < count ∧ poly = tabulatedPolynomial (extension (columns i)) m low := by
  obtain ⟨listed, rfl⟩ := List.getElem?_eq_some_iff.mp there
  rw [boundColumns, List.length_map, List.length_range] at listed
  refine ⟨listed, ?_⟩
  simp only [boundColumns, List.getElem_map, List.getElem_range]

theorem sumcheckEvalPair_tabulated (f : List F → F) {m row : ℕ} (low : List F) (inside : 2 * row + 1 < 2 ^ m) :
    (tabulatedPolynomial f m low).sumcheckEvalPair row .lowToHigh =
      (f (bitPoint F m (2 * row) ++ low), f (bitPoint F m (2 * row + 1) ++ low)) := by
  simp only [DensePolynomial.sumcheckEvalPair, tabulatedPolynomial, getD_tabulated f [] low (by omega : 2 * row < 2 ^ m),
    getD_tabulated f [] low inside, List.nil_append]

/-- The two entries of a row of a lazy polynomial. -/
theorem Columns.gather_pair (holds : Columns tables source columns n) (lengths : m + low.length = n) {i row : ℕ}
    {table : List F} (found : tables[i]? = some table) (inside : 2 * row + 1 < 2 ^ m) :
    (do return (← gather (branches table low) (2 ^ low.length) source i (2 * row),
        ← gather (branches table low) (2 ^ low.length) source i (2 * row + 1))) =
      some ((tabulatedPolynomial (extension (columns i)) m low).sumcheckEvalPair row .lowToHigh) := by
  rw [holds.gather_eq lengths found (by omega), holds.gather_eq lengths found inside, sumcheckEvalPair_tabulated _ _ inside]
  rfl

theorem Bound.agrees (bound : Bound tables source columns m low state) (holds : Columns tables source columns n)
    (lengths : m + low.length = n) : LazyAgrees state (boundColumns tables.length columns m low) where
  numPolys := by rw [bound.numPolys_eq, boundColumns, List.length_map, List.length_range]
  value i j poly entry there here := by
    obtain ⟨listed, rfl⟩ := getElem?_boundColumns there
    have inside : j < 2 ^ m := length_tabulated (extension (columns i)) [] m low ▸ (List.getElem?_eq_some_iff.mp here).1
    rw [← here, getElem?_tabulated _ low inside, bound.value_eq holds lengths listed inside]
  loHi i row poly there inside := by
    obtain ⟨listed, rfl⟩ := getElem?_boundColumns there
    rw [tabulatedPolynomial, length_tabulated] at inside
    rw [loHi, bound.value_eq holds lengths listed (by omega), bound.value_eq holds lengths listed inside,
      sumcheckEvalPair_tabulated _ _ inside]
    rfl
  loHiAll row all := by
    have inside (i : ℕ) (listed : i < tables.length) : 2 * row + 1 < 2 ^ m := by
      have long := all (tabulatedPolynomial (extension (columns i)) m low)
        (List.mem_map.mpr ⟨i, List.mem_range.mpr listed, rfl⟩)
      rwa [tabulatedPolynomial, length_tabulated] at long
    cases bound with
    | lazy few =>
        have indexed : (tables.map fun table => branches table low).zipIdx.map Prod.snd = List.range tables.length := by
          rw [List.zipIdx_map_snd, List.length_map, List.range_eq_range']
        rw [loHiAll, boundColumns, ← indexed, List.map_map, List.map_map]
        refine UnivariatePoly.mapM_some fun entry member => ?_
        obtain ⟨table, i⟩ := entry
        have found := List.mk_mem_zipIdx_iff_getElem?.mp member
        rw [List.getElem?_map] at found
        obtain ⟨table, here, rfl⟩ := Option.map_eq_some_iff.mp found
        exact holds.gather_pair lengths here (inside i (List.getElem?_eq_some_iff.mp here).1)
    | dense many =>
        rw [loHiAll, ← boundColumns]
        refine UnivariatePoly.mapM_some fun poly member => ?_
        obtain ⟨i, listed, rfl⟩ := List.mem_map.mp member
        have within := inside i (List.mem_range.mp listed)
        rw [getElem?_tabulated _ low (by omega), getElem?_tabulated _ low within, sumcheckEvalPair_tabulated _ _ within]
        rfl

/-- Without cycles there is nothing to bind and nothing to read. -/
theorem agrees_empty (some_ : tables ≠ []) (cycles : source.cycles = 0) {dense bound : List (DensePolynomial F)}
    (written : denseColumns tables source = some dense) {challenges : List F}
    (binds : dense.mapM (fun column => challenges.foldlM DensePolynomial.bindLowToHigh column) = some bound) :
    challenges = [] ∧ LazyAgrees (.lazy tables 1 source) bound := by
  have empty : ∀ poly ∈ dense, poly.evals = [] ∧ poly.numVars = 0 := by
    intro poly member
    obtain ⟨i, there⟩ := List.getElem?_of_mem member
    have listed : i < tables.length := by
      have inside := (List.getElem?_eq_some_iff.mp there).1
      rwa [length_of_mapM written, List.length_range] at inside
    obtain ⟨same, made, here⟩ := getElem?_of_mapM written (List.getElem?_range listed)
    obtain rfl := Option.some.inj (here.symm.trans there)
    rw [List.getElem?_eq_getElem listed, cycles, Option.bind_eq_bind, Option.bind_some] at made
    obtain rfl := Option.some.inj made
    exact ⟨rfl, rfl⟩
  have count : dense.length = tables.length := by rw [length_of_mapM written, List.length_range]
  have positive : 0 < dense.length := count ▸ List.length_pos_iff.mpr some_
  have none_ : challenges = [] := by
    obtain ⟨first, ran, -⟩ := getElem?_of_mapM binds (List.getElem?_eq_getElem positive)
    have used := numVars_of_binds ran
    rw [(empty _ (List.getElem_mem positive)).2] at used
    exact List.length_eq_zero_iff.mp (by omega)
  subst none_
  have same : bound = dense := by
    have each : dense.mapM (fun column => [].foldlM DensePolynomial.bindLowToHigh column) = some (dense.map id) :=
      UnivariatePoly.mapM_some fun _ _ => rfl
    rw [each, List.map_id] at binds
    exact (Option.some.inj binds).symm
  subst same
  refine ⟨rfl, count.symm, fun i j poly entry there here => ?_, fun i row poly there inside => ?_, fun row all => ?_⟩
  · rw [(empty poly (List.mem_of_getElem? there)).1] at here
    exact nomatch here
  · rw [(empty poly (List.mem_of_getElem? there)).1] at inside
    exact absurd inside (Nat.not_lt_zero _)
  · have inside := all _ (List.getElem_mem positive)
    rw [(empty _ (List.getElem_mem positive)).1] at inside
    exact absurd inside (Nat.not_lt_zero _)

/-- At any number of challenges the lazy state returns what the dense columns hold after them, and once all
variables are bound the extensions of the columns. -/
theorem lazyFoldedRa_agrees {start : LazyFoldedRa F} (built : new tables source = some start) (some_ : 0 < source.numPolys)
    {dense : List (DensePolynomial F)} (written : denseColumns tables source = some dense) {challenges : List F}
    {bound : List (DensePolynomial F)}
    (binds : dense.mapM (fun column => challenges.foldlM DensePolynomial.bindLowToHigh column) = some bound) :
    ∃ state, challenges.foldlM bind start = some state ∧ LazyAgrees state bound ∧
      (source.cycles = 2 ^ challenges.length → state.finalValues =
        some (dense.map fun column => extension (fun j => column.evals.getD j 0) challenges.reverse)) := by
  rw [new] at built
  split_ifs at built with polys
  obtain rfl := Option.some.inj built
  have nonempty : tables ≠ [] := List.length_pos_iff.mp (polys ▸ some_)
  by_cases cycles : source.cycles = 0
  · obtain ⟨rfl, agrees⟩ := agrees_empty nonempty cycles written binds
    refine ⟨_, rfl, agrees, fun single => ?_⟩
    rw [cycles, List.length_nil] at single
    exact absurd single (by norm_num)
  · obtain ⟨columns, n, holds, rfl⟩ := columns_of_dense written nonempty cycles
    have few : challenges.length ≤ n := by
      obtain ⟨_, ran, -⟩ := getElem?_of_mapM binds (List.getElem?_eq_getElem (by
        rw [List.length_map, List.length_range]
        exact List.length_pos_iff.mpr nonempty : 0 < _))
      have used := numVars_of_binds ran
      rw [List.getElem_map] at used
      exact (Nat.le_add_left _ _).trans used.le
    have after : bound = boundColumns tables.length columns (n - challenges.length) (challenges.reverse ++ []) := by
      have each : (List.range tables.length).mapM ((fun column => challenges.foldlM DensePolynomial.bindLowToHigh column) ∘
          fun i => tabulatedPolynomial (extension (columns i)) n []) = some _ :=
        UnivariatePoly.mapM_some fun i _ => foldlM_tabulated (multilinear_extension (columns i)) few []
      rw [List.mapM_map, each] at binds
      exact (Option.some.inj binds).symm
    have start : Bound tables source columns n [] (.lazy tables 1 source) := by
      have lazy : Bound tables source columns n [] (.lazy (tables.map fun table => branches table []) (2 ^ ([] : List F).length)
        source) := .lazy (Nat.zero_lt_succ 3)
      simpa only [branches_nil, List.map_id', List.length_nil, pow_zero] using lazy
    obtain ⟨state, ran, done⟩ := bind_run holds start rfl few
    have lengths : n - challenges.length + (challenges.reverse ++ []).length = n := by
      rw [List.append_nil, List.length_reverse]
      omega
    refine ⟨state, ran, after ▸ done.agrees holds lengths, fun full => ?_⟩
    have whole : n = challenges.length := Nat.pow_right_injective le_rfl (holds.cycles.symm.trans full)
    rw [finalValues, done.numPolys_eq, List.map_map]
    refine UnivariatePoly.mapM_some fun i member => ?_
    rw [done.value_eq holds lengths (List.mem_range.mp member) (Nat.two_pow_pos _), Function.comp_apply,
      evals_tabulatedPolynomial, List.append_nil, whole, Nat.sub_self]
    refine congrArg some (extension_congr fun j inside => ?_)
    rw [List.length_append, length_bitPoint, zero_add, List.length_reverse] at inside
    rw [getD_listed _ inside]

theorem lazyFoldedRa_agrees_two : ∃ state : LazyFoldedRa (ZMod 3),
    [(2 : ZMod 3)].foldlM bind (.lazy [[1, 2]] 1 ⟨1, 2, fun _ j => some (if j = 0 then some 1 else none)⟩) = some state ∧
      LazyAgrees state [⟨[1], 0, .inr rfl⟩] ∧ (2 = 2 ^ 1 → state.finalValues =
        some ([(⟨[2, 0], 1, .inr rfl⟩ : DensePolynomial (ZMod 3))].map fun column =>
          extension (fun j => column.evals.getD j 0) [2])) := by
  have written : denseColumns [[(1 : ZMod 3), 2]] ⟨1, 2, fun _ j => some (if j = 0 then some 1 else none)⟩ =
      some [⟨[2, 0], 1, .inr rfl⟩] := by
    simp [denseColumns, cell, lookupEntry, DensePolynomial.new, List.range_succ]
    rfl
  have bound : [(⟨[2, 0], 1, .inr rfl⟩ : DensePolynomial (ZMod 3))].mapM
      (fun column => [(2 : ZMod 3)].foldlM DensePolynomial.bindLowToHigh column) = some [⟨[1], 0, .inr rfl⟩] := rfl
  exact @lazyFoldedRa_agrees (ZMod 3) _ [[1, 2]] ⟨1, 2, fun _ j => some (if j = 0 then some 1 else none)⟩ _ rfl Nat.one_pos _
    written [2] _ bound

end LazyFoldedRa

end JoltWasm
