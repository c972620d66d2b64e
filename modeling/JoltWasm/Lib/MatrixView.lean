import JoltWasm.Lib.Extension
import JoltWasm.Lib.Loops
import JoltWasm.Lib.Scatter

/-!
# Vectors as matrices

The entries of a vector of `2 ^ n` entries, laid out row by row in a matrix with `2 ^ σ` columns; what a left
vector makes of the matrix; and the same for a vector that is given by its entries at some places.
-/

namespace JoltWasm.Lib

open Finset

variable {F : Type*} [CommRing F]

/-- The rows of the matrix. -/
def matrixRows (table : ℕ → F) (n σ : ℕ) : List (List F) := (List.range (2 ^ (n - σ))).map fun row =>
  (List.range (2 ^ σ)).map fun column => table (row * 2 ^ σ + column)

/-- The left vector times the matrix. -/
def matrixFold (table : ℕ → F) (n σ : ℕ) (left : List F) : List F := (List.range (2 ^ σ)).map fun column =>
  ∑ row ∈ range (2 ^ (n - σ)), left.getD row 0 * table (row * 2 ^ σ + column)

omit [CommRing F] in
@[simp] theorem length_matrixRows (table : ℕ → F) (n σ : ℕ) : (matrixRows table n σ).length = 2 ^ (n - σ) := by
  rw [matrixRows, List.length_map, List.length_range]

@[simp] theorem length_matrixFold (table : ℕ → F) (n σ : ℕ) (left : List F) :
    (matrixFold table n σ left).length = 2 ^ σ := by
  rw [matrixFold, List.length_map, List.length_range]

theorem getD_matrixFold (table : ℕ → F) (n : ℕ) {σ column : ℕ} (left : List F) (inside : column < 2 ^ σ) :
    (matrixFold table n σ left).getD column 0 =
      ∑ row ∈ range (2 ^ (n - σ)), left.getD row 0 * table (row * 2 ^ σ + column) := by
  rw [matrixFold, List.getD_eq_getElem _ _ (by rwa [List.length_map, List.length_range]), List.getElem_map,
    List.getElem_range]

theorem place_lt {n σ row column : ℕ} (fits : σ ≤ n) (inside : row < 2 ^ (n - σ)) (small : column < 2 ^ σ) :
    row * 2 ^ σ + column < 2 ^ n :=
  calc row * 2 ^ σ + column < row * 2 ^ σ + 2 ^ σ := by omega
    _ = (row + 1) * 2 ^ σ := (Nat.succ_mul _ _).symm
    _ ≤ 2 ^ (n - σ) * 2 ^ σ := Nat.mul_le_mul_right _ inside
    _ = 2 ^ n := by rw [← pow_add, Nat.sub_add_cancel fits]

omit [CommRing F] in
theorem matrixRows_congr {f g : ℕ → F} {n σ : ℕ} (fits : σ ≤ n) (same : ∀ place < 2 ^ n, f place = g place) :
    matrixRows f n σ = matrixRows g n σ :=
  List.map_congr_left fun _ row => List.map_congr_left fun _ column =>
    same _ (place_lt fits (List.mem_range.mp row) (List.mem_range.mp column))

theorem matrixFold_congr {f g : ℕ → F} {n σ : ℕ} (fits : σ ≤ n) (same : ∀ place < 2 ^ n, f place = g place)
    {left : List F} : matrixFold f n σ left = matrixFold g n σ left :=
  List.map_congr_left fun _ column => sum_congr rfl fun _ row => by
    rw [same _ (place_lt fits (mem_range.mp row) (List.mem_range.mp column))]

omit [CommRing F] in
/-- The rows, one after the other, are the vector. -/
theorem flatten_matrixRows (table : ℕ → F) {n σ : ℕ} (fits : σ ≤ n) :
    (matrixRows table n σ).flatten = (List.range (2 ^ n)).map table := by
  rw [matrixRows, ← List.flatMap_def, ← Nat.sub_add_cancel fits, pow_add, Nat.add_sub_cancel, range_blocks,
    List.map_flatMap]
  refine List.flatMap_congr fun row _ => ?_
  rw [List.map_map]
  rfl

/-- The value at a point: the weights of the high coordinates fold the matrix, and those of the low ones
weigh its columns. -/
theorem extension_eq_fold (table : ℕ → F) {high low : List F} {weights lowWeights : List F}
    (highTable : weights = (List.range (2 ^ high.length)).map (eqWeight high))
    (lowTable : lowWeights = (List.range (2 ^ low.length)).map (eqWeight low)) :
    (List.zipWith (· * ·) (matrixFold table (high.length + low.length) low.length weights) lowWeights).sum =
      extension table (high ++ low) := by
  have entry (point : List F) {k : ℕ} (inside : k < 2 ^ point.length) :
      ((List.range (2 ^ point.length)).map (eqWeight point)).getD k 0 = eqWeight point k := by
    rw [List.getD_eq_getElem _ _ (by rwa [List.length_map, List.length_range]), List.getElem_map, List.getElem_range]
  rw [sum_zipWith _ 0 0 (length_matrixFold _ _ _ _) (by rw [lowTable, List.length_map, List.length_range]),
    extension_append_eq_sum, sum_comm]
  refine sum_congr rfl fun column member => ?_
  have inside := mem_range.mp member
  rw [getD_matrixFold _ _ _ inside, Nat.add_sub_cancel, lowTable, entry low inside, sum_mul]
  refine sum_congr rfl fun row rowMember => ?_
  rw [highTable, entry high (mem_range.mp rowMember)]
  ring

/-! ## Vectors given by entries -/

theorem hits_filterMap {α : Type*} (entry : α → Option (ℕ × F)) (items : List α) (place : ℕ) :
    hits (items.filterMap entry) place =
      (items.map fun item => ((entry item).map fun e => if e.1 = place then e.2 else 0).getD 0).sum := by
  induction items with
  | nil => rfl
  | cons item items ih =>
    rw [List.map_cons, List.sum_cons, ← ih]
    cases is : entry item with
    | none => rw [List.filterMap_cons_none is, Option.map_none, Option.getD_none, zero_add]
    | some e => rw [List.filterMap_cons_some is, hits_cons, Option.map_some, Option.getD_some]

/-- At most one entry for each index of a range, at a place that tells the index. -/
theorem hits_range {T : ℕ} {entry : ℕ → Option (ℕ × F)} {back : ℕ → ℕ}
    (tells : ∀ r < T, ∀ e, entry r = some e → back e.1 = r) (place : ℕ) :
    hits ((List.range T).filterMap entry) place =
      if back place < T then ((entry (back place)).map fun e => if e.1 = place then e.2 else 0).getD 0 else 0 := by
  have other : ∀ r ∈ range T, ((entry r).map fun e => if e.1 = place then e.2 else 0).getD 0 =
      if back place = r then ((entry r).map fun e => if e.1 = place then e.2 else 0).getD 0 else 0 := by
    intro r member
    by_cases same : back place = r
    · rw [if_pos same]
    · rw [if_neg same]
      cases is : entry r with
      | none => rfl
      | some e =>
        have away : e.1 ≠ place := fun here => same (here ▸ tells r (mem_range.mp member) e is)
        rw [Option.map_some, Option.getD_some, if_neg away]
  rw [hits_filterMap]
  change ∑ r ∈ range T, ((entry r).map fun e => if e.1 = place then e.2 else 0).getD 0 = _
  rw [sum_congr rfl other, sum_ite_eq]
  exact if_congr mem_range rfl rfl

omit [CommRing F] in
theorem nodup_range {T : ℕ} {entry : ℕ → Option (ℕ × F)} (back : ℕ → ℕ)
    (tells : ∀ r < T, ∀ e, entry r = some e → back e.1 = r) :
    (((List.range T).filterMap entry).map Prod.fst).Nodup := by
  rw [List.map_filterMap]
  refine List.pairwise_filterMap.mpr (List.nodup_range.imp_of_mem fun {r r'} member member' different => ?_)
  rintro _ place _ place' rfl
  obtain ⟨e, is, rfl⟩ := Option.map_eq_some_iff.mp place
  obtain ⟨e', is', same⟩ := Option.map_eq_some_iff.mp place'
  refine different ?_
  rw [← tells r (List.mem_range.mp member) e is, ← tells r' (List.mem_range.mp member') e' is', same]

/-- The entries against the weights of their places. -/
theorem sum_entries {entries : List (ℕ × F)} {point : List F} (inside : ∀ entry ∈ entries, entry.1 < 2 ^ point.length) :
    (entries.map fun entry => entry.2 * eqWeight point entry.1).sum = extension (hits entries) point :=
  (sum_hits inside _).symm

/-- Where one entry goes when its row is folded away. -/
theorem fold_entry {n σ : ℕ} (fits : σ ≤ n) {place column : ℕ} (inside : place < 2 ^ n) (small : column < 2 ^ σ)
    (value : F) (weight : ℕ → F) :
    ∑ row ∈ range (2 ^ (n - σ)), weight row * (if place = row * 2 ^ σ + column then value else 0) =
      if place % 2 ^ σ = column then weight (place / 2 ^ σ) * value else 0 := by
  have row : place / 2 ^ σ < 2 ^ (n - σ) := by
    rw [Nat.div_lt_iff_lt_mul (Nat.two_pow_pos σ), ← pow_add, Nat.sub_add_cancel fits]
    exact inside
  have whole := Nat.div_add_mod place (2 ^ σ)
  have split (r : ℕ) : place = r * 2 ^ σ + column ↔ place % 2 ^ σ = column ∧ place / 2 ^ σ = r := by
    constructor
    · rintro rfl
      rw [Nat.mul_comm, Nat.mul_add_mod, Nat.mul_add_div (Nat.two_pow_pos σ), Nat.mod_eq_of_lt small,
        Nat.div_eq_of_lt small, Nat.add_zero]
      exact ⟨rfl, rfl⟩
    · rintro ⟨rfl, rfl⟩
      rw [Nat.mul_comm, whole]
  simp only [split, mul_ite, mul_zero, ite_and]
  split_ifs with same
  · rw [sum_ite_eq, if_pos (mem_range.mpr row)]
  · exact sum_const_zero

/-- Every entry, added at its column with the weight of its row. -/
theorem scatter_matrix {n σ : ℕ} (fits : σ ≤ n) {entries : List (ℕ × F)} (inside : ∀ entry ∈ entries, entry.1 < 2 ^ n)
    (left : List F) :
    scatter (List.replicate (2 ^ σ) 0)
        (entries.map fun entry => (entry.1 % 2 ^ σ, left.getD (entry.1 / 2 ^ σ) 0 * entry.2)) =
      matrixFold (hits entries) n σ left := by
  refine List.ext_getElem (by simp) fun column below below' => ?_
  have small : column < 2 ^ σ := by simpa using below
  rw [← List.getD_eq_getElem _ 0, ← List.getD_eq_getElem _ 0, getD_scatter_zero _ _ small, getD_matrixFold _ _ _ small]
  clear below below'
  induction entries with
  | nil => simp
  | cons entry entries ih =>
    have later := ih fun other member => inside other (List.mem_cons_of_mem _ member)
    simp only [List.map_cons, hits_cons, mul_add, sum_add_distrib]
    rw [fold_entry fits (inside entry List.mem_cons_self) small, later]

/-- Entries of different places, set in a vector that is zero there. -/
theorem getD_foldl_set {entries : List (ℕ × F)} (distinct : (entries.map Prod.fst).Nodup) {base : ℕ} {buffer : List F}
    (inside : ∀ entry ∈ entries, base ≤ entry.1 ∧ entry.1 - base < buffer.length)
    (zero : ∀ entry ∈ entries, buffer.getD (entry.1 - base) 0 = 0) (column : ℕ) :
    (entries.foldl (fun buffer entry => buffer.set (entry.1 - base) entry.2) buffer).getD column 0 =
      buffer.getD column 0 + hits entries (base + column) := by
  induction entries generalizing buffer with
  | nil => simp
  | cons entry entries ih =>
    rw [List.map_cons, List.nodup_cons] at distinct
    obtain ⟨low, below⟩ := inside entry List.mem_cons_self
    have set (k : ℕ) : (buffer.set (entry.1 - base) entry.2).getD k 0 =
        if entry.1 = base + k then entry.2 else buffer.getD k 0 := by
      rw [List.getD_eq_getElem?_getD, List.getD_eq_getElem?_getD]
      by_cases here : entry.1 = base + k
      · have place : entry.1 - base = k := by omega
        rw [if_pos here, place, List.getElem?_set_self (by omega), Option.getD_some]
      · rw [if_neg here, List.getElem?_set_ne (by omega)]
    have others : ∀ other ∈ entries, other.1 ≠ entry.1 := fun other member same =>
      distinct.1 (List.mem_map.mpr ⟨other, member, same⟩)
    rw [List.foldl_cons, ih distinct.2
      (fun other member => by
        rw [List.length_set]
        exact inside other (List.mem_cons_of_mem _ member))
      (fun other member => by
        have bounds := inside other (List.mem_cons_of_mem _ member)
        have different := others other member
        rw [set, if_neg (by omega)]
        exact zero other (List.mem_cons_of_mem _ member)), set, hits_cons]
    split_ifs with here
    · rw [hits_eq_zero fun other member same => others other member (by omega), add_zero]
      have start := zero entry List.mem_cons_self
      rw [show entry.1 - base = column by omega] at start
      rw [start, zero_add]
    · rw [zero_add]

theorem hits_filter {kept : ℕ × F → Bool} {entries : List (ℕ × F)} {place : ℕ}
    (here : ∀ entry ∈ entries, entry.1 = place → kept entry = true) :
    hits (entries.filter kept) place = hits entries place := by
  induction entries with
  | nil => rfl
  | cons entry entries ih =>
    have later := ih fun other member => here other (List.mem_cons_of_mem _ member)
    cases keep : kept entry with
    | true => rw [List.filter_cons_of_pos keep, hits_cons, hits_cons, later]
    | false =>
      have away : entry.1 ≠ place := fun same => by
        rw [here entry List.mem_cons_self same] at keep
        cases keep
      rw [List.filter_cons_of_neg (by rw [keep]; decide), hits_cons, if_neg away, zero_add, later]

/-- A row of the matrix, from the entries that belong to it. -/
theorem foldl_set_row {entries : List (ℕ × F)} (distinct : (entries.map Prod.fst).Nodup) (σ row : ℕ) :
    (entries.filter fun entry => entry.1 / 2 ^ σ = row).foldl
        (fun buffer entry => buffer.set (entry.1 - row * 2 ^ σ) entry.2) (List.replicate (2 ^ σ) 0) =
      (List.range (2 ^ σ)).map fun column => hits entries (row * 2 ^ σ + column) := by
  have positive := Nat.two_pow_pos σ
  have belongs : ∀ entry ∈ entries.filter fun entry => entry.1 / 2 ^ σ = row,
      row * 2 ^ σ ≤ entry.1 ∧ entry.1 - row * 2 ^ σ < (List.replicate (2 ^ σ) (0 : F)).length := by
    intro entry member
    have quotient := of_decide_eq_true (List.mem_filter.mp member).2
    have whole := Nat.div_add_mod entry.1 (2 ^ σ)
    have rest := Nat.mod_lt entry.1 positive
    rw [quotient, Nat.mul_comm] at whole
    rw [List.length_replicate]
    omega
  have sublist : ((entries.filter fun entry => entry.1 / 2 ^ σ = row).map Prod.fst).Nodup :=
    distinct.sublist (List.filter_sublist.map _)
  refine List.ext_getElem ?_ fun column below below' => ?_
  · have length (l : List (ℕ × F)) (buffer : List F) : (l.foldl (fun buffer entry =>
        buffer.set (entry.1 - row * 2 ^ σ) entry.2) buffer).length = buffer.length := by
      induction l generalizing buffer with
      | nil => rfl
      | cons entry l ih => rw [List.foldl_cons, ih, List.length_set]
    rw [length, List.length_replicate, List.length_map, List.length_range]
  · have small : column < 2 ^ σ := by simpa using below'
    have zero (k : ℕ) : (List.replicate (2 ^ σ) (0 : F)).getD k 0 = 0 := by
      rcases Nat.lt_or_ge k (2 ^ σ) with inside | outside
      · exact List.getD_replicate _ inside
      · exact List.getD_eq_default _ _ (by rwa [List.length_replicate])
    rw [← List.getD_eq_getElem _ 0, getD_foldl_set sublist belongs (fun _ _ => zero _), zero, zero_add,
      List.getElem_map, List.getElem_range, hits_filter fun entry _ here => decide_eq_true ?_]
    rw [here, Nat.mul_comm, Nat.mul_add_div positive, Nat.div_eq_of_lt small, Nat.add_zero]

end JoltWasm.Lib
