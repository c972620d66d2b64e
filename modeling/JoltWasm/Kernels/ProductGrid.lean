import JoltWasm.Kernels.RaChunks
import JoltWasm.Kernels.SplitRounds

/-!
# Product grids

A sum of products of linear factors is sampled at `1, 2, ...` and in its leading coefficient.  The products go to
accumulators that are reduced once for each row, once for each block and once at the end.
-/

namespace JoltWasm

open Lib Mont Finset

open SpartanProduct (Scalar)

open GruenSplitEqPolynomial (LowBound)

theorem distinctNodes_of_le {n : ℕ} (few : n ≤ Mont.order) : UnivariatePoly.DistinctNodes Scalar n :=
  fun i inside j inside' same => by
    have remainders := (ZMod.natCast_eq_natCast_iff' i j Mont.order).mp same
    rwa [Nat.mod_eq_of_lt (inside.trans_le few), Nat.mod_eq_of_lt (inside'.trans_le few)] at remainders

/-- `chunks_exact(size)`; what is left over is dropped. -/
def chunksExact {α : Type} (size : ℕ) (l : List α) : List (List α) :=
  (List.range (l.length / size)).map fun index => (l.drop (index * size)).take size

section

variable (ark : ArkFr)

/-- `accumulate_product`, which panics on fewer than two factors. -/
def accumulateProduct (factors : List Scalar) (lane : Slots) : Option Slots :=
  match factors with
  | first :: second :: rest =>
      let product := (second :: rest).dropLast.foldl (· * ·) first
      some (fmadd ark lane product ((second :: rest).getLast (List.cons_ne_nil second rest)))
  | _ => none

/-- The factors move on by their steps before each of these lanes. -/
def accumulateAlong (steps : List Scalar) : List Scalar → List Slots → Option (List Slots)
  | _, [] => some []
  | evals, lane :: lanes => do
      let evals := List.zipWith (· + ·) evals steps
      let lane ← accumulateProduct ark evals lane
      return lane :: (← accumulateAlong steps evals lanes)

/-- `accumulate_product_grid`, which panics on fewer than two lanes. -/
def accumulateProductGrid (evals steps : List Scalar) (lanes : List Slots) : Option (List Slots) :=
  match lanes with
  | first :: second :: rest => do
      let first ← accumulateProduct ark evals first
      let middle ← accumulateAlong ark steps evals (second :: rest).dropLast
      let last ← accumulateProduct ark steps ((second :: rest).getLast (List.cons_ne_nil second rest))
      return first :: middle ++ [last]
  | _ => none

/-- The lanes of one row, reduced. -/
def rowLanes (n : ℕ) (pairs : List (Scalar × Scalar)) : Option (List Scalar) := do
  let lanes ← (chunksExact n pairs).foldlM
    (fun lanes batch => accumulateProductGrid ark (batch.map Prod.snd) (batch.map fun pair => pair.2 - pair.1) lanes)
    (List.replicate n (WideAccumulator.accumulator ark).default)
  lanes.mapM (WideAccumulator.result ark)

/-- The lanes of the rows so far, and one more. -/
def gridStep (foldedRa : LazyFoldedRa Scalar) (n : ℕ) (scratch : Option (List Slots)) (row : ℕ) (eIn : Scalar) :
    Option (List Slots) := do
  let pairs ← foldedRa.loHiAll row
  return List.zipWith (fmadd ark · eIn ·) (← scratch) (← rowLanes ark n pairs)

/-- The lanes of a block, reduced and accumulated again. -/
def gridBlock (n : ℕ) (eOut : Scalar) (scratch : Option (List Slots)) : Option (List Slots) := do
  let lanes ← (← scratch).mapM (WideAccumulator.result ark)
  return List.zipWith (fmadd ark · eOut ·) (List.replicate n (WideAccumulator.accumulator ark).default) lanes

def gridMerge (a b : Option (List Slots)) : Option (List Slots) := do
  return List.zipWith (WideAccumulator.accumulator ark).merge (← a) (← b)

/-- The lanes of all rows, under the weights. -/
def gridQEvals (gruen : GruenSplitEqPolynomial Scalar) (foldedRa : LazyFoldedRa Scalar) (n : ℕ) : Option (List Scalar) := do
  let blockLanes ← gruen.parFoldOutIn (some (List.replicate n (WideAccumulator.accumulator ark).default))
    (fun scratch row _ eIn => gridStep ark foldedRa n scratch row eIn) (fun _ eOut scratch => gridBlock ark n eOut scratch)
    (gridMerge ark)
  blockLanes.mapM (WideAccumulator.result ark)

/-! ## One product -/

/-- The product of all factors but the last, and the last. -/
def productPair (factors : List Scalar) : Scalar × Scalar := (factors.dropLast.prod, factors.getLastD 1)

theorem productPair_mul {factors : List Scalar} (some_ : factors ≠ []) :
    (productPair factors).1 * (productPair factors).2 = factors.prod := by
  have last : factors.getLastD 1 = factors.getLast some_ := by
    rw [List.getLastD_eq_getLast?, List.getLast?_eq_getLast_of_ne_nil some_, Option.getD_some]
  change factors.dropLast.prod * factors.getLastD 1 = _
  rw [last, ← List.prod_concat, List.concat_eq_append, List.dropLast_concat_getLast]

theorem accumulateProduct_eq {factors : List Scalar} (several : 2 ≤ factors.length) (lane : Slots) :
    accumulateProduct ark factors lane = some (fmadd ark lane (productPair factors).1 (productPair factors).2) := by
  match factors, several with
  | first :: second :: rest, _ =>
      have product : (second :: rest).dropLast.foldl (· * ·) first = (first :: second :: rest).dropLast.prod := by
        rw [List.dropLast_cons_of_ne_nil (List.cons_ne_nil second rest), List.prod_eq_foldl, List.foldl_cons, one_mul]
      have last : (second :: rest).getLast (List.cons_ne_nil second rest) = (first :: second :: rest).getLastD 1 := by
        rw [List.getLastD_eq_getLast?, List.getLast?_cons_cons, List.getLast?_eq_getLast_of_ne_nil (List.cons_ne_nil second rest),
          Option.getD_some]
      rw [accumulateProduct]
      exact congrArg some (congrArg₂ (fmadd ark lane) product last)

/-! ## One row -/

section

variable {ι : Type} (columns : List ι) (lo hi : ι → Scalar)

/-- The factors of a lane: at the next node, or in the leading coefficient. -/
def gridFactors (n t : ℕ) : List Scalar :=
  if t + 1 = n then columns.map fun i => hi i - lo i else columns.map fun i => hi i + t * (hi i - lo i)

theorem length_gridFactors (n t : ℕ) : (gridFactors columns lo hi n t).length = columns.length := by
  rw [gridFactors]
  split_ifs <;> exact List.length_map _

variable {columns}

theorem accumulateAlong_eq (several : 2 ≤ columns.length) (evals steps : ι → Scalar) (count : ℕ) (lanes : ℕ → Slots) :
    accumulateAlong ark (columns.map steps) (columns.map evals) ((List.range count).map lanes) =
      some ((List.range count).map fun t : ℕ =>
        let factors := columns.map fun i => evals i + (t + 1) * steps i
        fmadd ark (lanes t) (productPair factors).1 (productPair factors).2) := by
  induction count generalizing evals lanes with
  | zero => rfl
  | succ count ih =>
      have stepped : List.zipWith (· + ·) (columns.map evals) (columns.map steps) = columns.map fun i => evals i + steps i := by
        rw [List.zipWith_map, List.zipWith_self]
      rw [List.range_succ_eq_map, List.map_cons, List.map_map, accumulateAlong, stepped,
        accumulateProduct_eq ark (by rwa [List.length_map]), Option.bind_eq_bind, Option.bind_some, ih]
      simp only [Option.bind_eq_bind, Option.bind_some, Option.pure_def, Nat.cast_zero, zero_add, one_mul, List.map_cons,
        List.map_map]
      refine congrArg (fun rest => some (_ :: rest)) (List.map_congr_left fun t _ => ?_)
      have factors : (columns.map fun i => evals i + steps i + ((t : ℕ) + 1) * steps i) =
          columns.map fun i => evals i + (((t + 1 : ℕ) : Scalar) + 1) * steps i :=
        List.map_congr_left fun i _ => by
          push_cast
          ring
      simp only [Function.comp_apply, Nat.succ_eq_add_one, factors]

theorem accumulateProductGrid_ends (evals steps : List Scalar) (first last : Slots) (lanes : List Slots) :
    accumulateProductGrid ark evals steps (first :: (lanes ++ [last])) = do
      let first ← accumulateProduct ark evals first
      let middle ← accumulateAlong ark steps evals lanes
      let last ← accumulateProduct ark steps last
      return first :: middle ++ [last] := by
  cases lanes with
  | nil => rfl
  | cons second rest =>
      rw [List.cons_append, accumulateProductGrid]
      simp only [← List.cons_append, List.dropLast_concat, List.getLast_concat]

/-- One call for each lane. -/
theorem accumulateProductGrid_eq {n : ℕ} (width : columns.length = n) (several : 2 ≤ n) (lanes : ℕ → Slots) :
    accumulateProductGrid ark (columns.map hi) (columns.map fun i => hi i - lo i) ((List.range n).map lanes) =
      some ((List.range n).map fun t =>
        fmadd ark (lanes t) (productPair (gridFactors columns lo hi n t)).1 (productPair (gridFactors columns lo hi n t)).2) := by
  obtain ⟨k, rfl⟩ : ∃ k, n = k + 2 := ⟨n - 2, by omega⟩
  have first : gridFactors columns lo hi (k + 2) 0 = columns.map hi := by
    rw [gridFactors, if_neg (by omega)]
    exact List.map_congr_left fun i _ => by rw [Nat.cast_zero, zero_mul, add_zero]
  have middle (t : ℕ) (inside : t ∈ List.range k) : gridFactors columns lo hi (k + 2) (t + 1) =
      columns.map fun i => hi i + ((t : ℕ) + 1) * (hi i - lo i) := by
    have := List.mem_range.mp inside
    rw [gridFactors, if_neg (by omega)]
    exact List.map_congr_left fun i _ => by rw [Nat.cast_add, Nat.cast_one]
  have last : gridFactors columns lo hi (k + 2) (k + 1) = columns.map fun i => hi i - lo i := if_pos rfl
  have split {α : Type} (f : ℕ → α) :
      (List.range (k + 2)).map f = f 0 :: ((List.range k).map (fun t => f (t + 1)) ++ [f (k + 1)]) := by
    rw [List.range_succ_eq_map, List.map_cons, List.map_map, List.range_succ, List.map_append, List.map_singleton]
    rfl
  have along := accumulateAlong_eq ark (by omega : 2 ≤ columns.length) hi (fun i => hi i - lo i) k fun t => lanes (t + 1)
  rw [split, accumulateProductGrid_ends, accumulateProduct_eq ark (by rw [List.length_map]; omega), along,
    accumulateProduct_eq ark (by rw [List.length_map]; omega), split, first, last]
  simp only [Option.bind_eq_bind, Option.bind_some, Option.pure_def, List.cons_append]
  refine congrArg (fun rest => some (_ :: (rest ++ _))) (List.map_congr_left fun t inside => ?_)
  rw [middle t inside]

end

/-! ## The batches of a row -/

/-- The histories of the lanes, of at most `count` calls each. -/
def LanesHold (n count : ℕ) (lanes : List Slots) (values : ℕ → Scalar) : Prop :=
  ∃ histories : ℕ → History, lanes = (List.range n).map (fun t => (histories t).run (WideAccumulator.accumulator ark)) ∧
    ∀ t, (histories t).value = values t ∧ (histories t).terms ≤ count

variable {ark} {n : ℕ}

theorem lanesHold_default : LanesHold ark n 0 (List.replicate n (WideAccumulator.accumulator ark).default) 0 :=
  ⟨fun _ => .default, by rw [List.map_const', List.length_range]; rfl, fun _ => ⟨rfl, le_rfl⟩⟩

/-- A call on every lane. -/
theorem LanesHold.fmadd {count : ℕ} {lanes : List Slots} {values : ℕ → Scalar} (holds : LanesHold ark n count lanes values)
    (a b : ℕ → Scalar) : ∃ states : ℕ → Slots, lanes = (List.range n).map states ∧
      LanesHold ark n (count + 1) ((List.range n).map fun t => JoltWasm.fmadd ark (states t) (a t) (b t))
        fun t => values t + a t * b t := by
  obtain ⟨histories, rfl, each⟩ := holds
  refine ⟨_, rfl, fun t => .op (histories t) (.fmadd (.ofValue (a t)) (.ofValue (b t))), rfl, fun t => ?_⟩
  rw [History.value, Op.value, Fr.value_ofValue, Fr.value_ofValue, (each t).1, History.terms]
  exact ⟨rfl, Nat.succ_le_succ (each t).2⟩

theorem LanesHold.merge {count count' : ℕ} {lanes lanes' : List Slots} {values values' : ℕ → Scalar}
    (holds : LanesHold ark n count lanes values) (holds' : LanesHold ark n count' lanes' values') :
    LanesHold ark n (count + count') (List.zipWith (WideAccumulator.accumulator ark).merge lanes lanes') (values + values') := by
  obtain ⟨histories, rfl, each⟩ := holds
  obtain ⟨histories', rfl, each'⟩ := holds'
  refine ⟨fun t => .merge (histories t) (histories' t), ?_, fun t => ?_⟩
  · rw [List.zipWith_map, List.zipWith_self]
    rfl
  · rw [History.value, History.terms, (each t).1, (each' t).1]
    exact ⟨rfl, Nat.add_le_add (each t).2 (each' t).2⟩

/-- Lanes with room are reduced exactly. -/
theorem LanesHold.result {count : ℕ} {lanes : List Slots} {values : ℕ → Scalar} (holds : LanesHold ark n count lanes values)
    (few : count ≤ 2 ^ 61) : lanes.mapM (WideAccumulator.result ark) = some ((List.range n).map values) := by
  obtain ⟨histories, rfl, each⟩ := holds
  rw [List.mapM_map]
  refine UnivariatePoly.mapM_some fun t _ => ?_
  obtain ⟨⟨kept, exact_⟩, -⟩ := wideSums_exact ark (histories t) ((each t).2.trans few)
  rw [Function.comp_apply, WideAccumulator.result, kept, if_neg (by decide), ← (each t).1]
  exact congrArg some exact_.element_eq

theorem chunksExact_range {α : Type} (batches : ℕ) (positive : 0 < n) (f : ℕ → α) :
    chunksExact n ((List.range (batches * n)).map f) =
      (List.range batches).map fun b => (List.range n).map fun i => f (b * n + i) := by
  rw [chunksExact, List.length_map, List.length_range, Nat.mul_div_cancel _ positive]
  refine List.map_congr_left fun b member => ?_
  have room : (b + 1) * n ≤ batches * n := Nat.mul_le_mul_right _ (List.mem_range.mp member)
  rw [Nat.succ_mul] at room
  refine List.ext_getElem ?_ fun i _ _ => ?_
  · rw [List.length_take, List.length_drop, List.length_map, List.length_map, List.length_range, List.length_range]
    omega
  · simp only [List.getElem_take, List.getElem_drop, List.getElem_map, List.getElem_range]

/-- The product of a batch at a lane. -/
def batchProduct (n : ℕ) (lo hi : ℕ → Scalar) (t b : ℕ) : Scalar :=
  (gridFactors (List.range n) (fun i => lo (b * n + i)) (fun i => hi (b * n + i)) n t).prod

/-- The lanes of a row: one call for each batch. -/
theorem rowLanes_eq (several : 2 ≤ n) {batches : ℕ} (few : batches ≤ 2 ^ 61) (lo hi : ℕ → Scalar) :
    rowLanes ark n ((List.range (batches * n)).map fun i => (lo i, hi i)) =
      some ((List.range n).map fun t => ∑ b ∈ range batches, batchProduct n lo hi t b) := by
  have walk : ∃ lanes, ((List.range batches).map fun b => (List.range n).map fun i => (lo (b * n + i), hi (b * n + i))).foldlM
      (fun lanes batch => accumulateProductGrid ark (batch.map Prod.snd) (batch.map fun pair => pair.2 - pair.1) lanes)
      (List.replicate n (WideAccumulator.accumulator ark).default) = some lanes ∧
      LanesHold ark n batches lanes fun t => ∑ b ∈ range batches, batchProduct n lo hi t b := by
    clear few
    induction batches with
    | zero => exact ⟨_, rfl, lanesHold_default⟩
    | succ batches ih =>
        obtain ⟨lanes, ran, holds⟩ := ih
        let factors (t : ℕ) := gridFactors (List.range n) (fun i => lo (batches * n + i)) (fun i => hi (batches * n + i)) n t
        obtain ⟨states, rfl, next⟩ := holds.fmadd (fun t => (productPair (factors t)).1) fun t => (productPair (factors t)).2
        have grid := accumulateProductGrid_eq ark (fun i => lo (batches * n + i)) (fun i => hi (batches * n + i))
          (List.length_range : (List.range n).length = n) several states
        have values : (fun t => ∑ b ∈ range batches, batchProduct n lo hi t b +
            (productPair (factors t)).1 * (productPair (factors t)).2) =
            fun t => ∑ b ∈ range (batches + 1), batchProduct n lo hi t b := funext fun t => by
          have some_ : factors t ≠ [] := List.ne_nil_of_length_pos (by
            rw [length_gridFactors, List.length_range]
            omega)
          rw [sum_range_succ, productPair_mul some_, batchProduct]
        refine ⟨_, ?_, values ▸ next⟩
        rw [List.range_succ, List.map_append, List.foldlM_append, ran, Option.bind_eq_bind, Option.bind_some,
          List.map_singleton, List.foldlM_cons, List.map_map, List.map_map]
        exact (congrArg (· >>= fun lanes => pure lanes) grid).trans rfl
  obtain ⟨lanes, ran, holds⟩ := walk
  rw [rowLanes, chunksExact_range batches (by omega), ran, Option.bind_eq_bind, Option.bind_some, holds.result few]

/-- A row more. -/
theorem LanesHold.gridStep {count : ℕ} {lanes : List Slots} {values value : ℕ → Scalar} (holds : LanesHold ark n count lanes values)
    {foldedRa : LazyFoldedRa Scalar} {row : ℕ} {pairs : List (Scalar × Scalar)} (read : foldedRa.loHiAll row = some pairs)
    (reduced : rowLanes ark n pairs = some ((List.range n).map value)) (eIn : Scalar) :
    ∃ next, JoltWasm.gridStep ark foldedRa n (some lanes) row eIn = some next ∧
      LanesHold ark n (count + 1) next fun t => values t + eIn * value t := by
  obtain ⟨states, rfl, next⟩ := holds.fmadd (fun _ => eIn) value
  refine ⟨_, ?_, next⟩
  rw [JoltWasm.gridStep, read]
  simp only [Option.bind_eq_bind, Option.bind_some, reduced, Option.pure_def]
  rw [List.zipWith_map, List.zipWith_self]

/-- A block is one call for each lane. -/
theorem LanesHold.gridBlock {count : ℕ} {lanes : List Slots} {values : ℕ → Scalar} (holds : LanesHold ark n count lanes values)
    (few : count ≤ 2 ^ 61) (eOut : Scalar) : ∃ block, JoltWasm.gridBlock ark n eOut (some lanes) = some block ∧
      LanesHold ark n 1 block (eOut • values) := by
  obtain ⟨states, start, block⟩ := (@lanesHold_default ark n).fmadd (fun _ => eOut) values
  refine ⟨_, ?_, cast (congrArg (LanesHold ark n 1 _) (funext fun t => zero_add _)) block⟩
  rw [JoltWasm.gridBlock, Option.bind_eq_bind, Option.bind_some, holds.result few, Option.bind_eq_bind, Option.bind_some, start,
    List.zipWith_map, List.zipWith_self]
  rfl

/-- All rows, under the weights. -/
theorem gridQEvals_eq (several : 2 ≤ n) {gruen : GruenSplitEqPolynomial Scalar} {w : List Scalar} {m : ℕ} {scale : Scalar}
    (bound : LowBound gruen w (m + 1) scale) (rows : 2 ^ m ≤ 2 ^ 61) {foldedRa : LazyFoldedRa Scalar} {batches : ℕ}
    (few : batches ≤ 2 ^ 61) (lo hi : ℕ → ℕ → Scalar) (pairs : ∀ row < 2 ^ m, foldedRa.loHiAll row =
      some ((List.range (batches * n)).map fun i => (lo i row, hi i row))) :
    gridQEvals ark gruen foldedRa n = some ((List.range n).map fun t => ∑ j ∈ range (2 ^ m), eqWeight (w.take m) j *
      ∑ b ∈ range batches, batchProduct n (lo · j) (hi · j) t b) := by
  let value (row t : ℕ) : Scalar := ∑ b ∈ range batches, batchProduct n (lo · row) (hi · row) t b
  let Holds (count : ℕ) (outer : Option (List Slots)) (sums : ℕ → Scalar) : Prop :=
    ∃ lanes, outer = some lanes ∧ LanesHold ark n count lanes sums
  have block : ∀ outer inner, w.take m = outer ++ inner → ∀ xOut < 2 ^ outer.length, ∀ eOut,
      Holds 1 (gridBlock ark n eOut ((List.range (2 ^ inner.length)).foldl
          (fun scratch xIn => gridStep ark foldedRa n scratch (xOut * 2 ^ inner.length + xIn) (eqWeight inner xIn))
          (some (List.replicate n (WideAccumulator.accumulator ark).default))))
        (eOut • ∑ xIn ∈ range (2 ^ inner.length), eqWeight inner xIn • value (xOut * 2 ^ inner.length + xIn)) := by
    intro outer inner whole xOut below eOut
    have length : outer.length + inner.length = m := by
      have := bound.inside
      rw [← List.length_append, ← whole, List.length_take]
      omega
    have walk (count : ℕ) (inside : count ≤ 2 ^ inner.length) : Holds count ((List.range count).foldl
        (fun scratch xIn => gridStep ark foldedRa n scratch (xOut * 2 ^ inner.length + xIn) (eqWeight inner xIn))
        (some (List.replicate n (WideAccumulator.accumulator ark).default)))
        (∑ xIn ∈ range count, eqWeight inner xIn • value (xOut * 2 ^ inner.length + xIn)) := by
      induction count with
      | zero => exact ⟨_, rfl, lanesHold_default⟩
      | succ count ih =>
          obtain ⟨lanes, ran, holds⟩ := ih (Nat.le_of_succ_le inside)
          have row : xOut * 2 ^ inner.length + count < 2 ^ m := length ▸ GruenSplitEqPolynomial.index_lt below inside
          obtain ⟨next, stepped, holds⟩ := holds.gridStep (pairs _ row) (rowLanes_eq several few _ _) (eqWeight inner count)
          rw [List.range_succ, List.foldl_append, ran, List.foldl_cons, List.foldl_nil, stepped, sum_range_succ]
          exact ⟨_, rfl, holds⟩
    obtain ⟨lanes, ran, holds⟩ := walk _ le_rfl
    have room : 2 ^ inner.length ≤ 2 ^ 61 := (Nat.pow_le_pow_right two_pos (length ▸ Nat.le_add_left _ _)).trans rows
    rw [ran]
    exact holds.gridBlock room eOut
  have merges {a b : ℕ} {x y : Option (List Slots)} {u v : ℕ → Scalar} :
      Holds a x u → Holds b y v → Holds (a + b) (gridMerge ark x y) (u + v) := by
    rintro ⟨lanes, rfl, holds⟩ ⟨lanes', rfl, holds'⟩
    exact ⟨_, rfl, holds.merge holds'⟩
  obtain ⟨blocks, most, lanes, folded, holds⟩ : ∃ blocks ≤ 2 ^ m, Holds blocks
      (gruen.parFoldOutIn (some (List.replicate n (WideAccumulator.accumulator ark).default))
        (fun scratch row _ eIn => gridStep ark foldedRa n scratch row eIn) (fun _ eOut scratch => gridBlock ark n eOut scratch)
        (gridMerge ark))
      (∑ j ∈ range (2 ^ m), eqWeight (w.take m) j • value j) := bound.parFoldOutIn_holds Holds value block merges
  rw [gridQEvals, folded, Option.bind_eq_bind, Option.bind_some, holds.result (most.trans rows)]
  refine congrArg some (List.map_congr_left fun t _ => ?_)
  rw [Finset.sum_apply]
  exact sum_congr rfl fun j _ => rfl

/-! ## The polynomial of the samples -/

open Polynomial in
/-- The weighted sum of the products along the current variable. -/
noncomputable def gridPolynomial (n batches m : ℕ) (weight : ℕ → Scalar) (lo hi : ℕ → ℕ → Scalar) : Scalar[X] :=
  ∑ j ∈ range (2 ^ m), C (weight j) * ∑ b ∈ range batches, ∏ i ∈ range n,
    GruenSplitEqPolynomial.linear (lo (b * n + i) j, hi (b * n + i) j)

section

open Polynomial GruenSplitEqPolynomial

theorem natDegree_linear (l : Scalar × Scalar) : (linear l).natDegree ≤ 1 := by
  rw [linear]
  compute_degree

theorem coeff_linear (l : Scalar × Scalar) : (linear l).coeff 1 = l.2 - l.1 := by
  rw [linear]
  simp

variable (m batches : ℕ) (weight : ℕ → Scalar) (lo hi : ℕ → ℕ → Scalar)

theorem natDegree_gridPolynomial : (gridPolynomial n batches m weight lo hi).natDegree ≤ n := by
  refine natDegree_sum_le_of_forall_le _ _ fun j _ => (natDegree_C_mul_le _ _).trans ?_
  refine natDegree_sum_le_of_forall_le _ _ fun b _ => (natDegree_prod_le _ _).trans ?_
  refine (sum_le_card_nsmul _ _ 1 fun i _ => natDegree_linear _).trans ?_
  rw [card_range, smul_eq_mul, mul_one]

theorem eval_gridPolynomial (t : Scalar) : (gridPolynomial n batches m weight lo hi).eval t =
    ∑ j ∈ range (2 ^ m), weight j * ∑ b ∈ range batches, ∏ i ∈ range n,
      (lo (b * n + i) j + (hi (b * n + i) j - lo (b * n + i) j) * t) := by
  simp only [gridPolynomial, eval_finsetSum, eval_mul, eval_C, eval_prod, eval_linear]

theorem coeff_gridPolynomial : (gridPolynomial n batches m weight lo hi).coeff n =
    ∑ j ∈ range (2 ^ m), weight j * ∑ b ∈ range batches, ∏ i ∈ range n, (hi (b * n + i) j - lo (b * n + i) j) := by
  have product (b j : ℕ) : (∏ i ∈ range n, linear (lo (b * n + i) j, hi (b * n + i) j)).coeff n =
      ∏ i ∈ range n, (hi (b * n + i) j - lo (b * n + i) j) := by
    have top := coeff_prod_of_natDegree_le (range n) (fun i => linear (lo (b * n + i) j, hi (b * n + i) j)) 1
      fun i _ => natDegree_linear _
    rw [card_range, mul_one] at top
    rw [top]
    exact prod_congr rfl fun i _ => coeff_linear _
  simp only [gridPolynomial, finsetSum_coeff, coeff_C_mul, product]

/-- The lanes are the values at `1, ..., n - 1` and the leading coefficient. -/
theorem lanes_gridPolynomial (several : 2 ≤ n) : ((List.range n).map fun t => ∑ j ∈ range (2 ^ m), weight j *
      ∑ b ∈ range batches, batchProduct n (lo · j) (hi · j) t b) =
    (List.range (n - 1)).map (fun i => (gridPolynomial n batches m weight lo hi).eval ((i + 1 : ℕ) : Scalar)) ++
      [(gridPolynomial n batches m weight lo hi).coeff n] := by
  obtain ⟨k, rfl⟩ : ∃ k, n = k + 1 := ⟨n - 1, by omega⟩
  have product (f : ℕ → Scalar) : ((List.range (k + 1)).map f).prod = ∏ i ∈ range (k + 1), f i := rfl
  rw [List.range_succ, List.map_append, List.map_singleton, Nat.add_sub_cancel, coeff_gridPolynomial]
  refine congrArg₂ (· ++ [·]) (List.map_congr_left fun t inside => ?_) ?_
  · have below := List.mem_range.mp inside
    rw [eval_gridPolynomial]
    refine sum_congr rfl fun j _ => congrArg (weight j * ·) (sum_congr rfl fun b _ => ?_)
    rw [batchProduct, gridFactors, if_neg (by omega), product]
    refine prod_congr rfl fun i _ => ?_
    push_cast
    ring
  · refine sum_congr rfl fun j _ => congrArg (weight j * ·) (sum_congr rfl fun b _ => ?_)
    rw [batchProduct, gridFactors, if_pos rfl, product]

end

end

end JoltWasm
