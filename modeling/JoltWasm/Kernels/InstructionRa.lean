import JoltWasm.Kernels.ProductGrid
import JoltWasm.Kernels.RamRaReduction

/-!
# The instruction virtualization kernel

Every virtual polynomial is the product of some committed chunks of the lookup index, and the virtual polynomials
are combined by powers of a challenge under an equality weight.  The powers are hidden in the tables of the first
chunk of each virtual polynomial, and divided out of the output claims.
-/

namespace JoltWasm

open Lib Mont Finset

open SpartanProduct (Scalar)

open GruenSplitEqPolynomial (LowBound lowBound_new)

open RamRaClaimReduction (RoundProgress)

namespace InstructionRaVirtualization

/-- `InstructionCycleRow`, as far as the lookup index goes. -/
structure InstructionCycleRow where
  lookupIndexLo : Mont.U64
  lookupIndexHi : Mont.U64
  deriving Inhabited

def InstructionCycleRow.lookupIndex (row : InstructionCycleRow) : ℕ := row.lookupIndexLo.val ||| row.lookupIndexHi.val <<< 64

/-- `LookupIndexChunks`: every cycle is hot. -/
def lookupIndexChunks (rows : RowVec 32 InstructionCycleRow) (numCommitted committedChunkBits : ℕ) : ChunkIndexSource where
  numPolys := numCommitted
  cycles := rows.rows.length
  index i j := do
    let row ← rows.rows[j]?
    return some (← chunkOf numCommitted committedChunkBits i row.lookupIndex)

structure OptimizedInstructionRaVirtualizationKernel where
  progress : RoundProgress
  numCommittedPerVirtual : ℕ
  gammaPowersInv : List Scalar
  foldedRa : LazyFoldedRa Scalar
  gruen : GruenSplitEqPolynomial Scalar

/-- The table of a chunk; the weight of a batch is in its first table. -/
def chunkTable (numCommittedPerVirtual : ℕ) (gammaPowers : List Scalar) (chunk : List Scalar) (i : ℕ) :
    Option (List Scalar) :=
  let table := EqPolynomial.evals chunk none
  if numCommittedPerVirtual = 0 then none
  else if i % numCommittedPerVirtual = 0 then do
    let weight ← gammaPowers[i / numCommittedPerVirtual]?
    if weight ≠ 1 then some (table.map (· * weight)) else some table
  else some table

namespace OptimizedInstructionRaVirtualizationKernel

def new (logT numVirtual numCommittedPerVirtual : ℕ) (instructionAddress instructionReadRafCycle : List Scalar)
    (committedChunkBits : ℕ) (rows : RowVec 32 InstructionCycleRow) (gamma : Scalar) :
    Except KernelStop OptimizedInstructionRaVirtualizationKernel :=
  let numCommitted := numVirtual * numCommittedPerVirtual
  let chunks := committedAddressChunks instructionAddress committedChunkBits
  if chunks.length ≠ numCommitted ∨ instructionAddress.length ≠ numCommitted * committedChunkBits then
    .error (.invariantViolation "instruction address chunk count disagrees with the committed RA count")
  else if committedChunkBits = 0 ∨ 32 < committedChunkBits then
    .error (.unsupported "committed RA chunk width outside the supported one-hot range")
  else do
    let cycles ← KernelStop.orPanic (if logT < 64 then some (2 ^ logT) else none)
    if rows.rows.length ≠ cycles then
      .error (.tableSizeMismatch "stage-6b instruction rows" cycles rows.rows.length)
    else if instructionReadRafCycle.length ≠ logT then
      .error (.tableSizeMismatch "instruction read-RAF cycle point" logT instructionReadRafCycle.length)
    else
      match inverse gamma with
      | none => .error (.invariantViolation "instruction RA batching gamma must be invertible")
      | some gammaInv => do
          let gammaPowers := List.iterate (· * gamma) 1 numVirtual
          let gammaPowersInv := List.iterate (· * gammaInv) 1 numVirtual
          let chunkTables ← KernelStop.orPanic
            (chunks.zipIdx.mapM fun (chunk, i) => chunkTable numCommittedPerVirtual gammaPowers chunk i)
          let foldedRa ← KernelStop.orPanic
            (LazyFoldedRa.new chunkTables (lookupIndexChunks rows numCommitted committedChunkBits))
          return {
            progress := .new logT
            numCommittedPerVirtual := numCommittedPerVirtual
            gammaPowersInv := gammaPowersInv
            foldedRa := foldedRa
            gruen := .new instructionReadRafCycle .lowToHigh }

/-- The sums of a row at zero, one and two. -/
def singleFactorRow (pairs : List (Scalar × Scalar)) : List Scalar :=
  pairs.foldl (fun sums (lo, hi) => mergeVecs sums [lo, hi, hi + hi - lo]) [0, 0, 0]

def singleQEvals (kernel : OptimizedInstructionRaVirtualizationKernel) : Option (List Scalar) :=
  kernel.gruen.parFoldOutIn (some [0, 0, 0])
    (fun acc row _ eIn => do
      let pairs ← kernel.foldedRa.loHiAll row
      return mergeVecs (← acc) ((singleFactorRow pairs).map (eIn * ·)))
    (fun _ eOut acc => do return (← acc).map (· * eOut)) fun a b => do return mergeVecs (← a) (← b)

def messageSingleFactor (kernel : OptimizedInstructionRaVirtualizationKernel) (round : ℕ) (previousClaim : Scalar) :
    Except (RoundStop Scalar) (UnivariatePoly Scalar) := do
  let qEvals ← RoundStop.orPanic kernel.singleQEvals
  kernel.gruen.checkedRoundPoly qEvals previousClaim round

/-- The part of `prove_round` after the bind. -/
def message (ark : ArkFr) (kernel : OptimizedInstructionRaVirtualizationKernel) (round : ℕ) (previousClaim : Scalar) :
    Except (RoundStop Scalar) (UnivariatePoly Scalar × OptimizedInstructionRaVirtualizationKernel) := do
  if kernel.numCommittedPerVirtual < 2 then return (← kernel.messageSingleFactor round previousClaim, kernel)
  else
    let qEvals ← RoundStop.orPanic (gridQEvals ark kernel.gruen kernel.foldedRa kernel.numCommittedPerVirtual)
    let message ← RoundStop.orPanic (kernel.gruen.gruenPolyFromEvals qEvals previousClaim)
    return (message, kernel)

def bind (kernel : OptimizedInstructionRaVirtualizationKernel) (challenge : Scalar) :
    Except (RoundStop Scalar) OptimizedInstructionRaVirtualizationKernel := do
  let gruen ← RoundStop.orPanic (kernel.gruen.bind challenge)
  let foldedRa ← RoundStop.orPanic (kernel.foldedRa.bind challenge)
  return { kernel with
    gruen := gruen
    foldedRa := foldedRa
    progress := kernel.progress.advance }

def rounds (ark : ArkFr) : RoundKernel Scalar OptimizedInstructionRaVirtualizationKernel (RoundStop Scalar) :=
  ⟨bind, message ark⟩

/-- `committed_instruction_ra`: the weights are divided out again. -/
def outputClaims (kernel : OptimizedInstructionRaVirtualizationKernel) : Except KernelStop (List Scalar) := do
  kernel.progress.requireComplete
  let values ← KernelStop.orPanic kernel.foldedRa.finalValues
  KernelStop.orPanic (values.zipIdx.mapM fun (value, index) =>
    if kernel.numCommittedPerVirtual = 0 then none
    else if index % kernel.numCommittedPerVirtual = 0 then
      kernel.gammaPowersInv[index / kernel.numCommittedPerVirtual]?.map (value * ·)
    else some value)

end OptimizedInstructionRaVirtualizationKernel

/-! ## The columns -/

/-- The chunk of the lookup index of a cycle. -/
def hotChunk (rows : List InstructionCycleRow) (numCommitted committedChunkBits i j : ℕ) : Option ℕ :=
  some (chunkDigit numCommitted committedChunkBits i (rows.getD j default).lookupIndex)

/-- The weight of a table. -/
def batchScale (numCommittedPerVirtual : ℕ) (gamma : Scalar) (i : ℕ) : Scalar :=
  if i % numCommittedPerVirtual = 0 then gamma ^ (i / numCommittedPerVirtual) else 1

section

variable (numVirtual N bits : ℕ) (address : List Scalar) (rows : List InstructionCycleRow)

/-- A committed chunk at its chunk of the address. -/
def raAt (i : ℕ) : ℕ → Scalar := hotAt (chunkPoint address bits i) (hotChunk rows (numVirtual * N) bits i)

/-- The virtual polynomials, combined. -/
def virtualized (gamma : Scalar) (x : List Scalar) : Scalar :=
  ∑ v ∈ range numVirtual, gamma ^ v * ∏ i ∈ range N, extension (raAt numVirtual N bits address rows (v * N + i)) x

/-- The summand of the rounds. -/
def summand (r : List Scalar) (gamma : Scalar) : List Scalar → Scalar :=
  weighted 1 r (virtualized numVirtual N bits address rows gamma)

/-- The columns that the tables serve. -/
def scaledAt (gamma : Scalar) (i j : ℕ) : Scalar := batchScale N gamma i * raAt numVirtual N bits address rows i j

variable {numVirtual N bits : ℕ} {address : List Scalar} {vec : RowVec 32 InstructionCycleRow}

theorem extension_scaledAt (gamma : Scalar) (i : ℕ) (x : List Scalar) :
    extension (scaledAt numVirtual N bits address vec.rows gamma i) x =
      batchScale N gamma i * extension (raAt numVirtual N bits address vec.rows i) x := extension_mul _ _ _

/-- The weights are in the first factors. -/
theorem virtualized_eq (positive : 0 < N) (gamma : Scalar) (x : List Scalar) :
    virtualized numVirtual N bits address vec.rows gamma x = ∑ v ∈ range numVirtual, ∏ i ∈ range N,
      extension (scaledAt numVirtual N bits address vec.rows gamma (v * N + i)) x := by
  refine sum_congr rfl fun v _ => ?_
  obtain ⟨n, rfl⟩ : ∃ n, N = n + 1 := ⟨N - 1, by omega⟩
  have first : batchScale (n + 1) gamma (v * (n + 1) + 0) = gamma ^ v := by
    change batchScale (n + 1) gamma (v * (n + 1)) = _
    rw [batchScale, Nat.mul_mod_left, if_pos rfl, Nat.mul_div_cancel _ positive]
  have later (i : ℕ) (member : i ∈ range n) : batchScale (n + 1) gamma (v * (n + 1) + (i + 1)) = 1 := by
    have := mem_range.mp member
    rw [batchScale, if_neg]
    rw [Nat.mul_add_mod', Nat.mod_eq_of_lt (by omega)]
    omega
  simp only [extension_scaledAt]
  have rest : ∏ i ∈ range n, batchScale (n + 1) gamma (v * (n + 1) + (i + 1)) *
        extension (raAt numVirtual (n + 1) bits address vec.rows (v * (n + 1) + (i + 1))) x =
      ∏ i ∈ range n, extension (raAt numVirtual (n + 1) bits address vec.rows (v * (n + 1) + (i + 1))) x :=
    prod_congr rfl fun i member => by rw [later i member, one_mul]
  rw [prod_range_succ', prod_range_succ', rest, first]
  ring

theorem degreeIn_virtualized (gamma : Scalar) : DegreeIn N (virtualized numVirtual N bits address vec.rows gamma) := by
  refine DegreeIn.sum fun v _ => DegreeIn.const_mul _ ?_
  have product := DegreeIn.prod (s := range N) fun i _ =>
    (multilinear_extension (raAt numVirtual N bits address vec.rows (v * N + i))).degreeIn
  rwa [card_range] at product

/-! ## The invariant -/

/-- The tables before any challenge. -/
def tables (numVirtual N bits : ℕ) (address : List Scalar) (gamma : Scalar) : List (List Scalar) :=
  (List.range (numVirtual * N)).map fun i => EqPolynomial.table (batchScale N gamma i) (chunkPoint address bits i)

/-- What the kernel is made for: the sizes that its constructor checks, and a width of all chunks but the first
that an index has. -/
structure Sized (numVirtual N bits : ℕ) (address r : List Scalar) (vec : RowVec 32 InstructionCycleRow) : Prop where
  factors : 0 < N
  word : N < 2 ^ 64
  positive : 0 < bits
  supported : bits ≤ 32
  narrow : (numVirtual * N - 1) * bits < 128
  address : address.length = numVirtual * N * bits
  rows : vec.rows.length = 2 ^ r.length

/-- The kernel in step with the coordinates. -/
structure Good (numVirtual N bits : ℕ) (address r : List Scalar) (vec : RowVec 32 InstructionCycleRow) (γ : Scalar)
    (kernel : OptimizedInstructionRaVirtualizationKernel) (m : ℕ) (low : List Scalar) : Prop where
  free : m + low.length = r.length
  gruen : r ≠ [] → LowBound kernel.gruen r m (1 * equal (r.drop m) low)
  folded : LazyFoldedRa.Bound (tables numVirtual N bits address γ) (lookupIndexChunks vec (numVirtual * N) bits)
    (scaledAt numVirtual N bits address vec.rows γ) m low kernel.foldedRa
  factors : kernel.numCommittedPerVirtual = N
  inverses : kernel.gammaPowersInv = List.iterate (· * γ⁻¹) 1 numVirtual
  progress : kernel.progress = ⟨low.length, r.length⟩

variable {r : List Scalar} {γ : Scalar} {kernel : OptimizedInstructionRaVirtualizationKernel} {m : ℕ} {low : List Scalar}

theorem Sized.chunks (sized : Sized numVirtual N bits address r vec) :
    committedAddressChunks address bits = (List.range (numVirtual * N)).map (chunkPoint address bits) := by
  have count : (address.length + bits - 1) / bits = numVirtual * N := by
    have positive := sized.positive
    rw [sized.address, Nat.add_sub_assoc positive, Nat.mul_comm, Nat.mul_add_div positive, Nat.div_eq_of_lt (by omega),
      Nat.add_zero]
  rw [committedAddressChunks_eq address sized.positive, count]

theorem Sized.length_chunk (sized : Sized numVirtual N bits address r vec) {i : ℕ} (listed : i < numVirtual * N) :
    (chunkPoint address bits i).length = bits := by
  refine length_chunkPoint address sized.positive (listed.trans_le ?_)
  rw [Nat.le_div_iff_mul_le sized.positive, sized.address]
  have := sized.positive
  omega

theorem Sized.columns (sized : Sized numVirtual N bits address r vec) (γ : Scalar) :
    LazyFoldedRa.Columns (tables numVirtual N bits address γ) (lookupIndexChunks vec (numVirtual * N) bits)
      (scaledAt numVirtual N bits address vec.rows γ) r.length := by
  refine LazyFoldedRa.columns_of_hot sized.rows _ _ _ (hotChunk vec.rows (numVirtual * N) bits) ?_ ?_
  · intro i _ j below
    have here : vec.rows[j]? = some (vec.rows.getD j default) := by
      rw [List.getD_eq_getElem?_getD, List.getElem?_eq_getElem (sized.rows ▸ below), Option.getD_some]
    change (do
      let row ← vec.rows[j]?
      return some (← chunkOf (numVirtual * N) bits i row.lookupIndex)) = _
    rw [here, Option.bind_eq_bind, Option.bind_some, chunkOf_eq sized.narrow]
    rfl
  · intro i listed j _ k here
    obtain rfl := Option.some.inj here
    rw [sized.length_chunk listed]
    exact chunkDigit_lt _ _ _ _

theorem getElem?_powers (γ : Scalar) {count v : ℕ} (inside : v < count) : (List.iterate (· * γ) 1 count)[v]? = some (γ ^ v) := by
  rw [List.getElem?_eq_getElem (by rwa [List.length_iterate]), List.getElem_iterate, mul_right_iterate_apply_one]

theorem chunkTable_eq (positive : 0 < N) (γ : Scalar) (point : List Scalar) {i : ℕ} (listed : i < numVirtual * N) :
    chunkTable N (List.iterate (· * γ) 1 numVirtual) point i = some (EqPolynomial.table (batchScale N γ i) point) := by
  have scaled (scale : Scalar) : (EqPolynomial.table 1 point).map (· * scale) = EqPolynomial.table scale point := by
    rw [EqPolynomial.table, EqPolynomial.table, List.map_map]
    exact List.map_congr_left fun k _ => by rw [Function.comp_apply, one_mul, mul_comm]
  rw [chunkTable]
  simp only [EqPolynomial.evals_eq, Option.getD_none, if_neg positive.ne']
  by_cases first : i % N = 0
  · have inside : i / N < numVirtual := Nat.div_lt_of_lt_mul (Nat.mul_comm _ _ ▸ listed)
    rw [if_pos first, batchScale, if_pos first, getElem?_powers γ inside, Option.bind_eq_bind, Option.bind_some, scaled]
    split_ifs with one
    · rfl
    · rw [not_not.mp one]
  · rw [if_neg first, batchScale, if_neg first]

theorem new_eq (sized : Sized numVirtual N bits address r vec) (nonzero : γ ≠ 0) :
    ∃ kernel, OptimizedInstructionRaVirtualizationKernel.new r.length numVirtual N address r bits vec γ = .ok kernel ∧
      Good numVirtual N bits address r vec γ kernel r.length [] := by
  have few := vec.few (by decide) sized.rows
  have count : ¬((committedAddressChunks address bits).length ≠ numVirtual * N ∨ address.length ≠ numVirtual * N * bits) := by
    rw [sized.chunks, List.length_map, List.length_range, sized.address]
    simp
  have supported : ¬(bits = 0 ∨ 32 < bits) := by
    have := sized.positive
    have := sized.supported
    omega
  have chunkTables : (committedAddressChunks address bits).zipIdx.mapM
      (fun (chunk, i) => chunkTable N (List.iterate (· * γ) 1 numVirtual) chunk i) = some (tables numVirtual N bits address γ) := by
    rw [sized.chunks, zipIdx_map_range, List.mapM_map]
    exact UnivariatePoly.mapM_some fun i member => chunkTable_eq sized.factors γ _ (List.mem_range.mp member)
  have length : (tables numVirtual N bits address γ).length = numVirtual * N := by
    rw [tables, List.length_map, List.length_range]
  have lazy_ : LazyFoldedRa.new (tables numVirtual N bits address γ) (lookupIndexChunks vec (numVirtual * N) bits) =
      some (.lazy (tables numVirtual N bits address γ) 1 (lookupIndexChunks vec (numVirtual * N) bits)) := if_pos length
  refine ⟨⟨.new r.length, N, List.iterate (· * γ⁻¹) 1 numVirtual, .lazy (tables numVirtual N bits address γ) 1
    (lookupIndexChunks vec (numVirtual * N) bits), .new r .lowToHigh⟩, ?_, rfl, fun some_ => ?_,
    LazyFoldedRa.bound_fresh _ _ _ _, rfl, rfl, rfl⟩
  · rw [OptimizedInstructionRaVirtualizationKernel.new]
    simp only [if_neg count, if_neg supported, if_pos (few.trans (by decide) : r.length < 64), KernelStop.orPanic_some,
      KernelStop.ok_bind, sized.rows, ne_eq, not_true_eq_false, if_false, inverse_of_ne nonzero, chunkTables, lazy_]
    rfl
  · rw [List.drop_length, equal_nil, mul_one]
    exact lowBound_new some_ (none : Option Scalar)

theorem Sized.few (sized : Sized numVirtual N bits address r vec) : numVirtual ≤ 2 ^ 61 := by
  have narrow := (Nat.le_mul_of_pos_right (numVirtual * N - 1) sized.positive).trans_lt sized.narrow
  have most := Nat.le_mul_of_pos_right numVirtual sized.factors
  omega

/-! ## The rounds -/

theorem bind_eq (sized : Sized numVirtual N bits address r vec)
    (good : Good numVirtual N bits address r vec γ kernel (m + 1) low) (challenge : Scalar) :
    ∃ next, kernel.bind challenge = .ok next ∧ Good numVirtual N bits address r vec γ next m (challenge :: low) := by
  have free := good.free
  have some_ : r ≠ [] := List.ne_nil_of_length_pos (by omega)
  have here : r[m]? = some r[m] := List.getElem?_eq_getElem (by omega)
  obtain ⟨gruen, moved, bound⟩ := (good.gruen some_).bind here challenge
  rw [scale_bind 1 challenge here free] at bound
  obtain ⟨folded, ran, lazy_⟩ := good.folded.bind_eq (sized.columns γ) free challenge
  refine ⟨{ kernel with
    gruen := gruen
    foldedRa := folded
    progress := kernel.progress.advance }, ?_, by rw [List.length_cons]; omega, fun _ => bound, lazy_, good.factors,
    good.inverses, ?_⟩
  · rw [OptimizedInstructionRaVirtualizationKernel.bind, moved, RoundStop.orPanic_some, RoundStop.ok_bind, ran]
    rfl
  · rw [good.progress]
    rfl

theorem Good.reads (good : Good numVirtual N bits address r vec γ kernel (m + 1) low)
    (sized : Sized numVirtual N bits address r vec) {row : ℕ} (inside : row < 2 ^ m) :
    kernel.foldedRa.loHiAll row = some ((List.range (numVirtual * N)).map fun i =>
      (extension (scaledAt numVirtual N bits address vec.rows γ i) (bitPoint Scalar m row ++ 0 :: low),
        extension (scaledAt numVirtual N bits address vec.rows γ i) (bitPoint Scalar m row ++ 1 :: low))) := by
  have read := good.folded.reads (sized.columns γ) good.free inside
  rwa [tables, List.length_map, List.length_range] at read

/-- Several factors: the product grid, where the weight at zero does not vanish. -/
theorem message_grid (ark : ArkFr) (sized : Sized numVirtual N bits address r vec) (several : 2 ≤ N)
    (good : Good numVirtual N bits address r vec γ kernel (m + 1) low) {c : Scalar} (here : r[m]? = some c) (away : c ≠ 1)
    (allowed : equal (r.drop (m + 1)) low ≠ 0) (round : ℕ) : ∃ message,
      kernel.message ark round (restSum (summand numVirtual N bits address vec.rows r γ) (m + 1) low) = .ok (message, kernel) ∧
        IsRound (1 + N) (summand numVirtual N bits address vec.rows r γ) m low message.polynomial := by
  have free := good.free
  have bound := good.gruen (List.ne_nil_of_length_pos (by omega))
  have rows : 2 ^ m ≤ 2 ^ 61 := by
    have := vec.few (by decide) sized.rows
    exact Nat.pow_le_pow_right two_pos (by omega)
  let column := scaledAt numVirtual N bits address vec.rows γ
  let lo (i j : ℕ) := extension (column i) (bitPoint Scalar m j ++ 0 :: low)
  let hi (i j : ℕ) := extension (column i) (bitPoint Scalar m j ++ 1 :: low)
  have samples : gridQEvals ark kernel.gruen kernel.foldedRa N = some _ :=
    gridQEvals_eq several bound rows sized.few lo hi fun row inside => good.reads sized inside
  rw [lanes_gridPolynomial m numVirtual (eqWeight (r.take m)) lo hi several] at samples
  have value (t : Scalar) : (gridPolynomial N numVirtual m (eqWeight (r.take m)) lo hi).eval t =
      ∑ j ∈ range (2 ^ m), eqWeight (r.take m) j *
        virtualized numVirtual N bits address vec.rows γ (bitPoint Scalar m j ++ t :: low) := by
    rw [eval_gridPolynomial]
    refine sum_congr rfl fun j _ => ?_
    rw [virtualized_eq sized.factors]
    refine congrArg (eqWeight (r.take m) j * ·) (sum_congr rfl fun v _ => prod_congr rfl fun i _ => ?_)
    rw [multilinear_extension (column (v * N + i)) (bitPoint Scalar m j) low t]
    ring
  have nonzero : 1 * equal (r.drop (m + 1)) low * (1 - c) ≠ 0 := by
    rw [one_mul]
    exact mul_ne_zero allowed (sub_ne_zero.mpr (Ne.symm away))
  have distinct := distinctNodes_of_le (sized.word.le.trans (by norm_num [Mont.order]))
  obtain ⟨message, made, isRound⟩ := gruenPolyFromEvals_isRound several distinct here free bound nonzero
    (natDegree_gridPolynomial m numVirtual _ lo hi) value
  refine ⟨message, ?_, isRound⟩
  rw [OptimizedInstructionRaVirtualizationKernel.message, good.factors, if_neg (by omega), samples]
  simp only [RoundStop.orPanic_some, RoundStop.ok_bind, summand, made]
  rfl

/-- The samples of a row at zero, one and two. -/
theorem singleFactorRow_eq (count : ℕ) (lo hi : ℕ → Scalar) :
    OptimizedInstructionRaVirtualizationKernel.singleFactorRow ((List.range count).map fun i => (lo i, hi i)) =
      (List.range 3).map fun t : ℕ => ∑ i ∈ range count, (lo i + t * (hi i - lo i)) := by
  have samples (i : ℕ) : [lo i, hi i, hi i + hi i - lo i] = (List.range 3).map fun t : ℕ => lo i + t * (hi i - lo i) := by
    simp only [List.range_succ, List.range_zero, List.nil_append, List.cons_append, List.map_cons, List.map_nil, Nat.cast_zero,
      zero_mul, add_zero, Nat.cast_one, one_mul, add_sub_cancel, Nat.cast_ofNat]
    congr 3
    ring
  induction count with
  | zero => simp [OptimizedInstructionRaVirtualizationKernel.singleFactorRow, List.range_succ]
  | succ count ih =>
      rw [OptimizedInstructionRaVirtualizationKernel.singleFactorRow] at ih ⊢
      rw [List.range_succ, List.map_append, List.foldl_append, ih, List.map_singleton, List.foldl_cons, List.foldl_nil]
      simp only [samples, mergeVecs_map, sum_range_succ]

/-- One factor: three samples. -/
theorem message_single (ark : ArkFr) (sized : Sized numVirtual 1 bits address r vec)
    (good : Good numVirtual 1 bits address r vec γ kernel (m + 1) low) (round : ℕ) : ∃ message,
      kernel.message ark round (restSum (summand numVirtual 1 bits address vec.rows r γ) (m + 1) low) = .ok (message, kernel) ∧
        IsRound (1 + 1) (summand numVirtual 1 bits address vec.rows r γ) m low message.polynomial := by
  have free := good.free
  have bound := good.gruen (List.ne_nil_of_length_pos (by omega))
  let column := scaledAt numVirtual 1 bits address vec.rows γ
  have value (j : ℕ) (t : Scalar) : virtualized numVirtual 1 bits address vec.rows γ (bitPoint Scalar m j ++ t :: low) =
      ∑ i ∈ range (numVirtual * 1), (extension (column i) (bitPoint Scalar m j ++ 0 :: low) +
        t * (extension (column i) (bitPoint Scalar m j ++ 1 :: low) - extension (column i) (bitPoint Scalar m j ++ 0 :: low))) := by
    rw [virtualized_eq sized.factors, Nat.mul_one]
    refine sum_congr rfl fun i _ => ?_
    rw [prod_range_one, Nat.mul_one, Nat.add_zero, multilinear_extension (column i) (bitPoint Scalar m j) low t]
    ring
  have samples : kernel.singleQEvals = some ((List.range 3).map fun t : ℕ => ∑ j ∈ range (2 ^ m), eqWeight (r.take m) j *
      virtualized numVirtual 1 bits address vec.rows γ (bitPoint Scalar m j ++ (t : Scalar) :: low)) := by
    refine bound.rowSums_eq 3 (fun j t => virtualized numVirtual 1 bits address vec.rows γ (bitPoint Scalar m j ++ (t : Scalar) :: low))
      fun row inside _ eIn acc => ?_
    rw [good.reads sized inside, Option.bind_eq_bind, Option.bind_some, Option.bind_eq_bind, Option.bind_some,
      singleFactorRow_eq, List.map_map, mergeVecs_map]
    simp only [value]
    rfl
  obtain ⟨message, isRound, returned⟩ := checkedRoundPoly_eq
    (SpartanProduct.distinctNodes (by decide : 1 + 2 ≤ 64)) free bound (degreeIn_virtualized γ) rfl
  refine ⟨message, ?_, isRound⟩
  rw [OptimizedInstructionRaVirtualizationKernel.message, good.factors, if_pos one_lt_two,
    OptimizedInstructionRaVirtualizationKernel.messageSingleFactor, samples, RoundStop.orPanic_some, RoundStop.ok_bind, returned,
    summand, if_pos rfl]
  rfl

/-- A round is served: there is one factor, or the weight of the bound coordinates does not vanish. -/
def Allowed (N : ℕ) (r : List Scalar) (m : ℕ) (low : List Scalar) : Prop := 2 ≤ N → equal (r.drop (m + 1)) low ≠ 0

theorem serves (ark : ArkFr) (sized : Sized numVirtual N bits address r vec) (away : ∀ c ∈ r, c ≠ 1) (γ : Scalar) :
    (OptimizedInstructionRaVirtualizationKernel.rounds ark).Serves (1 + N) (summand numVirtual N bits address vec.rows r γ)
      (Good numVirtual N bits address r vec γ) (Allowed N r) where
  bind := fun good challenge => bind_eq sized good challenge
  message := fun {state m low} good allowed round => by
    by_cases several : 2 ≤ N
    · have inside : m < r.length := by
        have := good.free
        omega
      obtain ⟨message, made, isRound⟩ := message_grid ark sized several good (List.getElem?_eq_getElem inside)
        (away _ (List.getElem_mem inside)) (allowed several) round
      exact ⟨message, state, made, isRound, good⟩
    · obtain rfl : N = 1 := by
        have := sized.factors
        omega
      obtain ⟨message, made, isRound⟩ := message_single ark sized good round
      exact ⟨message, state, made, isRound, good⟩

/-- No message where the weight vanishes. -/
theorem message_allowed (ark : ArkFr) (good : Good numVirtual N bits address r vec γ kernel (m + 1) low) {round : ℕ}
    {claim : Scalar} {message : UnivariatePoly Scalar} {next : OptimizedInstructionRaVirtualizationKernel}
    (made : kernel.message ark round claim = .ok (message, next)) :
    Allowed N r m low ∧ Good numVirtual N bits address r vec γ next (m + 1) low := by
  have free := good.free
  have bound := good.gruen (List.ne_nil_of_length_pos (by omega))
  rw [OptimizedInstructionRaVirtualizationKernel.message, good.factors] at made
  split_ifs at made with few
  · refine ⟨fun several => absurd few (Nat.not_lt.mpr several), ?_⟩
    cases single : kernel.messageSingleFactor round claim with
    | error stop =>
        rw [single] at made
        cases made
    | ok message =>
        rw [single] at made
        cases made
        exact good
  · cases samples : gridQEvals ark kernel.gruen kernel.foldedRa N with
    | none =>
        rw [samples] at made
        cases made
    | some qEvals =>
        rw [samples, RoundStop.orPanic_some, RoundStop.ok_bind] at made
        cases recovered : kernel.gruen.gruenPolyFromEvals qEvals claim with
        | none =>
            rw [recovered] at made
            cases made
        | some message =>
            rw [recovered] at made
            cases made
            refine ⟨fun _ vanishes => ?_, good⟩
            have here : r[m]? = some r[m] := List.getElem?_eq_getElem (by omega)
            rw [gruenPolyFromEvals_vanishing bound here (by rw [vanishes, mul_zero, zero_mul])] at recovered
            cases recovered

/-! ## The output claims -/

theorem outputClaims_eq {point : List Scalar} (sized : Sized numVirtual N bits address r vec) (nonzero : γ ≠ 0)
    (good : Good numVirtual N bits address r vec γ kernel 0 point) :
    kernel.outputClaims = .ok ((List.range (numVirtual * N)).map fun i =>
      extension (hotGrid r.length (hotChunk vec.rows (numVirtual * N) bits i)) (chunkPoint address bits i ++ point)) := by
  have count : point.length = r.length := by
    have := good.free
    omega
  have complete : kernel.progress.requireComplete = .ok () := by
    rw [good.progress, RoundProgress.requireComplete, if_pos count]
  have values := good.folded.finalValues_eq (count ▸ sized.columns γ)
  rw [tables, List.length_map, List.length_range] at values
  rw [OptimizedInstructionRaVirtualizationKernel.outputClaims, complete, KernelStop.ok_bind, values, KernelStop.orPanic_some,
    KernelStop.ok_bind, zipIdx_map_range, List.mapM_map, good.factors, good.inverses]
  refine congrArg KernelStop.orPanic (UnivariatePoly.mapM_some fun i member => ?_)
  have listed := List.mem_range.mp member
  simp only [Function.comp_apply, if_neg sized.factors.ne']
  rw [extension_scaledAt, raAt, extension_hotAt _ _ count, batchScale]
  split_ifs with first
  · have inside : i / N < numVirtual := Nat.div_lt_of_lt_mul (Nat.mul_comm _ _ ▸ listed)
    rw [getElem?_powers γ⁻¹ inside, Option.map_some, inv_pow]
    field_simp
  · rw [one_mul]

/-! ## Runs -/

/-- The claim: the virtual polynomials of a cycle under the weights of the cycles. -/
theorem sum_summand (numVirtual N bits : ℕ) (address r : List Scalar) (rows : List InstructionCycleRow) (γ : Scalar) :
    restSum (summand numVirtual N bits address rows r γ) r.length [] = ∑ j ∈ range (2 ^ r.length), eqWeight r j *
      ∑ v ∈ range numVirtual, γ ^ v * ∏ i ∈ range N, raAt numVirtual N bits address rows (v * N + i) j := by
  rw [restSum, cubeSum_eq_sum]
  refine sum_congr rfl fun j member => ?_
  have inside := mem_range.mp member
  rw [List.append_nil, summand, weighted, one_mul, equal, extension_bitPoint _ inside, virtualized]
  simp only [extension_bitPoint _ inside]

end

end InstructionRaVirtualization

/-- Two cycles of lookup indices. -/
def twoLookups : RowVec 32 InstructionRaVirtualization.InstructionCycleRow := ⟨[⟨2 ^ 64 - 1, 3⟩, ⟨0x1234, 2 ^ 63⟩], by decide⟩

end JoltWasm
