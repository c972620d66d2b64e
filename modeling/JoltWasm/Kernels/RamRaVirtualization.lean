import JoltWasm.Kernels.ProductGrid
import JoltWasm.Kernels.RamRaReduction

/-!
# The RAM virtualization kernel

The one-hot column of the accessed address is the product of the columns of its chunks, cold where there is no
access.  The product is sampled at as many points as its degree needs, under an equality weight, and the claim of
each round is checked.
-/

namespace JoltWasm

open Lib Finset

open SpartanProduct (Scalar)

open GruenSplitEqPolynomial (LowBound lowBound_new)

open RamAccessColumns (noAccess)

open RamRaClaimReduction (RoundProgress)

namespace RamRaVirtualization

/-- `RamAddressChunks`: cold where there is no access. -/
def ramAddressChunks (addresses : List ℕ) (numCommitted committedChunkBits : ℕ) : ChunkIndexSource where
  numPolys := numCommitted
  cycles := addresses.length
  index i j := do
    let address ← addresses[j]?
    if address = noAccess then return none
    else return some (← chunkOf numCommitted committedChunkBits i address)

structure RamRaVirtualizationKernel where
  progress : RoundProgress
  foldedRa : LazyFoldedRa Scalar
  gruen : GruenSplitEqPolynomial Scalar

/-- The product of a row; one without columns. -/
def rowProduct : List Scalar → Scalar
  | [] => 1
  | first :: rest => rest.foldl (· * ·) first

namespace RamRaVirtualizationKernel

def prepare (logT numCommitted : ℕ) (ramReducedAddress ramReducedCycle : List Scalar) (committedChunkBits : ℕ)
    (addresses : List ℕ) : Except KernelStop RamRaVirtualizationKernel :=
  let chunks := committedAddressChunks ramReducedAddress committedChunkBits
  if chunks.length ≠ numCommitted then
    .error (.invariantViolation "RAM address chunk count disagrees with the committed RA count")
  else if committedChunkBits = 0 ∨ 32 < committedChunkBits then
    .error (.unsupported "committed RAM RA chunk width outside the supported one-hot range")
  else if ramReducedCycle.length ≠ logT then
    .error (.tableSizeMismatch "RAM RA reduced cycle point" logT ramReducedCycle.length)
  else do
    let ramK ← KernelStop.orPanic (if ramReducedAddress.length < 64 then some (2 ^ ramReducedAddress.length) else none)
    RamAccessColumns.validateAddresses addresses ramK
    let chunkTables := chunks.map fun chunk => EqPolynomial.evals chunk none
    let foldedRa ← KernelStop.orPanic
      (LazyFoldedRa.new chunkTables (ramAddressChunks addresses numCommitted committedChunkBits))
    return { progress := .new logT, foldedRa := foldedRa, gruen := .new ramReducedCycle .lowToHigh }

/-- The part of `prove_round` after the bind. -/
def message (kernel : RamRaVirtualizationKernel) (round : ℕ) (previousClaim : Scalar) :
    Except (RoundStop Scalar) (UnivariatePoly Scalar × RamRaVirtualizationKernel) := do
  let numCommitted := kernel.foldedRa.numPolys
  let points := numCommitted + 2
  let qEvals ← RoundStop.orPanic (kernel.gruen.readQEvals points rowProduct fun row =>
    (List.range numCommitted).mapM fun position => kernel.foldedRa.loHi position row)
  let message ← kernel.gruen.checkedRoundPoly qEvals previousClaim round
  return (message, kernel)

def bind (kernel : RamRaVirtualizationKernel) (challenge : Scalar) : Except (RoundStop Scalar) RamRaVirtualizationKernel := do
  let gruen ← RoundStop.orPanic (kernel.gruen.bind challenge)
  let foldedRa ← RoundStop.orPanic (kernel.foldedRa.bind challenge)
  return { progress := kernel.progress.advance, foldedRa := foldedRa, gruen := gruen }

def rounds : RoundKernel Scalar RamRaVirtualizationKernel (RoundStop Scalar) := ⟨bind, message⟩

/-- `ram_ra`. -/
def outputClaims (kernel : RamRaVirtualizationKernel) : Except KernelStop (List Scalar) := do
  kernel.progress.requireComplete
  KernelStop.orPanic kernel.foldedRa.finalValues

end RamRaVirtualizationKernel

/-! ## The columns -/

/-- The chunk of the address that a cycle accesses. -/
def hotChunk (accesses : List (Option Mont.U64)) (count bits i j : ℕ) : Option ℕ :=
  (accesses.getD j none).map fun address => chunkDigit count bits i address.val

section

variable (bits : ℕ) (address : List Scalar) (accesses : List (Option Mont.U64))

/-- A chunk's column at its chunk of the address. -/
def raAt (i : ℕ) : ℕ → Scalar := hotAt (chunkPoint address bits i) (hotChunk accesses (chunkCount address.length bits) bits i)

/-- The summand of the rounds. -/
def summand (r : List Scalar) : List Scalar → Scalar :=
  weighted 1 r fun x => ∏ i ∈ range (chunkCount address.length bits), extension (raAt bits address accesses i) x

/-- What the kernel is made for. -/
structure Sized (r : List Scalar) (addresses : List ℕ) : Prop where
  positive : 0 < bits
  supported : bits ≤ 32
  narrow : address.length < 64
  cycles : accesses.length = 2 ^ r.length
  collected : RamAccessColumns.collect accesses = .ok addresses
  below : ∀ access, some access ∈ accesses → access.val < 2 ^ address.length

variable {bits address accesses} {r : List Scalar} {addresses : List ℕ}

theorem Sized.chunks_narrow (sized : Sized bits address accesses r addresses) :
    (chunkCount address.length bits - 1) * bits < 128 := by
  have positive := sized.positive
  have narrow := sized.narrow
  have whole : chunkCount address.length bits * bits ≤ address.length + bits - 1 := Nat.div_mul_le_self _ _
  rw [Nat.sub_mul, one_mul]
  omega

theorem Sized.chunkCount_le (sized : Sized bits address accesses r addresses) : chunkCount address.length bits ≤ 128 := by
  have narrow := (Nat.le_mul_of_pos_right (chunkCount address.length bits - 1) sized.positive).trans_lt sized.chunks_narrow
  omega

theorem degreeIn_product : DegreeIn (chunkCount address.length bits)
    fun x => ∏ i ∈ range (chunkCount address.length bits), extension (raAt bits address accesses i) x := by
  have product := DegreeIn.prod (s := range (chunkCount address.length bits)) fun i _ =>
    (multilinear_extension (raAt bits address accesses i)).degreeIn
  rwa [card_range] at product

theorem rowProduct_range (count : ℕ) (f : ℕ → Scalar) : rowProduct ((List.range count).map f) = ∏ i ∈ range count, f i := by
  have product : rowProduct ((List.range count).map f) = ((List.range count).map f).prod := by
    cases (List.range count).map f with
    | nil => rfl
    | cons first rest => rw [rowProduct, List.prod_eq_foldl, List.foldl_cons, one_mul]
  rw [product]
  rfl

/-- The tables before any challenge. -/
def tables (bits : ℕ) (address : List Scalar) : List (List Scalar) :=
  (List.range (chunkCount address.length bits)).map fun i => EqPolynomial.table 1 (chunkPoint address bits i)

theorem length_tables (bits : ℕ) (address : List Scalar) : (tables bits address).length = chunkCount address.length bits := by
  rw [tables, List.length_map, List.length_range]

theorem columns (sized : Sized bits address accesses r addresses) : LazyFoldedRa.Columns (tables bits address)
    (ramAddressChunks addresses (chunkCount address.length bits) bits) (raAt bits address accesses) r.length := by
  obtain ⟨rfl, small⟩ := RamAccessColumns.collect_eq sized.collected
  have holds : LazyFoldedRa.Columns ((List.range (chunkCount address.length bits)).map fun i =>
      EqPolynomial.table ((fun _ => 1 : ℕ → Scalar) i) (chunkPoint address bits i))
      (ramAddressChunks (accesses.map RamAccessColumns.encoded) (chunkCount address.length bits) bits)
      (fun i j => (fun _ => 1 : ℕ → Scalar) i * hotAt (chunkPoint address bits i)
        (hotChunk accesses (chunkCount address.length bits) bits i) j) r.length := by
    refine LazyFoldedRa.columns_of_hot ((List.length_map _).trans sized.cycles) _ _ _ _ ?_ ?_
    · intro i _ j inside
      have here : (accesses.map RamAccessColumns.encoded)[j]? = some (RamAccessColumns.encoded (accesses.getD j none)) := by
        rw [List.getElem?_map, List.getD_eq_getElem?_getD, List.getElem?_eq_getElem (sized.cycles ▸ inside)]
        rfl
      have there : accesses.getD j none ∈ accesses := by
        rw [List.getD_eq_getElem _ _ (sized.cycles ▸ inside)]
        exact List.getElem_mem _
      change (do
        let address ← (accesses.map RamAccessColumns.encoded)[j]?
        if address = noAccess then return none
        else return some (← chunkOf (chunkCount _ bits) bits i address)) = _
      rw [here, Option.bind_eq_bind, Option.bind_some, hotChunk]
      cases access : accesses.getD j none with
      | none => exact if_pos rfl
      | some word =>
          have distinct : word.val ≠ noAccess := (small word (access ▸ there)).ne
          rw [RamAccessColumns.encoded, Option.elim_some, if_neg distinct, chunkOf_eq sized.chunks_narrow]
          rfl
    · intro i listed j _ k here
      obtain ⟨word, -, rfl⟩ := Option.map_eq_some_iff.mp here
      rw [length_chunkPoint address sized.positive listed]
      exact chunkDigit_lt _ _ _ _
  simp only [one_mul] at holds
  exact holds

/-! ## The invariant -/

/-- The kernel in step with the coordinates. -/
structure Good (bits : ℕ) (address : List Scalar) (accesses : List (Option Mont.U64)) (r : List Scalar) (addresses : List ℕ)
    (kernel : RamRaVirtualizationKernel) (m : ℕ) (low : List Scalar) : Prop where
  free : m + low.length = r.length
  gruen : r ≠ [] → LowBound kernel.gruen r m (1 * equal (r.drop m) low)
  folded : LazyFoldedRa.Bound (tables bits address) (ramAddressChunks addresses (chunkCount address.length bits) bits)
    (raAt bits address accesses) m low kernel.foldedRa
  progress : kernel.progress = ⟨low.length, r.length⟩

variable {kernel : RamRaVirtualizationKernel} {m : ℕ} {low : List Scalar}

theorem prepare_eq (sized : Sized bits address accesses r addresses) :
    ∃ kernel, RamRaVirtualizationKernel.prepare r.length (chunkCount address.length bits) address r bits addresses =
        .ok kernel ∧ Good bits address accesses r addresses kernel r.length [] := by
  have positive := sized.positive
  have cut := committedAddressChunks_eq address positive
  have supported : ¬(bits = 0 ∨ 32 < bits) := by
    have := sized.supported
    omega
  have valid : RamAccessColumns.validateAddresses addresses (2 ^ address.length) = .ok () := by
    obtain ⟨rfl, small⟩ := RamAccessColumns.collect_eq sized.collected
    rw [RamAccessColumns.validateAddresses, if_neg]
    rw [List.any_eq_true]
    rintro ⟨place, member, bad⟩
    obtain ⟨hot, large⟩ := of_decide_eq_true bad
    obtain ⟨access, there, rfl⟩ := List.mem_map.mp member
    cases access with
    | none => exact hot rfl
    | some word => exact absurd (sized.below word there) (not_lt.mpr large)
  have tables_ : (committedAddressChunks address bits).map (fun chunk => EqPolynomial.evals chunk none) = tables bits address := by
    rw [cut, List.map_map]
    exact List.map_congr_left fun i _ => EqPolynomial.evals_eq _ _
  have lazy_ : LazyFoldedRa.new (tables bits address) (ramAddressChunks addresses (chunkCount address.length bits) bits) =
      some (.lazy (tables bits address) 1 (ramAddressChunks addresses (chunkCount address.length bits) bits)) :=
    if_pos (length_tables bits address)
  refine ⟨⟨.new r.length, .lazy (tables bits address) 1 (ramAddressChunks addresses (chunkCount address.length bits) bits),
    .new r .lowToHigh⟩, ?_, rfl, fun some_ => ?_, LazyFoldedRa.bound_fresh _ _ _ _, rfl⟩
  · have count : (committedAddressChunks address bits).length = chunkCount address.length bits := by
      rw [cut, List.length_map, List.length_range, chunkCount]
    rw [RamRaVirtualizationKernel.prepare]
    simp only [count, ne_eq, not_true_eq_false, if_false, if_neg supported, if_pos sized.narrow, KernelStop.orPanic_some,
      KernelStop.ok_bind, valid, tables_, lazy_]
    rfl
  · rw [List.drop_length, equal_nil, mul_one]
    exact lowBound_new some_ (none : Option Scalar)

/-! ## The rounds -/

theorem bind_eq (sized : Sized bits address accesses r addresses)
    (good : Good bits address accesses r addresses kernel (m + 1) low) (challenge : Scalar) :
    ∃ next, kernel.bind challenge = .ok next ∧ Good bits address accesses r addresses next m (challenge :: low) := by
  have free := good.free
  have some_ : r ≠ [] := List.ne_nil_of_length_pos (by omega)
  have here : r[m]? = some r[m] := List.getElem?_eq_getElem (by omega)
  obtain ⟨gruen, moved, bound⟩ := (good.gruen some_).bind here challenge
  rw [scale_bind 1 challenge here free] at bound
  obtain ⟨folded, ran, lazy_⟩ := good.folded.bind_eq (columns sized) free challenge
  refine ⟨⟨kernel.progress.advance, folded, gruen⟩, ?_, by rw [List.length_cons]; omega, fun _ => bound, lazy_, ?_⟩
  · rw [RamRaVirtualizationKernel.bind, moved, RoundStop.orPanic_some, RoundStop.ok_bind, ran]
    rfl
  · rw [good.progress]
    rfl

/-- The message of a round, exactly from the sum that is left. -/
theorem message_eq (sized : Sized bits address accesses r addresses)
    (good : Good bits address accesses r addresses kernel (m + 1) low) :
    ∃ message, IsRound (1 + chunkCount address.length bits) (summand bits address accesses r) m low message.polynomial ∧
      ∀ claim round, kernel.message round claim =
        if restSum (summand bits address accesses r) (m + 1) low = claim then .ok (message, kernel)
        else .error (.roundCheckFailed round claim (restSum (summand bits address accesses r) (m + 1) low)) := by
  have free := good.free
  have bound := good.gruen (List.ne_nil_of_length_pos (by omega))
  have count : kernel.foldedRa.numPolys = chunkCount address.length bits := by
    rw [good.folded.numPolys_eq, length_tables]
  have distinct := distinctNodes_of_le
    ((Nat.add_le_add_right sized.chunkCount_le 2).trans (by norm_num [Mont.order] : 128 + 2 ≤ Mont.order))
  obtain ⟨message, isRound, returned⟩ := checkedRoundPoly_eq distinct free bound degreeIn_product rfl
  have read (row : ℕ) (inside : row < 2 ^ m) : (List.range (chunkCount address.length bits)).mapM
      (fun position => kernel.foldedRa.loHi position row) = some ((List.range (chunkCount address.length bits)).map fun i =>
        (extension (raAt bits address accesses i) (bitPoint Scalar m row ++ 0 :: low),
          extension (raAt bits address accesses i) (bitPoint Scalar m row ++ 1 :: low))) := by
    refine UnivariatePoly.mapM_some fun i member => ?_
    have listed : i < (tables bits address).length := by rwa [length_tables, ← List.mem_range]
    exact good.folded.reads_one (columns sized) free inside listed
  have samples := bound.readQEvals_eq (chunkCount address.length bits + 2) rowProduct
    (List.range (chunkCount address.length bits)) (fun i _ => multilinear_extension (raAt bits address accesses i)) low read
  simp only [rowProduct_range] at samples
  refine ⟨message, isRound, fun claim round => ?_⟩
  rw [RamRaVirtualizationKernel.message, count, samples, RoundStop.orPanic_some, RoundStop.ok_bind]
  rw [returned, ← summand]
  split_ifs <;> rfl

/-- From the sum that is left every round is served. -/
theorem serves (sized : Sized bits address accesses r addresses) : RamRaVirtualizationKernel.rounds.Serves
    (1 + chunkCount address.length bits) (summand bits address accesses r) (Good bits address accesses r addresses)
    fun _ _ => True where
  bind := fun good challenge => bind_eq sized good challenge
  message := fun {state _ _} good _ round => by
    obtain ⟨message, isRound, returned⟩ := message_eq sized good
    exact ⟨message, state, (returned _ round).trans (if_pos rfl), isRound, good⟩

/-! ## Runs -/

theorem outputClaims_eq {point : List Scalar} (sized : Sized bits address accesses r addresses)
    (good : Good bits address accesses r addresses kernel 0 point) :
    kernel.outputClaims = .ok ((List.range (chunkCount address.length bits)).map fun i =>
      extension (hotGrid r.length (hotChunk accesses (chunkCount address.length bits) bits i))
        (chunkPoint address bits i ++ point)) := by
  have count : point.length = r.length := by
    have := good.free
    omega
  have complete : kernel.progress.requireComplete = .ok () := by
    rw [good.progress, RoundProgress.requireComplete, if_pos count]
  have values := good.folded.finalValues_eq (count ▸ columns sized)
  rw [length_tables] at values
  rw [RamRaVirtualizationKernel.outputClaims, complete, KernelStop.ok_bind, values, KernelStop.orPanic_some]
  exact congrArg Except.ok (List.map_congr_left fun i _ => extension_hotAt _ _ count)

/-- The claim: the product of the chunks of a cycle under the weights of the cycles. -/
theorem sum_summand (bits : ℕ) (address : List Scalar) (accesses : List (Option Mont.U64)) (r : List Scalar) :
    restSum (summand bits address accesses r) r.length [] = ∑ j ∈ range (2 ^ r.length),
      eqWeight r j * ∏ i ∈ range (chunkCount address.length bits), raAt bits address accesses i j := by
  rw [restSum, cubeSum_eq_sum]
  refine sum_congr rfl fun j member => ?_
  have inside := mem_range.mp member
  rw [List.append_nil, summand, weighted, one_mul, equal, extension_bitPoint _ inside]
  simp only [extension_bitPoint _ inside]

/-- The chunks of a cycle make up the column of whole addresses, unless there are none. -/
theorem prod_raAt (sized : Sized bits address accesses r addresses) (some_ : address ≠ []) (j : ℕ) :
    ∏ i ∈ range (chunkCount address.length bits), raAt bits address accesses i j =
      hotAt address (fun cycle => (accesses.getD cycle none).map Fin.val) j := by
  cases access : accesses.getD j none with
  | none =>
      have positive : 0 < chunkCount address.length bits :=
        Nat.div_pos (by have := List.length_pos_iff.mpr some_; omega) sized.positive
      rw [hotAt_cold _ (by rw [access]; rfl)]
      refine prod_eq_zero (mem_range.mpr positive) (hotAt_cold _ ?_)
      rw [hotChunk, access]
      rfl
  | some word =>
      have member : some word ∈ accesses := by
        by_cases inside : j < accesses.length
        · rw [List.getD_eq_getElem _ _ inside] at access
          exact access ▸ List.getElem_mem inside
        · rw [List.getD_eq_default _ _ (not_lt.mp inside)] at access
          cases access
      have below := sized.below word member
      have whole : (fun cycle => (accesses.getD cycle none).map Fin.val) j = some word.val := by
        simp only [access, Option.map_some]
      rw [hotAt_hot whole below, ← prod_chunkPoint address sized.positive below]
      refine prod_congr rfl fun i listed => ?_
      have chunk : hotChunk accesses (chunkCount address.length bits) bits i j =
          some (chunkDigit (chunkCount address.length bits) bits i word.val) := by
        rw [hotChunk, access]
        rfl
      exact hotAt_hot chunk (by
        rw [length_chunkPoint address sized.positive (mem_range.mp listed)]
        exact chunkDigit_lt _ _ _ _)

/-- The claim is the value of the grid of whole addresses. -/
theorem sum_grid (sized : Sized bits address accesses r addresses) (some_ : address ≠ []) :
    restSum (summand bits address accesses r) r.length [] =
      extension (RamRaClaimReduction.raGrid r.length accesses) (address ++ r) := by
  have column : extension (hotAt address fun cycle => (accesses.getD cycle none).map Fin.val) r =
      extension (RamRaClaimReduction.raGrid r.length accesses) (address ++ r) := extension_hotAt address _ rfl
  rw [sum_summand, ← column, extension]
  exact sum_congr rfl fun j _ => by rw [prod_raAt sized some_, mul_comm]

end

end RamRaVirtualization

open RamRaVirtualization in
/-- From the value that the claim reduction leaves of the grid of addresses, the kernel runs through all rounds with
the polynomials of the product of the chunk columns, for any width of a chunk, and returns the values of these
columns.  From any other claim it stops in the first round. -/
theorem ramRaVirtualization_correct {bits : ℕ} {address r : List Scalar} {accesses : List (Option Mont.U64)} {addresses : List ℕ}
    (sized : Sized bits address accesses r addresses) (some_ : address ≠ []) (positive : 0 < r.length) {challenges : List Scalar}
    (drawn : challenges.length = r.length) :
    ∃ kernel, RamRaVirtualizationKernel.prepare r.length (chunkCount address.length bits) address r bits addresses = .ok kernel ∧
      (∃ messages final, RamRaVirtualizationKernel.rounds.proveRounds kernel none 0
          (extension (RamRaClaimReduction.raGrid r.length accesses) (address ++ r)) challenges = .ok (messages, final) ∧
        messages.length = r.length ∧
        (∀ i message, messages[i]? = some message → IsRound (1 + chunkCount address.length bits)
          (summand bits address accesses r) (r.length - 1 - i) (challenges.take i).reverse message.polynomial) ∧
        final.outputClaims = .ok ((List.range (chunkCount address.length bits)).map fun i =>
          extension (hotGrid r.length (hotChunk accesses (chunkCount address.length bits) bits i))
            (chunkPoint address bits i ++ challenges.reverse))) ∧
      ∀ claim, claim ≠ extension (RamRaClaimReduction.raGrid r.length accesses) (address ++ r) →
        RamRaVirtualizationKernel.rounds.proveRounds kernel none 0 claim challenges = .error
          (.roundCheckFailed 0 claim (extension (RamRaClaimReduction.raGrid r.length accesses) (address ++ r))) := by
  obtain ⟨kernel, prepared, good⟩ := prepare_eq sized
  rw [← sum_grid sized some_]
  refine ⟨kernel, prepared, ?_, fun claim wrong => ?_⟩
  · obtain ⟨messages, final, ran, count, rounds, done⟩ := (serves sized).run good drawn.le fun _ _ => trivial
    rw [drawn, Nat.sub_self] at done
    exact ⟨messages, final, ran, count.trans drawn, rounds, outputClaims_eq sized done⟩
  · obtain ⟨m, free⟩ : ∃ m, r.length = m + 1 := ⟨r.length - 1, by omega⟩
    obtain ⟨challenge, rest, rfl⟩ := List.exists_cons_of_length_pos (drawn ▸ positive)
    rw [free] at good wrong ⊢
    obtain ⟨message, -, returned⟩ := message_eq sized good
    have failed : RamRaVirtualizationKernel.rounds.proveRound kernel none 0 claim =
        .error (.roundCheckFailed 0 claim (restSum (summand bits address accesses r) (m + 1) [])) :=
      (returned claim 0).trans (if_neg wrong.symm)
    rw [RoundKernel.proveRounds, failed]
    rfl

/-- Eight cycles with two accesses, three address bits in chunks of two. -/
theorem ramRaVirtualization_correct_eight : ∃ kernel messages final,
    RamRaVirtualization.RamRaVirtualizationKernel.prepare 3 2 [2, 3, 4] [5, 6, 7] 2
        [6, noAccess, 0, noAccess, noAccess, noAccess, noAccess, noAccess] = .ok kernel ∧
      RamRaVirtualization.RamRaVirtualizationKernel.rounds.proveRounds kernel none 0
        (extension (RamRaClaimReduction.raGrid 3 [some 6, none, some 0, none, none, none, none, none]) ([2, 3, 4] ++ [5, 6, 7]))
        [8, 9, 1] = .ok (messages, final) ∧ messages.length = 3 := by
  have sized : RamRaVirtualization.Sized 2 ([2, 3, 4] : List Scalar) [some 6, none, some 0, none, none, none, none, none]
      ([5, 6, 7] : List Scalar) [6, noAccess, 0, noAccess, noAccess, noAccess, noAccess, noAccess] :=
    ⟨by decide, by decide, by decide, rfl,
      by simp [RamAccessColumns.collect, RamAccessColumns.consume, RamAccessColumns.encodeAddress, noAccess], by simp⟩
  obtain ⟨kernel, prepared, ⟨messages, final, ran, number, -⟩, -⟩ := ramRaVirtualization_correct sized (List.cons_ne_nil _ _)
    (by decide) (rfl : [(8 : Scalar), 9, 1].length = [(5 : Scalar), 6, 7].length)
  exact ⟨kernel, messages, final, prepared, ran, number⟩

end JoltWasm
