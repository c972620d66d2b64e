import Mathlib.Data.Fin.VecNotation
import JoltWasm.Kernels.RegistersReduction
import JoltWasm.Lib.MatrixView
import JoltWasm.Lib.Plans

/-!
# The RAM claim-reduction kernel

Three equality weights over the cycles, combined by powers of a challenge, times the column of the weights of
the accessed addresses.  The prefix is the shorter half here, and the tables of both phases are gathered from
the accesses, in one pass or in chunks that threads merge.
-/

namespace JoltWasm

open Lib Finset

/-! ## The access columns -/

inductive AddressEncodingError where
  | tooLarge
  | sentinelCollision

def AddressEncodingError.intoKernelError : AddressEncodingError → KernelStop
  | .tooLarge => .unsupported "optimized RAM kernels require remapped addresses below 2^32 - 1"
  | .sentinelCollision => .unsupported "optimized RAM kernels reserve u32::MAX as the no-access sentinel"

namespace RamAccessColumns

/-- `NO_ACCESS`, which is `u32::MAX`. -/
def noAccess : ℕ := 2 ^ 32 - 1

def encodeAddress : Option Mont.U64 → Except AddressEncodingError ℕ
  | none => .ok noAccess
  | some address =>
      if 2 ^ 32 ≤ address.val then .error .tooLarge
      else if address.val = noAccess then .error .sentinelCollision
      else .ok address.val

/-- The addresses so far, and the first failure. -/
structure Collected where
  addresses : List ℕ
  addressError : Option AddressEncodingError

/-- One bundle of the trace. -/
def consume (collected : Collected) (address : Option Mont.U64) : Collected :=
  match encodeAddress address with
  | .ok address => { collected with addresses := collected.addresses ++ [address] }
  | .error failure => ⟨collected.addresses ++ [noAccess], collected.addressError <|> some failure⟩

/-- `collect`, as far as the addresses go. -/
def collect (accesses : List (Option Mont.U64)) : Except KernelStop (List ℕ) :=
  let collected := accesses.foldl consume ⟨[], none⟩
  match collected.addressError with
  | some failure => .error failure.intoKernelError
  | none => .ok collected.addresses

/-- The sentinel where there is no access. -/
def encoded (address : Option Mont.U64) : ℕ := address.elim noAccess Fin.val

/-- What the walk collects of addresses that can be encoded. -/
theorem collect_eq {accesses : List (Option Mont.U64)} {addresses : List ℕ}
    (collected : collect accesses = .ok addresses) :
    addresses = accesses.map encoded ∧ ∀ address, some address ∈ accesses → address.val < noAccess := by
  have walk : ∀ state : Collected, (accesses.foldl consume state).addressError = none →
      state.addressError = none ∧
        (accesses.foldl consume state).addresses = state.addresses ++ accesses.map encoded ∧
        ∀ address, some address ∈ accesses → address.val < noAccess := by
    clear collected
    induction accesses with
    | nil => exact fun state none => ⟨none, (List.append_nil _).symm, fun _ member => (List.not_mem_nil member).elim⟩
    | cons access accesses ih =>
        intro state clean
        obtain ⟨kept, walked, small⟩ := ih _ clean
        rw [List.foldl_cons, walked, List.map_cons]
        rw [consume] at kept ⊢
        cases access with
        | none =>
            refine ⟨kept, List.append_assoc _ _ _, fun address member => ?_⟩
            rcases List.mem_cons.mp member with here | later
            · cases here
            · exact small address later
        | some address =>
            by_cases large : 2 ^ 32 ≤ address.val
            · rw [encodeAddress, if_pos large] at kept
              cases earlier : state.addressError <;> rw [earlier] at kept <;> cases kept
            · by_cases sentinel : address.val = noAccess
              · rw [encodeAddress, if_neg large, if_pos sentinel] at kept
                cases earlier : state.addressError <;> rw [earlier] at kept <;> cases kept
              · rw [encodeAddress, if_neg large, if_neg sentinel] at kept ⊢
                refine ⟨kept, List.append_assoc _ _ _, fun address_ member => ?_⟩
                rcases List.mem_cons.mp member with here | later
                · obtain rfl := Option.some.inj here
                  rw [noAccess] at sentinel ⊢
                  omega
                · exact small address_ later
  rw [collect] at collected
  cases failed : (accesses.foldl consume ⟨[], none⟩).addressError with
  | some failure =>
      rw [failed] at collected
      cases collected
  | none =>
      rw [failed] at collected
      obtain ⟨-, walked, small⟩ := walk _ failed
      exact ⟨(Except.ok.inj collected).symm.trans walked, small⟩

/-- `validate_addresses`, which does not look at the sentinels. -/
def validateAddresses (addresses : List ℕ) (ramK : ℕ) : Except KernelStop Unit :=
  if addresses.any fun address => address ≠ noAccess ∧ ramK ≤ address then
    .error (.invariantViolation "RAM access address remapped beyond ram_K")
  else .ok ()

section

variable {F : Type} [Field F]

/-- `fold_addresses`. -/
def foldAddresses (addresses : List ℕ) (eqAddress : List F) : List F :=
  addresses.map fun address => if address = noAccess then 0 else eqAddress.getD address 0

end

end RamAccessColumns

open RamAccessColumns (noAccess)

namespace RamRaClaimReduction

/-- `RoundProgress`. -/
structure RoundProgress where
  bound : ℕ
  total : ℕ

namespace RoundProgress

def new (total : ℕ) : RoundProgress := ⟨0, total⟩

def advance (progress : RoundProgress) : RoundProgress := { progress with bound := progress.bound + 1 }

def requireComplete (progress : RoundProgress) : Except KernelStop Unit :=
  if progress.bound = progress.total then .ok () else .error (.notFullyBound (progress.total - progress.bound))

end RoundProgress

section

variable {F : Type} [Field F]

/-- `TERMS`. -/
abbrev terms : ℕ := 3

/-- `CHUNK`, the chunk of a thread. -/
def chunk : ℕ := 2 ^ 14

/-- The loop of both passes: each access adds its weight times the weight of its cycle at the place of its
cycle. -/
def fill (eqAddress : List F) (place : ℕ → ℕ) (weight : ℕ → F) (table : List F) (base : ℕ) (addresses : List ℕ) :
    List F :=
  addresses.zipIdx.foldl (fun table entry =>
    if entry.1 = noAccess then table
    else table.modify (place (base + entry.2)) (· + eqAddress.getD entry.1 0 * weight (base + entry.2))) table

/-- Serial, or chunk by chunk, where a plan tells how the threads share and merge the chunks. -/
def gather (plan : Option Plan) (addresses : List ℕ) (eqAddress : List F) (size : ℕ) (place : ℕ → ℕ) (weight : ℕ → F) :
    List F :=
  match plan with
  | none => fill eqAddress place weight (List.replicate size 0) 0 addresses
  | some plan => plan.reduce (fun indices => indices.foldl (fun table index => fill eqAddress place weight table
      (index * chunk) ((addresses.drop (index * chunk)).take chunk)) (List.replicate size 0))
      (List.replicate size 0) mergeVecs

/-- `build_q_tables`; the tables of the three points do not meet. -/
def buildQTables (plan : Option Plan) (addresses : List ℕ) (eqAddress : List F) (eqHi : Fin terms → List F)
    (prefixBits : ℕ) (x : Fin terms) : List F :=
  let prefixSize := 1 <<< prefixBits
  gather plan addresses eqAddress prefixSize (fun c => c &&& (prefixSize - 1)) fun c => (eqHi x).getD (c >>> prefixBits) 0

/-- `gather_h_prime`. -/
def gatherHPrime (plan : Option Plan) (addresses : List ℕ) (eqAddress eqPrefix : List F) (prefixBits suffixBits : ℕ) :
    List F :=
  let prefixSize := 1 <<< prefixBits
  gather plan addresses eqAddress (1 <<< suffixBits) (fun c => c >>> prefixBits)
    fun c => eqPrefix.getD (c &&& (prefixSize - 1)) 0

inductive Phase (F : Type) where
  /-- The tables over the prefix variables, and what the other phase needs. -/
  | prefixRounds (p q eqHi : Fin terms → List F) (addresses : List ℕ) (eqAddress : List F)
      (rCycleLo : Fin terms → List F) (challenges : List F)
  | suffixRounds (h : List F) (eqHi : Fin terms → List F) (scales : Fin terms → F)

structure RaReductionKernel (F : Type) where
  progress : RoundProgress
  prefixBits : ℕ
  gammaPowers : Fin terms → F
  phase : Phase F

/-- The points of the three claims, of an address and a cycle each. -/
structure InputPoints (F : Type) where
  raf : List F
  readWrite : List F
  valCheck : List F

namespace RaReductionKernel

/-- All weights of addresses come from the point of the read-write claim. -/
def prepare (plan : Option Plan) (logT ramLogK : ℕ) (points : InputPoints F) (gamma : F) (addresses : List ℕ) :
    Except KernelStop (RaReductionKernel F) :=
  if points.raf.length ≠ ramLogK + logT ∨ points.readWrite.length ≠ ramLogK + logT ∨
      points.valCheck.length ≠ ramLogK + logT then
    .error (.invariantViolation "RAM RA claim-reduction input point has the wrong variable count")
  else if addresses.length ≠ 1 <<< logT then
    .error (.tableSizeMismatch "session-shared RAM access columns" (1 <<< logT) addresses.length)
  else do
    RamAccessColumns.validateAddresses addresses (1 <<< ramLogK)
    let eqAddress := EqPolynomial.evals (points.readWrite.take ramLogK) none
    let prefixBits := logT / 2
    let suffixBits := logT - prefixBits
    let cyclePoints : Fin terms → List F :=
      ![points.raf.drop ramLogK, points.readWrite.drop ramLogK, points.valCheck.drop ramLogK]
    let eqHi (x : Fin terms) := EqPolynomial.evals ((cyclePoints x).take suffixBits) none
    return {
      progress := .new logT
      prefixBits := prefixBits
      gammaPowers := ![1, gamma, gamma * gamma]
      phase :=
        if prefixBits = 0 then .suffixRounds (RamAccessColumns.foldAddresses addresses eqAddress) eqHi fun _ => 1
        else .prefixRounds (fun x => EqPolynomial.evals ((cyclePoints x).drop suffixBits) none)
          (buildQTables plan addresses eqAddress eqHi prefixBits) eqHi addresses eqAddress
          (fun x => (cyclePoints x).drop suffixBits) [] }

/-- The other phase, where the weights of the bound prefix are constants. -/
def transitionToSuffix (plan : Option Plan) (kernel : RaReductionKernel F) : Option (RaReductionKernel F) :=
  match kernel.phase with
  | .prefixRounds _ _ eqHi addresses eqAddress rCycleLo challenges => do
      let rPrefix := challenges.reverse
      let eqPrefix := EqPolynomial.evals rPrefix none
      let h := gatherHPrime plan addresses eqAddress eqPrefix kernel.prefixBits
        (kernel.progress.total - kernel.prefixBits)
      let scales ← (List.finRange terms).mapM fun x => EqPolynomial.mle (rCycleLo x) rPrefix
      return { kernel with phase := .suffixRounds h eqHi fun x => scales.getD x 0 }
  -- an assertion in debug builds
  | .suffixRounds _ _ _ => some { kernel with phase := .suffixRounds [] (fun _ => []) fun _ => 1 }

def bind (plan : Option Plan) (kernel : RaReductionKernel F) (r : F) : Except KernelStop (RaReductionKernel F) :=
  let kernel := { kernel with progress := kernel.progress.advance }
  match kernel.phase with
  | .prefixRounds p q eqHi addresses eqAddress rCycleLo challenges =>
      let phase : Phase F := .prefixRounds (fun x => bindPairs (p x) r) (fun x => bindPairs (q x) r) eqHi addresses
        eqAddress rCycleLo (challenges ++ [r])
      if (bindPairs (p 0) r).length = 1 then KernelStop.orPanic (transitionToSuffix plan { kernel with phase := phase })
      else .ok { kernel with phase := phase }
  | .suffixRounds h eqHi scales =>
      .ok { kernel with phase := .suffixRounds (bindPairs h r) (fun x => bindPairs (eqHi x) r) scales }

/-- The values at zero and two. -/
def messageEvals (kernel : RaReductionKernel F) : F × F :=
  match kernel.phase with
  | .prefixRounds p q _ _ _ _ _ => (List.finRange terms).foldl (fun evals x =>
      let sum := (List.range ((p x).length / 2)).foldl (fun sum y =>
        let (p0, p1) := ((p x).getD (2 * y) 0, (p x).getD (2 * y + 1) 0)
        let (q0, q1) := ((q x).getD (2 * y) 0, (q x).getD (2 * y + 1) 0)
        (sum.1 + p0 * q0, sum.2 + (p1 + p1 - p0) * (q1 + q1 - q0))) (0, 0)
      (evals.1 + kernel.gammaPowers x * sum.1, evals.2 + kernel.gammaPowers x * sum.2)) (0, 0)
  | .suffixRounds h eqHi scales =>
      let coeff (x : Fin terms) := kernel.gammaPowers x * scales x
      (List.range (h.length / 2)).foldl (fun evals y =>
        let (h0, h1) := (h.getD (2 * y) 0, h.getD (2 * y + 1) 0)
        let eq := (List.finRange terms).foldl (fun eq x =>
          let (e0, e1) := ((eqHi x).getD (2 * y) 0, (eqHi x).getD (2 * y + 1) 0)
          (eq.1 + coeff x * e0, eq.2 + coeff x * (e1 + e1 - e0))) (0, 0)
        (evals.1 + h0 * eq.1, evals.2 + (h1 + h1 - h0) * eq.2)) (0, 0)

/-- The part of `prove_round` after the bind. -/
def message [DecidableEq F] (kernel : RaReductionKernel F) (_round : ℕ) (previousClaim : F) :
    Except KernelStop (UnivariatePoly F × RaReductionKernel F) := do
  let evals := kernel.messageEvals
  let message ← KernelStop.orPanic (UnivariatePoly.fromEvalsAndHint previousClaim [evals.1, evals.2])
  return (message, kernel)

def rounds [DecidableEq F] (plan : Option Plan) : RoundKernel F (RaReductionKernel F) KernelStop :=
  ⟨bind plan, message⟩

def outputClaims (kernel : RaReductionKernel F) : Except KernelStop F := do
  kernel.progress.requireComplete
  match kernel.phase with
  | .suffixRounds h _ _ => KernelStop.orPanic h[0]?
  | .prefixRounds _ _ _ _ _ _ _ =>
      .error (.invariantViolation "RAM RA claim-reduction fully bound but still in the prefix phase")

end RaReductionKernel

/-! ## The gathered tables -/

/-- The weight of the address of a cycle. -/
def addressWeight (addresses : List ℕ) (eqAddress : List F) (c : ℕ) : F :=
  if addresses.getD c noAccess = noAccess then 0 else eqAddress.getD (addresses.getD c noAccess) 0

/-- The plan covers the chunks of all cycles. -/
def Shares (plan : Option Plan) (cycles : ℕ) : Prop := ∀ p ∈ plan, p.Covers ((cycles + chunk - 1) / chunk)

section

variable (eqAddress : List F) (place : ℕ → ℕ) (weight : ℕ → F)

/-- What an address adds. -/
def updates (address c : ℕ) : List (ℕ × F) :=
  if address = noAccess then [] else [(place c, eqAddress.getD address 0 * weight c)]

theorem fill_eq (table : List F) (base : ℕ) (addresses : List ℕ) :
    fill eqAddress place weight table base addresses = scatter table ((List.range addresses.length).flatMap fun i =>
      updates eqAddress place weight (addresses.getD i noAccess) (base + i)) := by
  have positions : addresses.zipIdx = (List.range addresses.length).map fun i => (addresses.getD i noAccess, i) := by
    refine List.ext_getElem (by simp) fun i inside _ => ?_
    rw [List.length_zipIdx] at inside
    rw [List.getElem_zipIdx, List.getElem_map, List.getElem_range, List.getD_eq_getElem _ _ inside, Nat.zero_add]
  rw [fill, positions, List.foldl_map, ← foldl_scatter]
  refine List.foldl_ext _ _ _ fun table i _ => ?_
  dsimp only
  rw [updates]
  split_ifs <;> rfl

theorem mergeVecs_scatter (size : ℕ) (first second : List (ℕ × F)) :
    mergeVecs (scatter (List.replicate size 0) first) (scatter (List.replicate size 0) second) =
      scatter (List.replicate size 0) (first ++ second) := by
  rw [scatter_eq_map, scatter_eq_map, scatter_eq_map, mergeVecs_map]
  exact List.map_congr_left fun i _ => (hits_append _ _ i).symm

/-- The chunks make up the cycles. -/
theorem updates_chunks (addresses : List ℕ) :
    ((List.range ((addresses.length + chunk - 1) / chunk)).flatMap fun index =>
      (List.range ((addresses.drop (index * chunk)).take chunk).length).flatMap fun i =>
        updates eqAddress place weight (((addresses.drop (index * chunk)).take chunk).getD i noAccess)
          (index * chunk + i)) =
      (List.range addresses.length).flatMap fun c => updates eqAddress place weight (addresses.getD c noAccess) c := by
  have positive : 0 < chunk := by decide
  rw [range_chunks positive addresses.length, List.flatMap_assoc]
  refine List.flatMap_congr fun index _ => ?_
  rw [List.flatMap_map, List.length_take, List.length_drop]
  refine List.flatMap_congr fun i member => ?_
  have inside := List.mem_range.mp member
  rw [List.getD_eq_getElem _ _ (by rw [List.length_take, List.length_drop]; exact inside), List.getElem_take,
    List.getElem_drop, List.getD_eq_getElem _ _ (by omega)]

/-- Whatever the plan, a place has the sum over its cycles. -/
theorem gather_eq {plan : Option Plan} {addresses : List ℕ} (shares : Shares plan addresses.length) (size : ℕ) :
    gather plan addresses eqAddress size place weight = (List.range size).map fun i =>
      ∑ c ∈ range addresses.length, if place c = i then addressWeight addresses eqAddress c * weight c else 0 := by
  have total : gather plan addresses eqAddress size place weight = scatter (List.replicate size 0)
      ((List.range addresses.length).flatMap fun c => updates eqAddress place weight (addresses.getD c noAccess) c) := by
    cases plan with
    | none =>
        have whole := fill_eq eqAddress place weight (List.replicate size 0) 0 addresses
        simp only [Nat.zero_add] at whole
        exact whole
    | some plan =>
        have chunks (indices : List ℕ) (table : List F) := foldl_scatter (fun index =>
          (List.range ((addresses.drop (index * chunk)).take chunk).length).flatMap fun i =>
            updates eqAddress place weight (((addresses.drop (index * chunk)).take chunk).getD i noAccess)
              (index * chunk + i)) indices table
        rw [gather]
        simp only [fill_eq, chunks]
        refine (Plan.reduce_eq rfl (fun first second => ?_) plan).trans ?_
        · rw [mergeVecs_scatter, List.flatMap_append]
        · rw [shares plan rfl, updates_chunks]
  rw [total, scatter_eq_map]
  refine List.map_congr_left fun i _ => ?_
  rw [hits_flatMap]
  refine congrArg List.sum (List.map_congr_left fun c _ => ?_)
  rw [updates, addressWeight]
  split_ifs with none here here
  · rw [hits_nil, zero_mul]
  · rw [hits_nil]
  · rw [hits_singleton, if_pos here]
  · rw [hits_singleton, if_neg here]

end

section

variable {plan : Option Plan} {addresses : List ℕ} {a b : ℕ}

/-- The low and the high bits of a cycle. -/
theorem cycle_parts (hi : ℕ) {lo : ℕ} (small : lo < 2 ^ b) :
    (hi * 2 ^ b + lo) &&& (2 ^ b - 1) = lo ∧ (hi * 2 ^ b + lo) >>> b = hi := by
  rw [Nat.and_two_pow_sub_one_eq_mod, Nat.shiftRight_eq_div_pow, Nat.mul_comm, Nat.mul_add_mod, Nat.mod_eq_of_lt small,
    Nat.mul_add_div (Nat.two_pow_pos b), Nat.div_eq_of_lt small, Nat.add_zero]
  exact ⟨rfl, rfl⟩

theorem foldAddresses_eq (all : addresses.length = 2 ^ a) (eqAddress : List F) :
    RamAccessColumns.foldAddresses addresses eqAddress =
      tabulated (extension (addressWeight addresses eqAddress)) [] a [] := by
  rw [tabulated_nil, listed, RamAccessColumns.foldAddresses]
  refine List.ext_getElem (by simp [all]) fun i inside _ => ?_
  rw [List.length_map] at inside
  rw [List.getElem_map, List.getElem_map, List.getElem_range, extension_bitPoint _ (by rwa [← all]), addressWeight,
    List.getD_eq_getElem _ _ inside]

theorem buildQTables_eq (all : addresses.length = 2 ^ (a + b)) (shares : Shares plan addresses.length)
    (eqAddress : List F) {point : List F} (size : point.length = a) (x : Fin terms) {eqHi : Fin terms → List F}
    (suffix : eqHi x = EqPolynomial.evals point none) : buildQTables plan addresses eqAddress eqHi b x =
      tabulated (suffixSum a (equal point) (extension (addressWeight addresses eqAddress))) [] b [] := by
  rw [buildQTables, gather_eq _ _ _ shares, Nat.one_shiftLeft, tabulated_nil, listed]
  refine List.map_congr_left fun i member => ?_
  have inside := List.mem_range.mp member
  rw [all, pow_add, sum_range_mul, suffixSum_bits _ _ _ inside]
  refine sum_congr rfl fun hi memberHi => ?_
  have below := mem_range.mp memberHi
  rw [sum_eq_single_of_mem i (mem_range.mpr inside) fun lo memberLo other => if_neg (by
    rw [(cycle_parts hi (mem_range.mp memberLo)).1]
    exact other), if_pos (cycle_parts hi inside).1, (cycle_parts hi inside).2, suffix, EqPolynomial.evals_eq, Option.getD_none,
    EqPolynomial.getD_table _ _ (by rwa [size]), one_mul, mul_comm, equal, ← size, extension_bitPoint _ (by rwa [size])]

theorem gatherHPrime_eq (all : addresses.length = 2 ^ (a + b)) (shares : Shares plan addresses.length)
    (eqAddress : List F) {low : List F} (size : low.length = b) :
    gatherHPrime plan addresses eqAddress (EqPolynomial.evals low none) b a =
      tabulated (extension (addressWeight addresses eqAddress)) [] a low := by
  rw [gatherHPrime, gather_eq _ _ _ shares, Nat.one_shiftLeft, Nat.one_shiftLeft, tabulated, listed]
  refine List.map_congr_left fun i member => ?_
  have inside := List.mem_range.mp member
  rw [List.nil_append, extension_chunk _ inside, size, all, pow_add, sum_range_mul, extension, size]
  rw [sum_eq_single_of_mem i (mem_range.mpr inside) fun hi _ other => sum_eq_zero fun lo memberLo => if_neg (by
    rw [(cycle_parts hi (mem_range.mp memberLo)).2]
    exact other)]
  refine sum_congr rfl fun lo memberLo => ?_
  have small := mem_range.mp memberLo
  rw [if_pos (cycle_parts i small).2, (cycle_parts i small).1, EqPolynomial.evals_eq, Option.getD_none,
    EqPolynomial.getD_table _ _ (by rwa [size]), one_mul]

end

/-! ## The summand -/

/-- The equality weights of the three points, combined. -/
def pointsWeight (points : Fin terms → List F) (γ : F) (x : List F) : F :=
  ∑ i : Fin terms, γ ^ (i : ℕ) * equal (points i) x

/-- The weights times the column of the accessed addresses. -/
def summand (points : Fin terms → List F) (γ : F) (value : ℕ → F) (x : List F) : F :=
  pointsWeight points γ x * extension value x

theorem gammaPowers_eq (γ : F) : (![1, γ, γ * γ] : Fin terms → F) = fun i : Fin terms => γ ^ (i : ℕ) := by
  funext i
  fin_cases i
  · exact (pow_zero γ).symm
  · exact (pow_one γ).symm
  · exact (pow_two γ).symm

variable {points : Fin terms → List F} {n : ℕ}

/-- Each point splits into the coordinates of the suffix and of the prefix. -/
theorem equal_split (lengths : ∀ x, (points x).length = n) (x : Fin terms) {high low : List F}
    (size : high.length = n - n / 2) (size' : low.length = n / 2) : equal (points x) (high ++ low) =
      equal ((points x).drop (n - n / 2)) low * equal ((points x).take (n - n / 2)) high := by
  have whole := @equal_append F _ ((points x).take (n - n / 2)) ((points x).drop (n - n / 2)) high low
    (by rw [List.length_take, lengths x, size]; omega) (by rw [List.length_drop, lengths x, size']; omega)
  rwa [List.take_append_drop, mul_comm] at whole

theorem splits (lengths : ∀ x, (points x).length = n) (γ : F) : Splits univ
    (fun (x : Fin terms) low => γ ^ (x : ℕ) * equal ((points x).drop (n - n / 2)) low) (fun x => equal ((points x).take (n - n / 2)))
    (n - n / 2) (n / 2) (pointsWeight points γ) where
  split := fun high low size size' => by
    rw [pointsWeight]
    refine sum_congr rfl fun x _ => ?_
    rw [equal_split lengths x size size', mul_assoc]

theorem multilinear_pointsWeight (points : Fin terms → List F) (γ : F) : Multilinear (pointsWeight points γ) :=
  Multilinear.sum fun i _ => (multilinear_equal (points i)).const_mul (γ ^ (i : ℕ))

theorem degreeIn_summand (points : Fin terms → List F) (γ : F) (value : ℕ → F) : DegreeIn 2 (summand points γ value) :=
  (multilinear_pointsWeight points γ).degreeIn.mul (multilinear_extension value).degreeIn

/-- The claim: the weights over the cycles. -/
theorem sum_summand (points : Fin terms → List F) (n : ℕ) (γ : F) (value : ℕ → F) :
    restSum (summand points γ value) n [] =
      ∑ j ∈ range (2 ^ n), (∑ x : Fin terms, γ ^ (x : ℕ) * eqWeight (points x) j) * value j := by
  rw [restSum, cubeSum_eq_sum]
  refine sum_congr rfl fun j member => ?_
  have inside := mem_range.mp member
  have entry (x : Fin terms) : equal (points x) (bitPoint F n j) = eqWeight (points x) j := extension_bitPoint _ inside
  rw [List.append_nil, summand, pointsWeight, extension_bitPoint _ inside]
  simp only [entry]

/-! ## The state in step with the challenges -/

/-- The coordinates `low` are bound, and `m` are free. -/
structure Good (r : Fin terms → List F) (n : ℕ) (γ : F) (cycles : List ℕ) (weights : List F)
    (kernel : RaReductionKernel F) (m : ℕ) (low : List F) : Prop where
  free : m + low.length = n
  progress : kernel.progress = ⟨low.length, n⟩
  prefixBits : kernel.prefixBits = n / 2
  gammaPowers : kernel.gammaPowers = fun x : Fin terms => γ ^ (x : ℕ)
  phase : (∃ k, m = n - n / 2 + (k + 1) ∧ kernel.phase = .prefixRounds
      (fun x => tabulated (equal ((r x).drop (n - n / 2))) [] (k + 1) low)
      (fun x => tabulated (suffixSum (n - n / 2) (equal ((r x).take (n - n / 2)))
        (extension (addressWeight cycles weights))) [] (k + 1) low)
      (fun x => EqPolynomial.evals ((r x).take (n - n / 2)) none) cycles weights
      (fun x => (r x).drop (n - n / 2)) low.reverse) ∨
    ∃ first bound, low = first ++ bound ∧ bound.length = n / 2 ∧ m + first.length = n - n / 2 ∧
      kernel.phase = .suffixRounds (tabulated (extension (addressWeight cycles weights)) [] m low)
        (fun x => tabulated (equal ((r x).take (n - n / 2))) [] m first)
        fun x => equal ((r x).drop (n - n / 2)) bound

/-- The suffix tables start at all suffix coordinates. -/
theorem suffixTable_eq (lengths : ∀ x, (points x).length = n) (x : Fin terms) :
    EqPolynomial.evals ((points x).take (n - n / 2)) none =
      tabulated (equal ((points x).take (n - n / 2))) [] (n - n / 2) [] := by
  have size : ((points x).take (n - n / 2)).length = n - n / 2 := by
    rw [List.length_take, lengths x]
    omega
  rw [EqPolynomial.evals_eq, Option.getD_none, table_eq_tabulated, size]

variable {plan : Option Plan} {addresses : List ℕ} {eqAddress : List F}

theorem transitionToSuffix_eq (lengths : ∀ x, (points x).length = n) (all : addresses.length = 2 ^ n)
    (shares : Shares plan addresses.length) {γ : F} {p q : Fin terms → List F} {kernel : RaReductionKernel F} {low : List F}
    (bound : low.length = n / 2) (progress : kernel.progress = ⟨low.length, n⟩) (bits : kernel.prefixBits = n / 2)
    (powers : kernel.gammaPowers = fun x : Fin terms => γ ^ (x : ℕ))
    (phase : kernel.phase = .prefixRounds p q (fun x => EqPolynomial.evals ((points x).take (n - n / 2)) none) addresses
      eqAddress (fun x => (points x).drop (n - n / 2)) low.reverse) :
    ∃ next, RaReductionKernel.transitionToSuffix plan kernel = some next ∧
      Good points n γ addresses eqAddress next (n - n / 2) low := by
  have whole : n - n / 2 + n / 2 = n := by omega
  have scales : (List.finRange terms).mapM (fun x => EqPolynomial.mle ((points x).drop (n - n / 2)) low) =
      some ((List.finRange terms).map fun x => equal ((points x).drop (n - n / 2)) low) := by
    refine UnivariatePoly.mapM_some fun x _ => ?_
    have same : ((points x).drop (n - n / 2)).length = low.length := by
      rw [List.length_drop, lengths x, bound]
      omega
    rw [EqPolynomial.mle, if_pos same, eqMle_eq same, equal]
  refine ⟨{ kernel with
    phase := .suffixRounds (tabulated (extension (addressWeight addresses eqAddress)) [] (n - n / 2) low)
      (fun x => tabulated (equal ((points x).take (n - n / 2))) [] (n - n / 2) [])
      fun x => equal ((points x).drop (n - n / 2)) low }, ?_, by omega, progress, bits, powers,
    .inr ⟨[], low, rfl, bound, rfl, rfl⟩⟩
  have entry (x : Fin terms) : ((List.finRange terms).map fun x => equal ((points x).drop (n - n / 2)) low).getD x 0 =
      equal ((points x).drop (n - n / 2)) low := by
    rw [List.getD_eq_getElem _ _ (by rw [List.length_map, List.length_finRange]; exact x.isLt), List.getElem_map,
      List.getElem_finRange]
    rfl
  rw [RaReductionKernel.transitionToSuffix, phase]
  simp only [List.reverse_reverse, bits, progress, scales, Option.bind_eq_bind, Option.bind_some]
  rw [gatherHPrime_eq (by rw [all, whole]) shares eqAddress bound]
  simp only [entry, suffixTable_eq lengths]
  rfl

theorem bind_eq (lengths : ∀ x, (points x).length = n) (all : addresses.length = 2 ^ n)
    (shares : Shares plan addresses.length) {γ : F} {kernel : RaReductionKernel F} {m : ℕ} {low : List F}
    (good : Good points n γ addresses eqAddress kernel (m + 1) low) (challenge : F) :
    ∃ next, RaReductionKernel.bind plan kernel challenge = .ok next ∧
      Good points n γ addresses eqAddress next m (challenge :: low) := by
  have free : m + (challenge :: low).length = n := by rw [List.length_cons, ← good.free]; omega
  have advanced : kernel.progress.advance = ⟨(challenge :: low).length, n⟩ := by
    rw [good.progress, RoundProgress.advance, List.length_cons]
  have drawn : low.reverse ++ [challenge] = (challenge :: low).reverse := List.reverse_cons.symm
  have value := multilinear_extension (addressWeight addresses eqAddress)
  rcases good.phase with ⟨k, left, phase⟩ | ⟨first, bound, rfl, size, left, phase⟩
  · rw [RaReductionKernel.bind]
    simp only [phase, drawn, bindPairs_tabulated (multilinear_equal _),
      bindPairs_tabulated (multilinear_suffixSum _ _ value), length_tabulated]
    cases k with
    | zero =>
        -- the last prefix variable
        obtain rfl : m = n - n / 2 := by omega
        rw [if_pos (pow_zero 2)]
        obtain ⟨next, moved, kept⟩ := @transitionToSuffix_eq _ _ points n plan addresses eqAddress lengths all shares γ _ _
          { kernel with
            progress := kernel.progress.advance
            phase := .prefixRounds (fun x => tabulated (equal ((points x).drop (n - n / 2))) [] 0 (challenge :: low))
              (fun x => tabulated (suffixSum (n - n / 2) (equal ((points x).take (n - n / 2)))
                (extension (addressWeight addresses eqAddress))) [] 0 (challenge :: low))
              (fun x => EqPolynomial.evals ((points x).take (n - n / 2)) none) addresses eqAddress
              (fun x => (points x).drop (n - n / 2)) (challenge :: low).reverse }
          (challenge :: low) (by omega) advanced good.prefixBits good.gammaPowers rfl
        refine ⟨next, ?_, kept⟩
        rw [moved, KernelStop.orPanic_some]
    | succ k =>
        have some_ : 2 ^ (k + 1) ≠ 1 := by
          have := Nat.two_pow_pos k
          rw [pow_succ]
          omega
        rw [if_neg some_]
        exact ⟨_, rfl, free, advanced, good.prefixBits, good.gammaPowers, .inl ⟨k, by omega, rfl⟩⟩
  · rw [RaReductionKernel.bind]
    simp only [phase, bindPairs_tabulated (multilinear_equal _), bindPairs_tabulated value]
    exact ⟨_, rfl, free, advanced, good.prefixBits, good.gammaPowers, .inr ⟨challenge :: first, bound, rfl, size,
      by rw [List.length_cons]; omega, rfl⟩⟩

/-! ## The rounds -/

/-- Folds that add two values for each item. -/
theorem foldl_both {ι : Type} (items : List ι) (first second : ι → F) :
    items.foldl (fun sum i => (sum.1 + first i, sum.2 + second i)) (0, 0) =
      ((items.map first).sum, (items.map second).sum) := by
  induction items using List.reverseRecOn with
  | nil => rfl
  | append_singleton items i ih => rw [List.foldl_append, ih]; simp

/-- The values at zero and two of a round. -/
theorem messageEvals_eq (lengths : ∀ x, (points x).length = n) {γ : F} {kernel : RaReductionKernel F} {m : ℕ}
    {low : List F} (good : Good points n γ addresses eqAddress kernel (m + 1) low) : kernel.messageEvals =
      (restSum (summand points γ (addressWeight addresses eqAddress)) m (0 :: low),
        restSum (summand points γ (addressWeight addresses eqAddress)) m (2 :: low)) := by
  have value := multilinear_extension (addressWeight addresses eqAddress)
  have free := good.free
  rcases good.phase with ⟨k, left, phase⟩ | ⟨first, bound, rfl, size, left, phase⟩
  · obtain rfl : m = n - n / 2 + k := by omega
    have round (t : F) : restSum (summand points γ (addressWeight addresses eqAddress)) (n - n / 2 + k) (t :: low) =
        ∑ x : Fin terms, γ ^ (x : ℕ) * ((List.range (2 ^ k)).map fun y =>
          equal ((points x).drop (n - n / 2)) (bitPoint F k y ++ t :: low) *
            suffixSum (n - n / 2) (equal ((points x).take (n - n / 2))) (extension (addressWeight addresses eqAddress))
              (bitPoint F k y ++ t :: low)).sum := by
      refine ((splits lengths γ).restSum_before _ (by rw [List.length_cons]; omega)).trans ?_
      rw [restSum, cubeSum_eq_sum, sum_comm]
      refine sum_congr rfl fun x _ => ?_
      simp only [mul_assoc]
      exact (mul_sum _ _ _).symm
    rw [RaReductionKernel.messageEvals, phase, round, round]
    simp only [length_tabulated, half_pow_succ, foldl_both, good.gammaPowers, ← Fin.sum_univ_def]
    refine congrArg₂ Prod.mk
      (sum_congr rfl fun x _ => congrArg (γ ^ (x : ℕ) * ·) (congrArg List.sum (List.map_congr_left fun y member => ?_)))
      (sum_congr rfl fun x _ => congrArg (γ ^ (x : ℕ) * ·) (congrArg List.sum (List.map_congr_left fun y member => ?_)))
    all_goals
      obtain ⟨p0, p2⟩ := pair_tabulated (multilinear_equal ((points x).drop (n - n / 2))) (List.mem_range.mp member) low
      obtain ⟨q0, q2⟩ := pair_tabulated (multilinear_suffixSum (n - n / 2) (equal ((points x).take (n - n / 2))) value)
        (List.mem_range.mp member) low
    · rw [p0, q0]
    · rw [p2, q2]
  · have round (t : F) : restSum (summand points γ (addressWeight addresses eqAddress)) m (t :: (first ++ bound)) =
        ((List.range (2 ^ m)).map fun y => extension (addressWeight addresses eqAddress)
            (bitPoint F m y ++ t :: (first ++ bound)) *
          ∑ x : Fin terms, γ ^ (x : ℕ) * equal ((points x).drop (n - n / 2)) bound *
            equal ((points x).take (n - n / 2)) (bitPoint F m y ++ t :: first)).sum := by
      rw [restSum, cubeSum_eq_sum]
      refine congrArg List.sum (List.map_congr_left fun y _ => ?_)
      have parts : bitPoint F m y ++ t :: (first ++ bound) = (bitPoint F m y ++ t :: first) ++ bound := by simp
      rw [summand, pointsWeight, mul_comm, parts]
      refine congrArg _ (sum_congr rfl fun x _ => ?_)
      rw [equal_split lengths x (by rw [List.length_append, length_bitPoint, List.length_cons]; omega) size, mul_assoc]
    rw [RaReductionKernel.messageEvals, phase, round, round]
    simp only [length_tabulated, half_pow_succ, foldl_both, good.gammaPowers, ← Fin.sum_univ_def]
    refine congrArg₂ Prod.mk (congrArg List.sum (List.map_congr_left fun y member => ?_))
      (congrArg List.sum (List.map_congr_left fun y member => ?_))
    all_goals
      obtain ⟨h0, h2⟩ := pair_tabulated value (List.mem_range.mp member) (first ++ bound)
      have pairs (x : Fin terms) :=
        pair_tabulated (multilinear_equal ((points x).take (n - n / 2))) (List.mem_range.mp member) first
    · rw [h0]
      simp only [fun x => (pairs x).1]
    · rw [h2]
      simp only [fun x => (pairs x).2]

section

variable [DecidableEq F]

theorem message_eq (lengths : ∀ x, (points x).length = n) {γ : F} {kernel : RaReductionKernel F} {m : ℕ} {low : List F}
    (good : Good points n γ addresses eqAddress kernel (m + 1) low) (round : ℕ) (claim : F) (message : UnivariatePoly F)
    (found : UnivariatePoly.fromEvalsAndHint claim
      [restSum (summand points γ (addressWeight addresses eqAddress)) m (0 :: low),
        restSum (summand points γ (addressWeight addresses eqAddress)) m (2 :: low)] = some message) :
    RaReductionKernel.message kernel round claim = .ok (message, kernel) := by
  rw [RaReductionKernel.message, messageEvals_eq lengths good]
  simp only [found, KernelStop.orPanic_some, KernelStop.ok_bind]
  rfl

/-- The kernel serves the summand, from whatever claim. -/
theorem serves (distinct : UnivariatePoly.DistinctNodes F 3) (lengths : ∀ x, (points x).length = n)
    (all : addresses.length = 2 ^ n) (shares : Shares plan addresses.length) (γ excess : F) :
    (RaReductionKernel.rounds plan).Serves 2 (drifted (summand points γ (addressWeight addresses eqAddress)) excess)
      (Good points n γ addresses eqAddress) fun _ _ => True := by
  refine RoundKernel.Serves.ofHint distinct (degreeIn_summand points γ _) ?_ ?_ excess
  · intro state m low good challenge
    exact bind_eq lengths all shares good challenge
  · intro state m low good _ round claim message found
    exact ⟨state, message_eq lengths good round claim message found, good⟩

end

theorem outputClaims_eq {γ : F} {kernel : RaReductionKernel F} {point : List F}
    (good : Good points n γ addresses eqAddress kernel 0 point) :
    kernel.outputClaims = .ok (extension (addressWeight addresses eqAddress) point) := by
  have complete : kernel.progress.requireComplete = .ok () := by
    have count := good.free
    rw [Nat.zero_add] at count
    rw [good.progress, RoundProgress.requireComplete, if_pos count]
  rcases good.phase with ⟨k, left, -⟩ | ⟨first, bound, rfl, -, -, phase⟩
  · omega
  · rw [RaReductionKernel.outputClaims, complete, KernelStop.ok_bind, phase]
    rfl

/-- The cycle coordinates of the three points. -/
def cyclePoints (ramLogK : ℕ) (points : InputPoints F) : Fin terms → List F :=
  ![points.raf.drop ramLogK, points.readWrite.drop ramLogK, points.valCheck.drop ramLogK]

/-- All three points have an address and a cycle. -/
structure InputPoints.Sized (points : InputPoints F) (length : ℕ) : Prop where
  raf : points.raf.length = length
  readWrite : points.readWrite.length = length
  valCheck : points.valCheck.length = length

omit [Field F] in
theorem length_cyclePoints {points : InputPoints F} {ramLogK logT : ℕ} (sized : points.Sized (ramLogK + logT))
    (x : Fin terms) : (cyclePoints ramLogK points x).length = logT := by
  fin_cases x
  · exact List.length_drop.trans (by rw [sized.raf, Nat.add_sub_cancel_left])
  · exact List.length_drop.trans (by rw [sized.readWrite, Nat.add_sub_cancel_left])
  · exact List.length_drop.trans (by rw [sized.valCheck, Nat.add_sub_cancel_left])

theorem prepare_eq {points : InputPoints F} {ramLogK logT : ℕ} (sized : points.Sized (ramLogK + logT))
    (all : addresses.length = 2 ^ logT) (below : ∀ address ∈ addresses, address ≠ noAccess → address < 2 ^ ramLogK)
    (shares : Shares plan addresses.length) (γ : F) :
    ∃ kernel, RaReductionKernel.prepare plan logT ramLogK points γ addresses = .ok kernel ∧
      Good (cyclePoints ramLogK points) logT γ addresses (EqPolynomial.evals (points.readWrite.take ramLogK) none)
        kernel logT [] := by
  have lengths := length_cyclePoints sized
  have valid : RamAccessColumns.validateAddresses addresses (1 <<< ramLogK) = .ok () := by
    rw [RamAccessColumns.validateAddresses, if_neg]
    rw [Nat.one_shiftLeft, List.any_eq_true]
    rintro ⟨address, member, bad⟩
    obtain ⟨access, large⟩ := of_decide_eq_true bad
    exact absurd (below address member access) (not_lt.mpr large)
  have checks : ¬(points.raf.length ≠ ramLogK + logT ∨ points.readWrite.length ≠ ramLogK + logT ∨
      points.valCheck.length ≠ ramLogK + logT) := by
    simp [sized.raf, sized.readWrite, sized.valCheck]
  have number : ¬addresses.length ≠ 1 <<< logT := by rw [Nat.one_shiftLeft]; exact not_not.mpr all
  rw [RaReductionKernel.prepare, if_neg checks, if_neg number, valid, KernelStop.ok_bind]
  refine ⟨_, rfl, Nat.add_zero _, rfl, rfl, gammaPowers_eq γ, ?_⟩
  by_cases short : logT / 2 = 0
  · refine .inr ⟨[], [], rfl, short.symm, by rw [short]; rfl, ?_⟩
    have tables (x : Fin terms) := suffixTable_eq lengths x
    have one (x : Fin terms) : equal ((cyclePoints ramLogK points x).drop (logT - logT / 2)) ([] : List F) = 1 := by
      rw [List.drop_of_length_le (by rw [lengths x, short]; omega)]
      exact equal_nil
    simp only [if_pos short, foldAddresses_eq all, one]
    simp only [short, Nat.sub_zero] at tables ⊢
    exact congrArg (fun table => Phase.suffixRounds _ table _) (funext tables)
  · refine .inl ⟨logT / 2 - 1, by omega, ?_⟩
    have whole : logT / 2 - 1 + 1 = logT / 2 := by omega
    have bits : addresses.length = 2 ^ (logT - logT / 2 + logT / 2) := by rw [all]; congr 1; omega
    have size (x : Fin terms) : ((cyclePoints ramLogK points x).take (logT - logT / 2)).length = logT - logT / 2 := by
      rw [List.length_take, lengths x]
      omega
    have size' (x : Fin terms) : ((cyclePoints ramLogK points x).drop (logT - logT / 2)).length = logT / 2 := by
      rw [List.length_drop, lengths x]
      omega
    have p (x : Fin terms) : EqPolynomial.evals ((cyclePoints ramLogK points x).drop (logT - logT / 2)) none =
        tabulated (equal ((cyclePoints ramLogK points x).drop (logT - logT / 2))) [] (logT / 2) [] := by
      rw [EqPolynomial.evals_eq, Option.getD_none, table_eq_tabulated, size']
    rw [whole]
    simp only [if_neg short]
    refine congrArg₂ (fun p q => Phase.prefixRounds p q _ _ _ _ _) (funext p) (funext fun x => ?_)
    exact buildQTables_eq bits shares _ (size x) x rfl

end

/-! ## The column of the accesses -/

section

variable {F : Type} [Field F]

/-- The row of a cycle has a one at its address. -/
def raEntry (accesses : List (Option Mont.U64)) (cycle address : ℕ) : F :=
  if (accesses.getD cycle none).map Fin.val = some address then 1 else 0

/-- The grid of addresses by cycles. -/
def raGrid (logT : ℕ) (accesses : List (Option Mont.U64)) (place : ℕ) : F :=
  raEntry accesses (place % 2 ^ logT) (place / 2 ^ logT)

/-- The grid, folded over the addresses. -/
def raAt (rAddress : List F) (accesses : List (Option Mont.U64)) (cycle : ℕ) : F :=
  ∑ k ∈ range (2 ^ rAddress.length), eqWeight rAddress k * raEntry accesses cycle k

theorem extension_raAt {logT : ℕ} (rAddress : List F) (accesses : List (Option Mont.U64)) {point : List F}
    (length : point.length = logT) :
    extension (raAt rAddress accesses) point = extension (raGrid logT accesses) (rAddress ++ point) := by
  rw [extension_append_eq_sum, sum_comm, extension, length]
  refine sum_congr rfl fun j member => ?_
  have inside := mem_range.mp member
  rw [raAt, sum_mul]
  refine sum_congr rfl fun k _ => ?_
  rw [raGrid, Nat.mul_comm k, Nat.mul_add_mod, Nat.mod_eq_of_lt inside, Nat.mul_add_div (Nat.two_pow_pos _),
    Nat.div_eq_of_lt inside, Nat.add_zero]
  ring

/-- An access has the weight of its address. -/
theorem addressWeight_eq {rAddress : List F} {accesses : List (Option Mont.U64)}
    (small : ∀ address, some address ∈ accesses → address.val < noAccess)
    (below : ∀ address, some address ∈ accesses → address.val < 2 ^ rAddress.length) :
    addressWeight (accesses.map RamAccessColumns.encoded) (EqPolynomial.evals rAddress none) =
      raAt rAddress accesses := by
  funext cycle
  have encoded : (accesses.map RamAccessColumns.encoded).getD cycle noAccess =
      RamAccessColumns.encoded (accesses.getD cycle none) :=
    List.getD_map accesses none RamAccessColumns.encoded
  rw [addressWeight, encoded, raAt]
  simp only [raEntry]
  cases access : accesses.getD cycle none with
  | none =>
      rw [RamAccessColumns.encoded, Option.elim_none, if_pos rfl]
      simp
  | some address =>
      have member : some address ∈ accesses := by
        by_cases there : cycle < accesses.length
        · rw [List.getD_eq_getElem _ _ there] at access
          exact access ▸ List.getElem_mem there
        · rw [List.getD_eq_default _ _ (not_lt.mp there)] at access
          cases access
      rw [RamAccessColumns.encoded, Option.elim_some, if_neg (small address member).ne, EqPolynomial.evals_eq,
        Option.getD_none, EqPolynomial.getD_table _ _ (below address member), one_mul]
      simp only [Option.map_some, Option.some_inj, mul_ite, mul_one, mul_zero]
      rw [sum_ite_eq, if_pos (mem_range.mpr (below address member))]

/-- The whole run, from any claim. -/
theorem run_eq [DecidableEq F] (distinct : UnivariatePoly.DistinctNodes F 3) {plan : Option Plan} {points : InputPoints F}
    {ramLogK logT : ℕ} (positive : 0 < logT) (sized : points.Sized (ramLogK + logT)) {accesses : List (Option Mont.U64)}
    (all : accesses.length = 2 ^ logT) (below : ∀ address, some address ∈ accesses → address.val < 2 ^ ramLogK)
    {addresses : List ℕ} (collected : RamAccessColumns.collect accesses = .ok addresses)
    (shares : Shares plan (2 ^ logT)) (γ : F) {challenges : List F} (count : challenges.length = logT) (claim : F) :
    ∃ kernel messages final, RaReductionKernel.prepare plan logT ramLogK points γ addresses = .ok kernel ∧
      (RaReductionKernel.rounds plan).proveRounds kernel none 0 claim challenges = .ok (messages, final) ∧
      messages.length = logT ∧
      ((∀ i message, messages[i]? = some message → IsRound 2 (summand (cyclePoints ramLogK points) γ
          (raAt (points.readWrite.take ramLogK) accesses)) (logT - 1 - i) (challenges.take i).reverse
          message.polynomial) ↔
        claim = ∑ j ∈ range (2 ^ logT), (∑ x : Fin terms, γ ^ (x : ℕ) * eqWeight (cyclePoints ramLogK points x) j) *
          raAt (points.readWrite.take ramLogK) accesses j) ∧
      final.outputClaims =
        .ok (extension (raGrid logT accesses) (points.readWrite.take ramLogK ++ challenges.reverse)) := by
  obtain ⟨rfl, small⟩ := RamAccessColumns.collect_eq collected
  have number : (accesses.map RamAccessColumns.encoded).length = 2 ^ logT := by rw [List.length_map, all]
  have sizeAddress : (points.readWrite.take ramLogK).length = ramLogK := by
    rw [List.length_take, sized.readWrite]
    omega
  have inside : ∀ address ∈ accesses.map RamAccessColumns.encoded, address ≠ noAccess → address < 2 ^ ramLogK := by
    intro address member access
    obtain ⟨entry, there, rfl⟩ := List.mem_map.mp member
    cases entry with
    | none => exact (access rfl).elim
    | some address => exact below address there
  have shared : Shares plan (accesses.map RamAccessColumns.encoded).length := by rwa [number]
  obtain ⟨kernel, prepared, good⟩ := prepare_eq sized number inside shared γ
  have column := @addressWeight_eq _ _ (points.readWrite.take ramLogK) accesses small (by rwa [sizeAddress])
  obtain ⟨messages, final, ran, number', rounds, done⟩ := (serves distinct (length_cyclePoints sized) number shared γ
    (claim - restSum (summand (cyclePoints ramLogK points) γ (raAt (points.readWrite.take ramLogK) accesses)) logT
      [])).run good count.le fun _ _ => trivial
  rw [count] at number'
  rw [column] at ran rounds
  rw [restSum_drifted_nil] at ran
  rw [count, Nat.sub_self] at done
  have output := outputClaims_eq done
  rw [column, extension_raAt _ _ (by rw [List.length_reverse, count])] at output
  rw [← sum_summand]
  exact ⟨kernel, messages, final, prepared, ran, number', isRound_drifted_iff positive number' rounds, output⟩

end

end RamRaClaimReduction

/-! ## Both kernels -/

open SpartanProduct (Scalar)

/-- For every number of cycle variables, odd or even, both kernels run through all rounds from any claim.  Their
messages are the polynomials of the rounds exactly when the claim is the sum, and they return the values of
their columns at the bound point, whatever the plan of the threads. -/
theorem claimReductions_rounds (ark : Mont.ArkFr) :
    (∀ (tau : List Scalar) (gamma : Scalar) (values : RowVec 24 RegistersClaimReduction.RegisterValuesRow)
        (challenges : List Scalar) (claim : Scalar), 0 < tau.length → values.rows.length = 2 ^ tau.length →
      challenges.length = tau.length → ∃ kernel messages final,
        RegistersClaimReduction.ClaimReductionKernel.prepare ark tau.length tau gamma values = .ok kernel ∧
        (RegistersClaimReduction.ClaimReductionKernel.rounds ark).proveRounds kernel none 0 claim challenges =
          .ok (messages, final) ∧ messages.length = tau.length ∧
        ((∀ i message, messages[i]? = some message →
            IsRound 2 (RegistersClaimReduction.summand tau gamma values.rows) (tau.length - 1 - i)
              (challenges.take i).reverse message.polynomial) ↔
          claim = ∑ j ∈ range (2 ^ tau.length), eqWeight tau j * RegistersClaimReduction.valueAt gamma values.rows j) ∧
        final.outputClaims =
          .ok (extension (RegistersClaimReduction.columnAt (·.rdWrite) values.rows) challenges.reverse,
            extension (RegistersClaimReduction.columnAt (·.rs1) values.rows) challenges.reverse,
            extension (RegistersClaimReduction.columnAt (·.rs2) values.rows) challenges.reverse)) ∧
    (∀ (plan : Option Plan) (points : RamRaClaimReduction.InputPoints Scalar) (ramLogK logT : ℕ) (gamma : Scalar)
        (accesses : List (Option Mont.U64)) (addresses : List ℕ) (challenges : List Scalar) (claim : Scalar),
      0 < logT → points.Sized (ramLogK + logT) → accesses.length = 2 ^ logT →
      (∀ address, some address ∈ accesses → address.val < 2 ^ ramLogK) →
      RamAccessColumns.collect accesses = .ok addresses → RamRaClaimReduction.Shares plan (2 ^ logT) →
      challenges.length = logT → ∃ kernel messages final,
        RamRaClaimReduction.RaReductionKernel.prepare plan logT ramLogK points gamma addresses = .ok kernel ∧
        (RamRaClaimReduction.RaReductionKernel.rounds plan).proveRounds kernel none 0 claim challenges =
          .ok (messages, final) ∧ messages.length = logT ∧
        ((∀ i message, messages[i]? = some message →
            IsRound 2 (RamRaClaimReduction.summand (RamRaClaimReduction.cyclePoints ramLogK points) gamma
              (RamRaClaimReduction.raAt (points.readWrite.take ramLogK) accesses)) (logT - 1 - i)
              (challenges.take i).reverse message.polynomial) ↔
          claim = ∑ j ∈ range (2 ^ logT), (∑ x : Fin 3,
            gamma ^ (x : ℕ) * eqWeight (RamRaClaimReduction.cyclePoints ramLogK points x) j) *
              RamRaClaimReduction.raAt (points.readWrite.take ramLogK) accesses j) ∧
        final.outputClaims = .ok (extension (RamRaClaimReduction.raGrid logT accesses)
          (points.readWrite.take ramLogK ++ challenges.reverse))) := by
  constructor
  · intro tau gamma values challenges claim positive all count
    exact RegistersClaimReduction.run_eq ark gamma all positive count claim
  · intro plan points ramLogK logT gamma accesses addresses challenges claim positive sized all below collected shares count
    exact RamRaClaimReduction.run_eq (SpartanProduct.distinctNodes (by decide)) positive sized all below collected shares
      gamma count claim

/-- Two cycles of register values. -/
def twoCycles : RowVec 24 RegistersClaimReduction.RegisterValuesRow := ⟨[⟨1, 2, 3⟩, ⟨2 ^ 64 - 1, 0, 2 ^ 32⟩], by decide⟩

/-- Eight cycles with two accesses, one address bit and three cycle bits. -/
theorem claimReductions_rounds_eight : (∃ kernel messages final,
      RegistersClaimReduction.ClaimReductionKernel.prepare .reference 1 [2] 3 twoCycles = .ok kernel ∧
        (RegistersClaimReduction.ClaimReductionKernel.rounds .reference).proveRounds kernel none 0 9 [7] =
          .ok (messages, final) ∧ messages.length = 1) ∧
    ∃ kernel messages final,
      RamRaClaimReduction.RaReductionKernel.prepare (some (.part 0 1)) 3 1
          ⟨[1, 2, 3, 4], [1, 5, 6, 7], [1, 8, 9, 10]⟩ (2 : Scalar)
          [1, RamAccessColumns.noAccess, 0, RamAccessColumns.noAccess, RamAccessColumns.noAccess,
            RamAccessColumns.noAccess, RamAccessColumns.noAccess, RamAccessColumns.noAccess] = .ok kernel ∧
        (RamRaClaimReduction.RaReductionKernel.rounds (some (.part 0 1))).proveRounds kernel none 0 9
          [7, 0, 2] = .ok (messages, final) ∧ messages.length = 3 := by
  have both := claimReductions_rounds Mont.ArkFr.reference
  constructor
  · obtain ⟨kernel, messages, final, prepared, ran, number, -⟩ := both.1 [2] 3 twoCycles [7] 9 (by decide) rfl rfl
    exact ⟨kernel, messages, final, prepared, ran, number⟩
  · obtain ⟨kernel, messages, final, prepared, ran, number, -⟩ :=
      both.2 (some (.part 0 1)) ⟨[1, 2, 3, 4], [1, 5, 6, 7], [1, 8, 9, 10]⟩ 1 3 2
        [some 1, none, some 0, none, none, none, none, none]
        [1, RamAccessColumns.noAccess, 0, RamAccessColumns.noAccess, RamAccessColumns.noAccess,
          RamAccessColumns.noAccess, RamAccessColumns.noAccess, RamAccessColumns.noAccess] [7, 0, 2] 9 (by decide)
        ⟨rfl, rfl, rfl⟩ rfl (by simp)
        (by simp [RamAccessColumns.collect, RamAccessColumns.consume, RamAccessColumns.encodeAddress, RamAccessColumns.noAccess])
        (fun p same => by cases same; exact Plan.covers_part 1) rfl
    exact ⟨kernel, messages, final, prepared, ran, number⟩

end JoltWasm
