import Mathlib.Data.Bool.Count
import JoltWasm.Claims.ReductionRounds
import JoltWasm.Lib.Scatter

/-!
# What a precommitted claim reduction proves

The prover's permutation of the tables and the verifier's permutation of the challenges agree: bound at
the challenges in the order of the rounds, the permuted tables are the tables at the opening point.
-/

namespace JoltWasm

open Lib Finset

/-! ## Opening-round order -/

/-- The variables, most significant first, in the order of their rounds. -/
def beVarByRound (permutation : List ℕ) : List ℕ :=
  (List.range permutation.length).insertionSort fun a b => permutation.getD a 0 ≤ permutation.getD b 0

/-- For each variable of the permuted tables, lowest first, the low variable of the tables. -/
def lsbSources (permutation : List ℕ) : List ℕ :=
  (beVarByRound permutation).map fun beIndex => permutation.length - 1 - beIndex

theorem beVarByRound_perm (permutation : List ℕ) :
    (beVarByRound permutation).Perm (List.range permutation.length) := List.perm_insertionSort _ _

theorem length_beVarByRound (permutation : List ℕ) :
    (beVarByRound permutation).length = permutation.length := by
  rw [(beVarByRound_perm permutation).length_eq, List.length_range]

@[simp] theorem length_lsbSources (permutation : List ℕ) :
    (lsbSources permutation).length = permutation.length := by
  rw [lsbSources, List.length_map, length_beVarByRound]

theorem isPermutation_lsbSources (permutation : List ℕ) : IsPermutation (lsbSources permutation) := by
  have below : ∀ beIndex ∈ beVarByRound permutation, beIndex < permutation.length := fun beIndex member =>
    List.mem_range.mp ((beVarByRound_perm permutation).mem_iff.mp member)
  constructor
  · refine List.Nodup.map_on (fun a inA b inB same => ?_)
      ((beVarByRound_perm permutation).nodup_iff.mpr List.nodup_range)
    have := below a inA
    have := below b inB
    omega
  · intro source member
    obtain ⟨beIndex, inOrder, rfl⟩ := List.mem_map.mp member
    have := below beIndex inOrder
    rw [length_lsbSources]
    omega

theorem lsbPermutation_eq (permutation : List ℕ) : lsbPermutation permutation =
    if (invertList (lsbSources permutation)).zipIdx.any fun (newLsb, oldLsb) => oldLsb != newLsb then
      some (invertList (lsbSources permutation)) else none := by
  have table : invertList (lsbSources permutation) = (beVarByRound permutation).zipIdx.foldl
      (fun table (beIndex, newLsb) => table.set (permutation.length - 1 - beIndex) newLsb)
        (List.replicate permutation.length 0) := by
    rw [invertList, length_lsbSources, lsbSources, List.zipIdx_map, List.foldl_map]
    rfl
  rw [table]
  rfl

/-- The permuted tables gather the bits of their indices. -/
theorem permuteTables_eq {α : Type} [Zero α] (reduction : PrecommittedClaimReduction)
    {tables : List (List α)}
    (lengths : ∀ table ∈ tables, table.length = 2 ^ reduction.polyOpeningRoundPermutationBe.length) :
    permuteTables reduction tables = tables.map fun table =>
      (List.range (2 ^ reduction.polyOpeningRoundPermutationBe.length)).map fun k =>
        table.getD (gatherBits (lsbSources reduction.polyOpeningRoundPermutationBe) k) 0 := by
  obtain ⟨permutation, permutation_⟩ : ∃ p, reduction.polyOpeningRoundPermutationBe = p := ⟨_, rfl⟩
  have perm := isPermutation_lsbSources permutation
  rw [permuteTables, permutation_, lsbPermutation_eq]
  rw [permutation_] at lengths
  split_ifs with moved
  · refine List.map_congr_left fun table member => ?_
    rw [← lengths table member]
    conv_rhs => rw [← perm.invert_invert]
    rfl
  · -- The identity: the inverse has each position at itself.
    have identity : invertList (lsbSources permutation) = List.range permutation.length := by
      refine List.ext_getElem? fun position => ?_
      rcases Nat.lt_or_ge position permutation.length with inside | outside
      · have inside' : position < (invertList (lsbSources permutation)).length := by
          rwa [length_invertList, length_lsbSources]
        rw [List.getElem?_range inside, List.getElem?_eq_getElem inside', Option.some_inj]
        by_contra other
        refine moved (List.any_eq_true.mpr ⟨((invertList (lsbSources permutation))[position], position),
          List.mk_mem_zipIdx_iff_getElem?.mpr (List.getElem?_eq_getElem inside'), ?_⟩)
        simpa using fun same : position = _ => other same.symm
      · rw [List.getElem?_eq_none (by simpa using outside), List.getElem?_eq_none (by simpa using outside)]
    have sources : lsbSources permutation = List.range permutation.length := by
      rw [← perm.invert_invert, identity, invertList_range]
    rw [sources]
    refine (List.map_id tables).symm.trans (List.map_congr_left fun table member => ?_)
    refine List.ext_getElem (by simpa using lengths table member) fun k inside inside' => ?_
    have small : k < 2 ^ permutation.length := by
      rw [← lengths table member]
      exact inside
    rw [List.getElem_map, List.getElem_range, gatherBits_range small]
    exact (List.getD_eq_getElem _ _ inside).symm

section

variable {F : Type} [Field F]

/-- The multilinear extension of a table. -/
def tableAt (table point : List F) : F := extension (fun k => table.getD k 0) point

/-- A table with its variables permuted into opening-round order. -/
def permuted (permutation : List ℕ) (table : List F) (k : ℕ) : F :=
  table.getD (gatherBits (lsbSources permutation) k) 0

/-- At the challenges in the order of their rounds, a permuted table is the table at the opening point. -/
theorem extension_permuted (permutation : List ℕ) (table : List F) (challenge : ℕ → F) :
    extension (permuted permutation table)
        ((beVarByRound permutation).map fun beIndex => challenge (permutation.getD beIndex 0)).reverse =
      tableAt table (permutation.map challenge) := by
  have moves : ∀ new < (lsbSources permutation).length,
      ((beVarByRound permutation).map fun beIndex => challenge (permutation.getD beIndex 0)).getD new 0 =
        (permutation.map challenge).reverse.getD ((lsbSources permutation).getD new 0) 0 := by
    intro new inside
    rw [length_lsbSources] at inside
    have inOrder : new < (beVarByRound permutation).length := by rwa [length_beVarByRound]
    have below : (beVarByRound permutation)[new] < permutation.length :=
      List.mem_range.mp ((beVarByRound_perm permutation).mem_iff.mp (List.getElem_mem inOrder))
    have source : (lsbSources permutation).getD new 0 =
        permutation.length - 1 - (beVarByRound permutation)[new] := by
      rw [List.getD_eq_getElem _ _ (by rwa [length_lsbSources])]
      exact List.getElem_map _
    have mirrored : permutation.length - 1 - (beVarByRound permutation)[new] <
        (permutation.map challenge).reverse.length := by
      rw [List.length_reverse, List.length_map]
      omega
    have back : permutation.length - 1 - (permutation.length - 1 - (beVarByRound permutation)[new]) =
        (beVarByRound permutation)[new] := by omega
    rw [source, List.getD_eq_getElem _ _ (by rwa [List.length_map]), List.getElem_map,
      List.getD_eq_getElem _ _ mirrored, List.getElem_reverse, List.getElem_map,
      List.getD_eq_getElem _ _ below]
    simp only [List.length_map, back]
  have moved := extension_gatherBits (isPermutation_lsbSources permutation) (fun k => table.getD k 0)
    (by rw [List.length_map, length_beVarByRound, length_lsbSources])
    (by rw [List.length_reverse, List.length_map, length_lsbSources]) moves
  rwa [List.reverse_reverse] at moved

/-- The prover's first claim does not depend on the order of the variables. -/
theorem innerProduct_permuted (permutation : List ℕ) {value eq : List F}
    (valueLength : value.length = 2 ^ permutation.length)
    (eqLength : eq.length = 2 ^ permutation.length) :
    innerProduct permutation.length (permuted permutation value) (permuted permutation eq) =
      (List.zipWith (· * ·) value eq).sum := by
  have gathered := sum_gatherBits (isPermutation_lsbSources permutation) fun k =>
    value.getD k 0 * eq.getD k 0
  rw [length_lsbSources] at gathered
  rw [sum_zipWith (· * ·) 0 0 valueLength eqLength]
  exact gathered

/-! ## Active rounds -/

/-- The active coordinates of a range of rounds. -/
theorem activePart_activeFlags (activeRounds : List ℕ) {start count : ℕ} {point : List F}
    (length : point.length = count) :
    activePart (activeFlags activeRounds start count) point =
      ((List.range' start count).filter (isActive activeRounds)).map fun round =>
        point.getD (round - start) 0 := by
  induction count generalizing start point with
  | zero => rfl
  | succ count ih =>
      obtain ⟨c, point, rfl⟩ := List.exists_of_length_succ point length
      have rest : ((List.range' (start + 1) count).filter (isActive activeRounds)).map (fun round =>
          (c :: point).getD (round - start) 0) = activePart (activeFlags activeRounds (start + 1) count)
            point := by
        rw [ih (Nat.succ.inj length)]
        refine List.map_congr_left fun round member => ?_
        have above := (List.mem_range'_1.mp (List.mem_of_mem_filter member)).1
        obtain ⟨i, rfl⟩ := Nat.exists_eq_add_of_le above
        rw [Nat.add_sub_cancel_left, Nat.add_assoc, Nat.add_sub_cancel_left, Nat.add_comm 1,
          List.getD_cons_succ]
      rw [activeFlags_succ, List.range'_succ, activePart, List.filter_cons]
      split_ifs
      · rw [List.map_cons, rest, Nat.sub_self, List.getD_cons_zero]
      · exact rest.symm

/-- The active rounds among all rounds of a phase. -/
theorem filter_isActive {activeRounds : List ℕ} (sorted : activeRounds.Pairwise (· < ·)) {count : ℕ}
    (bounded : ∀ round ∈ activeRounds, round < count) :
    (List.range' 0 count).filter (isActive activeRounds) = activeRounds := by
  have less : ((List.range' 0 count).filter (isActive activeRounds)).Pairwise (· < ·) :=
    (List.pairwise_lt_range' 1).filter _
  have same : ((List.range' 0 count).filter (isActive activeRounds)).Perm activeRounds := by
    refine (List.perm_ext_iff_of_nodup (less.imp fun less => less.ne)
      (sorted.imp fun less => less.ne)).mpr fun round => ?_
    rw [List.mem_filter, List.mem_range'_1, isActive, decide_eq_true_iff]
    exact ⟨fun both => both.2, fun member => ⟨⟨Nat.zero_le _, by simpa using bounded round member⟩, member⟩⟩
  exact same.eq_of_pairwise' (less.imp Nat.le_of_lt) (sorted.imp Nat.le_of_lt)

theorem activePart_phase {activeRounds : List ℕ} (sorted : activeRounds.Pairwise (· < ·)) {count : ℕ}
    (bounded : ∀ round ∈ activeRounds, round < count) {point : List F} (length : point.length = count) :
    activePart (activeFlags activeRounds 0 count) point =
      activeRounds.map fun round => point.getD round 0 := by
  rw [activePart_activeFlags activeRounds length, filter_isActive sorted bounded]
  rfl

namespace PrecommittedClaimReduction

variable {reduction : PrecommittedClaimReduction}

/-- The flags of all rounds that the reduction runs. -/
def runFlags (reduction : PrecommittedClaimReduction) : List Bool :=
  activeFlags reduction.cyclePhaseRounds 0 reduction.cyclePhaseTotalRounds ++
    if reduction.hasAddressPhase then
      activeFlags reduction.addressPhaseRounds 0 reduction.addressPhaseTotalRounds
    else []

/-- The number of rounds that the reduction runs. -/
def runLength (reduction : PrecommittedClaimReduction) : ℕ :=
  reduction.cyclePhaseTotalRounds +
    if reduction.hasAddressPhase then reduction.addressPhaseTotalRounds else 0

@[simp] theorem length_runFlags : reduction.runFlags.length = reduction.runLength := by
  rw [runFlags, runLength, List.length_append, length_activeFlags]
  split_ifs
  · rw [length_activeFlags]
  · rfl

namespace Scheduled

variable (scheduled : reduction.Scheduled)
include scheduled

/-- Sorting the variables by their rounds gives the rounds of both phases. -/
theorem sortedRounds : (beVarByRound reduction.polyOpeningRoundPermutationBe).map (fun beIndex =>
      reduction.polyOpeningRoundPermutationBe.getD beIndex 0) =
    reduction.cyclePhaseRounds ++ reduction.addressPhaseRounds.map (reduction.cycleAlignmentRounds + ·) := by
  let permutation := reduction.polyOpeningRoundPermutationBe
  have whole : (List.range permutation.length).map (fun i => permutation.getD i 0) = permutation := by
    refine List.ext_getElem (by simp) fun i inside inside' => ?_
    rw [List.getElem_map, List.getElem_range, List.getD_eq_getElem _ _ inside']
  have same : ((beVarByRound permutation).map fun beIndex => permutation.getD beIndex 0).Perm
      permutation := by
    conv_rhs => rw [← whole]
    exact (beVarByRound_perm permutation).map _
  have sorted : ((beVarByRound permutation).map fun beIndex => permutation.getD beIndex 0).Pairwise (· ≤ ·) :=
    List.pairwise_map.mpr (List.pairwise_insertionSort _ _)
  exact (same.trans scheduled.rounds_perm.symm).eq_of_pairwise' sorted
    (scheduled.rounds_sorted.imp Nat.le_of_lt)

/-- The active coordinates, in the order of the rounds. -/
theorem activePart_runFlags {point : List F} (length : point.length = reduction.runLength) :
    activePart reduction.runFlags point = (beVarByRound reduction.polyOpeningRoundPermutationBe).map
      fun beIndex => point.getD (reduction.polyOpeningRoundPermutationBe.getD beIndex 0) 0 := by
  have cycleBounded : ∀ round ∈ reduction.cyclePhaseRounds, round < reduction.cyclePhaseTotalRounds := by
    intro round member
    rw [scheduled.total]
    exact ((scheduled.mem_cycle round).mp member).2
  have rounds := congrArg (List.map fun round => point.getD round 0) scheduled.sortedRounds
  rw [List.map_map, List.map_append, List.map_map] at rounds
  refine Eq.trans ?_ rounds.symm
  rw [runLength] at length
  have split := List.take_append_drop reduction.cyclePhaseTotalRounds point
  have head : (point.take reduction.cyclePhaseTotalRounds).length = reduction.cyclePhaseTotalRounds := by
    rw [List.length_take]
    omega
  have tail : (point.drop reduction.cyclePhaseTotalRounds).length =
      if reduction.hasAddressPhase then reduction.addressPhaseTotalRounds else 0 := by
    rw [List.length_drop]
    omega
  conv_lhs => rw [← split]
  rw [runFlags, activePart_append _ _ (by rw [head, length_activeFlags]),
    activePart_phase scheduled.cycleSorted cycleBounded head]
  refine congrArg₂ (· ++ ·) (List.map_congr_left fun round member => ?_) ?_
  · have inside := cycleBounded round member
    conv_rhs => rw [← split]
    rw [List.getD_append _ _ _ _ (by rwa [head])]
  · cases phase : reduction.hasAddressPhase with
    | false =>
        have none_ : reduction.addressPhaseRounds = [] := by
          rw [hasAddressPhase, decide_eq_false_iff_not, numAddressPhaseRounds, Nat.not_lt,
            Nat.le_zero, List.length_eq_zero_iff] at phase
          exact phase
        rw [none_]
        rfl
    | true =>
        rw [phase, if_pos rfl] at tail
        rw [if_pos rfl, activePart_phase scheduled.addressSorted
          (fun round => scheduled.activeAddress_lt) tail]
        refine List.map_congr_left fun round member => ?_
        rw [Function.comp_apply, ← scheduled.total]
        conv_rhs => rw [← split]
        rw [List.getD_append_right _ _ _ _ (by rw [head]; omega), head, Nat.add_sub_cancel_left]

end Scheduled

end PrecommittedClaimReduction

end

end JoltWasm
