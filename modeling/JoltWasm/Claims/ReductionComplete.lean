import Mathlib.Algebra.Field.ZMod
import JoltWasm.Claims.ReductionOpening

/-!
# Completeness of a precommitted claim reduction

Over both phases the messages are the true round polynomials of one summand, the claims of the phases
chain, and what is left is the public scale times the opening of the value table at the verifier's point.
-/

namespace JoltWasm

open Lib

section

variable {F : Type} [Field F]

/-- The summand, over all rounds that a reduction runs: the tables at the challenges of their variables,
halved for every other round. -/
def reductionSummand (reduction : PrecommittedClaimReduction) (value eq challenges : List F) : F :=
  let point := reduction.polyOpeningRoundPermutationBe.map fun round => challenges.getD round 0
  2⁻¹ ^ (challenges.length - reduction.polyOpeningRoundPermutationBe.length) *
    (tableAt value point * tableAt eq point)

/-- What a run leaves: a claim that is the public scale times the opening of the value table, and the
openings of the tables. -/
structure Opened (value eq : List F) (aux : List (List F)) (point : List F) (scale : F)
    (run : PhaseRun F) : Prop where
  claim : run.claim = tableAt eq point * scale * tableAt value point
  value : run.tables.finalClaim = .ok (tableAt value point)
  aux : run.tables.finalAuxClaims = .ok (aux.map fun table => tableAt table point)

/-- The challenge of each active round stands in the opening point at the round's variable. -/
def Recovers (reduction : PrecommittedClaimReduction) (point challenges : List F) : Prop :=
  ∀ round ∈ reduction.polyOpeningRoundPermutationBe,
    point.getD (reduction.polyOpeningRoundPermutationBe.idxOf round) 0 = challenges.getD round 0

theorem skipRoundScale_eq (gap : ℕ) : PrecommittedClaimReduction.skipRoundScale gap = (2⁻¹ : F) ^ gap := by
  induction gap with
  | zero => exact (pow_zero _).symm
  | succ gap ih =>
      rw [PrecommittedClaimReduction.skipRoundScale, List.replicate_succ', List.foldl_append,
        ← PrecommittedClaimReduction.skipRoundScale, ih, pow_succ]
      rfl

/-- The rounds of a phase that are not active. -/
theorem count_activeFlags {activeRounds : List ℕ} (sorted : activeRounds.Pairwise (· < ·)) {count : ℕ}
    (bounded : ∀ round ∈ activeRounds, round < count) :
    (activeFlags activeRounds 0 count).count false = count - activeRounds.length := by
  have length : (List.replicate count (0 : ℚ)).length = (activeFlags activeRounds 0 count).length := by
    rw [List.length_replicate, length_activeFlags]
  have active := length_activePart length
  rw [activePart_phase sorted bounded List.length_replicate, List.length_map] at active
  have all := List.count_false_add_count_true (activeFlags activeRounds 0 count)
  rw [length_activeFlags] at all
  omega

theorem getD_map_idxOf {rounds : List ℕ} (challenge : ℕ → F) {round : ℕ} (member : round ∈ rounds) :
    (rounds.map challenge).getD (rounds.idxOf round) 0 = challenge round := by
  have inside := List.idxOf_lt_length_of_mem member
  rw [List.getD_eq_getElem _ _ (by rwa [List.length_map]), List.getElem_map, List.getElem_idxOf]

/-- The kernel starts from the permuted tables. -/
theorem CycleReductionKernel.prepare_ok (kind : String) (reduction : PrecommittedClaimReduction)
    {value eq : List F} {aux : List (List F)}
    (lengths : ∀ table ∈ value :: eq :: aux,
      table.length = 2 ^ reduction.polyOpeningRoundPermutationBe.length) :
    prepare kind reduction value eq aux = .ok ⟨reduction,
      tablesOf reduction.polyOpeningRoundPermutationBe.length
        (permuted reduction.polyOpeningRoundPermutationBe value)
        (permuted reduction.polyOpeningRoundPermutationBe eq)
        (aux.map (permuted reduction.polyOpeningRoundPermutationBe)) 1⟩ := by
  have size (name : String) (f : ℕ → F) :
      requireTableSize (2 ^ reduction.polyOpeningRoundPermutationBe.length) name
        (entries reduction.polyOpeningRoundPermutationBe.length f) = .ok () :=
    if_neg (not_not.mpr (length_entries _ f))
  have all : (aux.map fun table => entries reduction.polyOpeningRoundPermutationBe.length
      (permuted reduction.polyOpeningRoundPermutationBe table)).forM (fun table =>
        requireTableSize (2 ^ reduction.polyOpeningRoundPermutationBe.length) "aux" table) = .ok () := by
    refine forM_ok fun table member => ?_
    obtain ⟨source, -, rfl⟩ := List.mem_map.mp member
    exact size "aux" _
  rw [prepare, permuteTables_eq reduction lengths]
  refine except_bind_eq_ok.mpr ⟨(), size "value" _, except_bind_eq_ok.mpr ⟨(), size "eq" _,
    except_bind_eq_ok.mpr ⟨(), all, ?_⟩⟩⟩
  rw [tablesOf, inv_one, List.map_map]
  rfl

/-- The claim that is handed over is the running claim. -/
theorem intermediateClaim_tablesOf (n : ℕ) (value eq : ℕ → F) (aux : List (ℕ → F)) (scale : F) :
    (tablesOf n value eq aux scale).intermediateClaim = scale * innerProduct n value eq := by
  rw [PrecommittedTables.intermediateClaim, tablesOf,
    sum_zipWith (· * ·) 0 0 (length_entries n value) (length_entries n eq), mul_comm, innerProduct]
  refine congrArg (scale * ·) (Finset.sum_congr rfl fun j member => ?_)
  rw [getD_entries value (Finset.mem_range.mp member), getD_entries eq (Finset.mem_range.mp member)]

namespace PrecommittedClaimReduction.Scheduled

variable {reduction : PrecommittedClaimReduction} (scheduled : reduction.Scheduled)
include scheduled

theorem cycle_bounded : ∀ round ∈ reduction.cyclePhaseRounds, round < reduction.cyclePhaseTotalRounds := by
  intro round member
  rw [scheduled.total]
  exact ((scheduled.mem_cycle round).mp member).2

theorem count_runFlags :
    reduction.runFlags.count true = reduction.polyOpeningRoundPermutationBe.length := by
  have length : (List.replicate reduction.runLength (0 : ℚ)).length = reduction.runFlags.length := by
    rw [List.length_replicate, length_runFlags]
  rw [← length_activePart length, scheduled.activePart_runFlags List.length_replicate, List.length_map,
    length_beVarByRound]

theorem gapScale_runFlags : gapScale F reduction.runFlags =
    2⁻¹ ^ (reduction.runLength - reduction.polyOpeningRoundPermutationBe.length) := by
  have all := List.count_false_add_count_true reduction.runFlags
  rw [scheduled.count_runFlags, length_runFlags] at all
  rw [gapScale, ← all, Nat.add_sub_cancel]

/-- The public scale of a reduction that ends with the cycle phase. -/
theorem gapScale_cycle (final : reduction.hasAddressPhase = false) :
    gapScale F reduction.runFlags = reduction.cyclePhaseSkipScale := by
  rw [runFlags, final, if_neg Bool.false_ne_true, List.append_nil, cyclePhaseSkipScale, skipRoundScale_eq,
    gapScale, count_activeFlags scheduled.cycleSorted scheduled.cycle_bounded]

/-- The public scale of a reduction with an address phase. -/
theorem gapScale_address (phase : reduction.hasAddressPhase = true) :
    gapScale F reduction.runFlags = reduction.precommittedSkipRoundScale := by
  rw [runFlags, phase, if_pos rfl, gapScale, List.count_append, precommittedSkipRoundScale,
    skipRoundScale_eq, count_activeFlags scheduled.cycleSorted scheduled.cycle_bounded,
    count_activeFlags scheduled.addressSorted fun round => scheduled.activeAddress_lt]

/-- The extension of a permuted table at the active challenges. -/
theorem extension_active (table : List F) {challenges : List F}
    (length : challenges.length = reduction.runLength) :
    extension (permuted reduction.polyOpeningRoundPermutationBe table)
        (activePart reduction.runFlags challenges).reverse =
      tableAt table (reduction.polyOpeningRoundPermutationBe.map fun round => challenges.getD round 0) := by
  rw [scheduled.activePart_runFlags length]
  exact extension_permuted _ table fun round => challenges.getD round 0

theorem summand_eq (value eq : List F) {challenges : List F}
    (length : challenges.length = reduction.runLength) :
    gappedProduct reduction.runFlags (permuted reduction.polyOpeningRoundPermutationBe value)
        (permuted reduction.polyOpeningRoundPermutationBe eq) challenges =
      reductionSummand reduction value eq challenges := by
  rw [gappedProduct, scheduled.extension_active value length, scheduled.extension_active eq length,
    scheduled.gapScale_runFlags, reductionSummand, length]

/-- All challenges bound, the tables hold the openings. -/
theorem opened (value eq : List F) (aux : List (List F)) {challenges : List F}
    (length : challenges.length = reduction.runLength) (rounds : List (F × UnivariatePoly F)) (scale : F) :
    let bound := bindActive reduction.runFlags challenges
    let order := permuted reduction.polyOpeningRoundPermutationBe
    Opened value eq aux
      (reduction.polyOpeningRoundPermutationBe.map fun round => challenges.getD round 0) scale
      ⟨rounds, scale * innerProduct 0 (bound (order value)) (bound (order eq)),
        tablesOf 0 (bound (order value)) (bound (order eq)) ((aux.map order).map bound) scale⟩ := by
  have bound (table : List F) : bindActive reduction.runFlags challenges
      (permuted reduction.polyOpeningRoundPermutationBe table) 0 = tableAt table
        (reduction.polyOpeningRoundPermutationBe.map fun round => challenges.getD round 0) := by
    rw [bindActive_eq_extension (by rw [length, length_runFlags]), scheduled.extension_active table length]
  refine ⟨?_, ?_, ?_⟩
  · change scale * innerProduct 0 _ _ = _
    rw [innerProduct, pow_zero, Finset.sum_range_one, bound, bound]
    ring
  · exact congrArg Except.ok (bound value)
  · refine congrArg Except.ok ?_
    rw [tablesOf, List.map_map, List.map_map, List.map_map]
    exact List.map_congr_left fun table _ => bound table

/-- The cycle phase. -/
theorem cycle_runs (two : (2 : F) ≠ 0) (value eq : List F) (aux : List (List F)) {challenges : List F}
    (length : challenges.length = reduction.cyclePhaseTotalRounds) :
    let flags := activeFlags reduction.cyclePhaseRounds 0 reduction.cyclePhaseTotalRounds
    let later := if reduction.hasAddressPhase then
      activeFlags reduction.addressPhaseRounds 0 reduction.addressPhaseTotalRounds else []
    let bound := bindActive flags challenges
    let order := permuted reduction.polyOpeningRoundPermutationBe
    let numVars := reduction.polyOpeningRoundPermutationBe.length
    ∃ rounds, (⟨reduction, tablesOf numVars (order value) (order eq) (aux.map order) 1⟩ :
        CycleReductionKernel F).run (innerProduct numVars (order value) (order eq)) challenges =
      .ok ⟨rounds,
        gapScale F flags * innerProduct (later.count true) (bound (order value)) (bound (order eq)),
        tablesOf (later.count true) (bound (order value)) (bound (order eq))
          ((aux.map order).map bound) (gapScale F flags)⟩ ∧
      TrueRounds (reductionSummand reduction value eq) reduction.runLength []
        reduction.cyclePhaseRounds 0 challenges rounds := by
  intro flags later bound order numVars
  have run := runRounds_tablesOf two reduction.cyclePhaseRounds later
    ((Nat.zero_add _).trans length) (order value) (order eq) (aux.map order) one_ne_zero
    (congrArg (activeFlags reduction.cyclePhaseRounds 0) length).symm
  have whole : (flags ++ later).count true = numVars := scheduled.count_runFlags
  obtain ⟨rounds, runs, true_⟩ := run
  rw [whole, one_mul, one_mul] at runs
  refine ⟨rounds, runs, ?_⟩
  have total : (flags ++ later).length = reduction.runLength := length_runFlags
  rw [total] at true_
  refine true_.congr ?_ fun point points => ?_
  · rw [List.length_nil, Nat.zero_add, length, runLength]
    exact Nat.le_add_right _ _
  · exact (one_mul _).trans (scheduled.summand_eq value eq points)

/-- The address phase, from the tables that the cycle phase left. -/
theorem address_runs (two : (2 : F) ≠ 0) (phase : reduction.hasAddressPhase = true) (value eq : List F)
    (aux : List (List F)) {cycleChallenges challenges : List F}
    (cycleLength : cycleChallenges.length = reduction.cyclePhaseTotalRounds)
    (length : challenges.length = reduction.addressPhaseTotalRounds) :
    let flags := activeFlags reduction.cyclePhaseRounds 0 reduction.cyclePhaseTotalRounds
    let later := activeFlags reduction.addressPhaseRounds 0 reduction.addressPhaseTotalRounds
    let first := bindActive flags cycleChallenges
    let order := permuted reduction.polyOpeningRoundPermutationBe
    let bound := bindActive reduction.runFlags (cycleChallenges ++ challenges)
    ∃ rounds, (⟨reduction, tablesOf (later.count true) (first (order value)) (first (order eq))
        ((aux.map order).map first) (gapScale F flags)⟩ : AddressReductionKernel F).run
          (gapScale F flags * innerProduct (later.count true) (first (order value)) (first (order eq)))
          challenges =
      .ok ⟨rounds,
        gapScale F reduction.runFlags * innerProduct 0 (bound (order value)) (bound (order eq)),
        tablesOf 0 (bound (order value)) (bound (order eq)) ((aux.map order).map bound)
          (gapScale F reduction.runFlags)⟩ ∧
      TrueRounds (reductionSummand reduction value eq) reduction.runLength cycleChallenges
        reduction.addressPhaseRounds 0 challenges rounds := by
  intro flags later first order bound
  have split : reduction.runFlags = flags ++ later := by rw [runFlags, phase, if_pos rfl]
  have cycleFlags : cycleChallenges.length = flags.length := cycleLength.trans (length_activeFlags _ _ _).symm
  have nonzero : gapScale F flags ≠ 0 := pow_ne_zero _ (inv_ne_zero two)
  have both (f : ℕ → F) : bindActive later challenges (first f) = bound f := by
    rw [show bound = bindActive (flags ++ later) (cycleChallenges ++ challenges) from
      congrArg (fun flags => bindActive flags _) split, bindActive_append _ _ cycleFlags]
  obtain ⟨rounds, runs, true_⟩ := runRounds_tablesOf two reduction.addressPhaseRounds []
    ((Nat.zero_add _).trans length) (first (order value)) (first (order eq)) ((aux.map order).map first)
    nonzero (congrArg (activeFlags reduction.addressPhaseRounds 0) length).symm
  rw [List.append_nil] at runs true_
  rw [both, both, ← gapScale_append, ← split] at runs
  refine ⟨rounds, runs.trans ?_, ?_⟩
  · have aux_ : ((aux.map order).map first).map (bindActive later challenges) =
        (aux.map order).map bound := by
      rw [List.map_map]
      exact List.map_congr_left fun f _ => both f
    rw [← aux_]
    rfl
  · have total : reduction.runLength = cycleChallenges.length + later.length := by
      rw [runLength, phase, if_pos rfl, cycleLength, length_activeFlags]
    have shifted : TrueRounds (fun point => reductionSummand reduction value eq (cycleChallenges ++ point))
        later.length [] reduction.addressPhaseRounds 0 challenges rounds := by
      refine true_.congr ?_ fun point points => ?_
      · rw [List.length_nil, Nat.zero_add, length, length_activeFlags]
      · rw [← gappedProduct_append flags later _ _ cycleFlags, ← split]
        exact scheduled.summand_eq value eq (by rw [total, List.length_append, points])
    have prepended := TrueRounds.prepend _ _ shifted
    rwa [← total] at prepended

end PrecommittedClaimReduction.Scheduled

/-- The reduction of a precommitted polynomial, over the cycle phase and the address phase. -/
theorem precommittedReduction_complete (two : (2 : F) ≠ 0)
    {mainTotalVars logKChunk rowVars colVars logT : ℕ} {candidates : List ℕ}
    {order : TracePolynomialOrder} {reduction : PrecommittedClaimReduction}
    (built : PrecommittedClaimReduction.new rowVars colVars
      (PrecommittedClaimReduction.schedulingReferenceOf mainTotalVars candidates logKChunk) order logT =
        .ok reduction)
    (kind : String) {value eq : List F} {aux : List (List F)}
    (lengths : ∀ table ∈ value :: eq :: aux, table.length = 2 ^ (rowVars + colVars))
    {cycleChallenges addressChallenges : List F}
    (cycleLength : cycleChallenges.length = reduction.cyclePhaseTotalRounds)
    (addressLength : addressChallenges.length = reduction.addressPhaseTotalRounds) :
    ∃ kernel cycleRun openingPoint,
      CycleReductionKernel.prepare kind reduction value eq aux = .ok kernel ∧
      kernel.run (List.zipWith (· * ·) value eq).sum cycleChallenges = .ok cycleRun ∧
      TrueRounds (reductionSummand reduction value eq) reduction.runLength []
        reduction.cyclePhaseRounds 0 cycleChallenges cycleRun.rounds ∧
      reduction.cyclePhaseOpeningPoint cycleChallenges = .ok openingPoint ∧
      openingPoint.reverse = reduction.cyclePhaseRounds.map (fun round => cycleChallenges.getD round 0) ∧
      (reduction.hasAddressPhase = false → ∃ point,
        (kernel.after cycleRun).parkCarry = none ∧
        reduction.cyclePhasePermutedOpeningPoint cycleChallenges = .ok point ∧
        reduction.cyclePhasePermutedFromOpeningPoint openingPoint = .ok point ∧
        Recovers reduction point cycleChallenges ∧
        Opened value eq aux point reduction.cyclePhaseSkipScale cycleRun ∧
        (kernel.after cycleRun).scalarClaim = .ok (tableAt value point) ∧
        (kernel.after cycleRun).chunkedClaims = .ok (none, aux.map fun table => tableAt table point)) ∧
      (reduction.hasAddressPhase = true → ∃ addressKernel addressRun point,
        (kernel.after cycleRun).scalarClaim = .ok cycleRun.claim ∧
        (kernel.after cycleRun).chunkedClaims = .ok (some cycleRun.claim, []) ∧
        (kernel.after cycleRun).parkCarry = some addressKernel ∧
        addressKernel.run cycleRun.claim addressChallenges = .ok addressRun ∧
        TrueRounds (reductionSummand reduction value eq) reduction.runLength cycleChallenges
          reduction.addressPhaseRounds 0 addressChallenges addressRun.rounds ∧
        reduction.addressPhaseOpeningPoint openingPoint.reverse addressChallenges = .ok point ∧
        Recovers reduction point (cycleChallenges ++ addressChallenges) ∧
        Opened value eq aux point reduction.precommittedSkipRoundScale addressRun) := by
  have scheduled := PrecommittedClaimReduction.new_scheduled built
  have numVars := PrecommittedClaimReduction.new_length
    (PrecommittedClaimReduction.schedulingReferenceOf_columns mainTotalVars candidates logKChunk) built
  rw [← numVars] at lengths
  have claim := innerProduct_permuted reduction.polyOpeningRoundPermutationBe
    (lengths value (by simp)) (lengths eq (by simp))
  obtain ⟨rounds, runs, true_⟩ := scheduled.cycle_runs two value eq aux cycleLength
  rw [claim] at runs
  have opening := PrecommittedClaimReduction.cyclePhaseOpeningPoint_ok cycleLength
  have prepared := CycleReductionKernel.prepare_ok kind reduction lengths
  cases phase : reduction.hasAddressPhase with
  | false =>
      have flags : activeFlags reduction.cyclePhaseRounds 0 reduction.cyclePhaseTotalRounds =
          reduction.runFlags := by
        rw [PrecommittedClaimReduction.runFlags, phase, if_neg Bool.false_ne_true, List.append_nil]
      have length : cycleChallenges.length = reduction.runLength := by
        rw [PrecommittedClaimReduction.runLength, phase, if_neg Bool.false_ne_true, cycleLength,
          Nat.add_zero]
      have opened := scheduled.opened value eq aux length rounds (gapScale F reduction.runFlags)
      rw [phase, if_neg Bool.false_ne_true, List.count_nil, flags] at runs
      refine ⟨_, _, _, prepared, runs, true_, opening, List.reverse_reverse _, fun _ => ?_, fun contra => absurd contra Bool.false_ne_true⟩
      have value_ := opened.value
      have aux_ := opened.aux
      rw [scheduled.gapScale_cycle phase] at opened value_ aux_ ⊢
      refine ⟨_, ?_, scheduled.cyclePhasePermutedOpeningPoint_ok phase cycleLength,
        scheduled.cyclePhasePermutedFromOpeningPoint_ok phase _, fun round member =>
          getD_map_idxOf _ member, opened, ?_, ?_⟩
      · exact if_neg (by rw [CycleReductionKernel.after, phase]; decide)
      · exact (if_neg (by rw [CycleReductionKernel.after, phase]; decide)).trans value_
      · refine (if_neg (by rw [CycleReductionKernel.after, phase]; decide)).trans ?_
        exact except_bind_eq_ok.mpr ⟨_, aux_, rfl⟩
  | true =>
      obtain ⟨addressRounds, addressRuns, addressTrue⟩ :=
        scheduled.address_runs two phase value eq aux cycleLength addressLength
      have length : (cycleChallenges ++ addressChallenges).length = reduction.runLength := by
        rw [PrecommittedClaimReduction.runLength, phase, if_pos rfl, List.length_append, cycleLength,
          addressLength]
      have opened := scheduled.opened value eq aux length addressRounds (gapScale F reduction.runFlags)
      rw [phase, if_pos rfl] at runs
      refine ⟨_, _, _, prepared, runs, true_, opening, List.reverse_reverse _,
        fun contra => absurd contra.symm Bool.false_ne_true, fun _ => ?_⟩
      rw [scheduled.gapScale_address phase] at addressRuns opened
      have handed := intermediateClaim_tablesOf (F := F)
      have point : reduction.addressPhaseOpeningPoint
          (reduction.cyclePhaseRounds.map fun round => cycleChallenges.getD round 0) addressChallenges =
            .ok (reduction.polyOpeningRoundPermutationBe.map fun round =>
              (cycleChallenges ++ addressChallenges).getD round 0) := by
        rw [scheduled.addressPhaseOpeningPoint_ok _ addressLength]
        refine congrArg Except.ok (List.map_congr_left fun round _ => ?_)
        rw [← scheduled.total]
        split_ifs with cycle
        · rw [List.getD_append _ _ _ _ (by rwa [cycleLength])]
        · rw [List.getD_append_right _ _ _ _ (by rw [cycleLength]; omega), cycleLength]
      refine ⟨_, _, _, ?_, ?_, if_pos phase, addressRuns, addressTrue, ?_, fun round member =>
        getD_map_idxOf _ member, opened⟩
      · exact (if_pos phase).trans (congrArg Except.ok (handed _ _ _ _ _))
      · exact (if_pos phase).trans (congrArg (fun claim => Except.ok (some claim, [])) (handed _ _ _ _ _))
      · rw [List.reverse_reverse]
        exact point

end

/-- A polynomial of one row and one column variable, over two cycle rounds and one address round: the
middle round is a gap. -/
def gapReduction : PrecommittedClaimReduction := ⟨⟨3, 3, 2, 1, 2⟩, [2, 0], [0], 2, [0], 1⟩

theorem precommittedReduction_complete_gap : ∃ kernel cycleRun addressKernel addressRun point,
    PrecommittedClaimReduction.new 1 1 (PrecommittedClaimReduction.schedulingReferenceOf 3 [] 1)
      .cycleMajor 2 = .ok gapReduction ∧
    CycleReductionKernel.prepare "program image" gapReduction [(1 : ZMod 3), 2, 0, 1] [2, 2, 1, 0] [] =
      .ok kernel ∧
    kernel.run ([1 * 2, 2 * 2, 0 * 1, 1 * 0] : List (ZMod 3)).sum [1, 2] = .ok cycleRun ∧
    (kernel.after cycleRun).parkCarry = some addressKernel ∧
    addressKernel.run cycleRun.claim [2] = .ok addressRun ∧
    gapReduction.addressPhaseOpeningPoint [1] [2] = .ok point ∧
    Opened [1, 2, 0, 1] [2, 2, 1, 0] [] point gapReduction.precommittedSkipRoundScale addressRun := by
  have built : PrecommittedClaimReduction.new 1 1
      (PrecommittedClaimReduction.schedulingReferenceOf 3 [] 1) .cycleMajor 2 = .ok gapReduction := rfl
  have lengths : ∀ table ∈ [[(1 : ZMod 3), 2, 0, 1], [2, 2, 1, 0]], table.length = 2 ^ (1 + 1) := by
    simp
  obtain ⟨kernel, cycleRun, openingPoint, prepared, runs, -, opening, reversed, -, address⟩ :=
    precommittedReduction_complete (by decide) built "program image" lengths
      (show ([1, 2] : List (ZMod 3)).length = gapReduction.cyclePhaseTotalRounds from rfl)
      (show ([2] : List (ZMod 3)).length = gapReduction.addressPhaseTotalRounds from rfl)
  obtain ⟨addressKernel, addressRun, point, -, -, parked, addressRuns, -, at_, -, opened⟩ := address rfl
  rw [reversed] at at_
  exact ⟨kernel, cycleRun, addressKernel, addressRun, point, built, prepared, runs, parked, addressRuns,
    at_, opened⟩

end JoltWasm
