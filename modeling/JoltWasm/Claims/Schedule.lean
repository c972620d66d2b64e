import Mathlib.Data.List.GetD
import JoltWasm.Claims.Precommitted

/-!
# Schedules are permutations of rounds

The opening rounds of a polynomial are different rounds of the reference; sorted, they are its cycle
rounds and then its address rounds.  So the points that the verifier computes read off, for each
variable, the challenge of its round.
-/

namespace JoltWasm

open Lib

theorem mem_rangeRev {start end_ round : ℕ} : round ∈ rangeRev start end_ ↔ start ≤ round ∧ round < end_ := by
  rw [rangeRev, List.mem_reverse, List.mem_range'_1]
  omega

theorem nodup_rangeRev (start end_ : ℕ) : (rangeRev start end_).Nodup := by
  rw [rangeRev, List.nodup_reverse]
  exact List.nodup_range'

theorem mem_sortDedup {rounds : List ℕ} {round : ℕ} : round ∈ sortDedup rounds ↔ round ∈ rounds := by
  rw [sortDedup, List.mem_dedup]
  exact (List.perm_insertionSort _ _).mem_iff

theorem sortDedup_sorted (rounds : List ℕ) : (sortDedup rounds).Pairwise (· < ·) := by
  have sorted : (rounds.insertionSort (· ≤ ·)).Pairwise (· ≤ ·) := List.pairwise_insertionSort _ _
  have different : (sortDedup rounds).Pairwise (· ≠ ·) := List.nodup_dedup _
  exact ((sorted.sublist (List.dedup_sublist _)).and different).imp fun both =>
    lt_of_le_of_ne both.1 both.2

namespace PrecommittedClaimReduction

/-- The opening rounds of the reference are different rounds of its two phases. -/
theorem referenceDory_rounds (reference : PrecommittedSchedulingReference)
    (order : TracePolynomialOrder) (dominance : Bool) (dense : ℕ) :
    (referenceDoryOpeningRoundPermutationBe reference order dominance dense).Nodup ∧
      ∀ round ∈ referenceDoryOpeningRoundPermutationBe reference order dominance dense,
        round < reference.cycleAlignmentRounds + reference.addressRounds := by
  have nodup := nodup_rangeRev
  have append {first second : List ℕ} (first_ : first.Nodup) (second_ : second.Nodup)
      (apart : ∀ a ∈ first, ∀ b ∈ second, a ≠ b) : (first ++ second).Nodup :=
    List.nodup_append.mpr ⟨first_, second_, apart⟩
  let c := reference.cycleAlignmentRounds
  let e := c + reference.addressRounds
  let t := min dense c
  cases dominance with
  | false =>
      cases order with
      | cycleMajor => exact ⟨nodup 0 e, fun round member => (mem_rangeRev.mp member).2⟩
      | addressMajor =>
          refine ⟨append (nodup 0 c) (nodup c e) fun a inA b inB => ?_, fun round member => ?_⟩
          · rw [mem_rangeRev] at inA inB
            omega
          · rcases List.mem_append.mp member with member | member <;> rw [mem_rangeRev] at member <;> omega
  | true =>
      have cycles : ∀ round, round ∈ rangeRev 0 (c - t) ∨ round ∈ rangeRev (c - t) c → round < c := by
        intro round member
        rw [mem_rangeRev, mem_rangeRev] at member
        omega
      have addresses : ∀ round ∈ rangeRev c e, c ≤ round ∧ round < e := fun round => mem_rangeRev.mp
      have parts : ∀ a ∈ rangeRev 0 (c - t), ∀ b ∈ rangeRev (c - t) c, a < b := by
        intro a inA b inB
        rw [mem_rangeRev] at inA inB
        omega
      cases order with
      | cycleMajor =>
          refine ⟨append (append (nodup 0 (c - t)) (nodup c e) ?_) (nodup (c - t) c) ?_, ?_⟩
          · intro a inA b inB
            have := cycles a (Or.inl inA)
            have := addresses b inB
            omega
          · intro a inA b inB
            have := cycles b (Or.inr inB)
            rcases List.mem_append.mp inA with inA | inA
            · exact (parts a inA b inB).ne
            · have := addresses a inA
              omega
          · intro round member
            rcases List.mem_append.mp member with member | member
            · rcases List.mem_append.mp member with member | member
              · exact (cycles round (Or.inl member)).trans_le (Nat.le_add_right _ _)
              · exact (addresses round member).2
            · exact (cycles round (Or.inr member)).trans_le (Nat.le_add_right _ _)
      | addressMajor =>
          refine ⟨append (append (nodup (c - t) c) (nodup c e) ?_) (nodup 0 (c - t)) ?_, ?_⟩
          · intro a inA b inB
            have := cycles a (Or.inr inA)
            have := addresses b inB
            omega
          · intro a inA b inB
            have := cycles b (Or.inl inB)
            rcases List.mem_append.mp inA with inA | inA
            · exact (parts b inB a inA).ne'
            · have := addresses a inA
              omega
          · intro round member
            rcases List.mem_append.mp member with member | member
            · rcases List.mem_append.mp member with member | member
              · exact (cycles round (Or.inr member)).trans_le (Nat.le_add_right _ _)
              · exact (addresses round member).2
            · exact (cycles round (Or.inl member)).trans_le (Nat.le_add_right _ _)

/-- The opening rounds of a polynomial are different rounds of its two phases, and its phases' rounds
are these rounds in ascending order. -/
structure Scheduled (reduction : PrecommittedClaimReduction) : Prop where
  nodup : reduction.polyOpeningRoundPermutationBe.Nodup
  bounded : ∀ round ∈ reduction.polyOpeningRoundPermutationBe,
    round < reduction.cycleAlignmentRounds + reduction.addressPhaseTotalRounds
  total : reduction.cyclePhaseTotalRounds = reduction.cycleAlignmentRounds
  cycleSorted : reduction.cyclePhaseRounds.Pairwise (· < ·)
  mem_cycle : ∀ round, round ∈ reduction.cyclePhaseRounds ↔
    round ∈ reduction.polyOpeningRoundPermutationBe ∧ round < reduction.cycleAlignmentRounds
  addressSorted : reduction.addressPhaseRounds.Pairwise (· < ·)
  mem_address : ∀ round, round ∈ reduction.addressPhaseRounds ↔
    reduction.cycleAlignmentRounds + round ∈ reduction.polyOpeningRoundPermutationBe

variable {reduction : PrecommittedClaimReduction}

theorem project_sublist {permutation projected : List ℕ} {reference : PrecommittedSchedulingReference}
    {rowVars colVars : ℕ}
    (projects : projectDoryRoundPermutationForPoly permutation reference rowVars colVars =
      .ok projected) : projected.Sublist permutation := by
  unfold projectDoryRoundPermutationForPoly at projects
  simp only at projects
  split_ifs at projects with length fits
  cases projects
  have whole : permutation = permutation.take (reference.referenceTotalVars - reference.jointColVars) ++
      permutation.drop (reference.referenceTotalVars - reference.jointColVars) :=
    (List.take_append_drop _ _).symm
  conv => rhs; rw [whole]
  exact (List.drop_sublist _ _).append ((List.drop_sublist _ _).trans (List.take_sublist _ _))

theorem project_length {permutation projected : List ℕ} {reference : PrecommittedSchedulingReference}
    {rowVars colVars : ℕ} (columns : reference.jointColVars ≤ reference.referenceTotalVars)
    (projects : projectDoryRoundPermutationForPoly permutation reference rowVars colVars =
      .ok projected) : projected.length = rowVars + colVars := by
  unfold projectDoryRoundPermutationForPoly at projects
  simp only at projects
  split_ifs at projects with length fits
  cases projects
  rw [not_not] at length
  rw [not_or, Nat.not_lt, Nat.not_lt] at fits
  rw [List.length_append, List.length_drop, List.length_drop, List.length_take, List.length_take,
    List.length_drop, length]
  omega

theorem new_scheduled {rowVars colVars : ℕ} {reference : PrecommittedSchedulingReference}
    {order : TracePolynomialOrder} {logT : ℕ}
    (built : new rowVars colVars reference order logT = .ok reduction) : reduction.Scheduled := by
  unfold new at built
  obtain ⟨permutation, projects, built⟩ := except_bind_eq_ok.mp built
  cases built
  obtain ⟨nodup, bounded⟩ := referenceDory_rounds reference order
    (decide (reference.mainTotalVars < reference.referenceTotalVars))
    (if decide (reference.mainTotalVars < reference.referenceTotalVars) then logT else 0)
  have sublist := project_sublist projects
  refine ⟨nodup.sublist sublist, fun round member => bounded round (sublist.subset member), rfl,
    sortDedup_sorted _, fun round => ?_, sortDedup_sorted _, fun round => ?_⟩
  · refine mem_sortDedup.trans (List.mem_filter.trans ?_)
    rw [decide_eq_true_iff]
    rfl
  · refine mem_sortDedup.trans (List.mem_map.trans ?_)
    simp only [List.mem_filter, Bool.not_eq_true', decide_eq_false_iff_not, Nat.not_lt]
    constructor
    · rintro ⟨global, ⟨member, above⟩, rfl⟩
      rwa [cycleAlignmentRounds, Nat.add_sub_cancel' above]
    · intro member
      exact ⟨_, ⟨member, Nat.le_add_right _ _⟩, Nat.add_sub_cancel_left _ _⟩

theorem new_length {rowVars colVars : ℕ} {reference : PrecommittedSchedulingReference}
    (columns : reference.jointColVars ≤ reference.referenceTotalVars) {order : TracePolynomialOrder}
    {logT : ℕ} (built : new rowVars colVars reference order logT = .ok reduction) :
    reduction.polyOpeningRoundPermutationBe.length = rowVars + colVars := by
  unfold new at built
  obtain ⟨permutation, projects, built⟩ := except_bind_eq_ok.mp built
  cases built
  exact project_length columns projects

/-- The columns of a shared reference are balanced. -/
theorem schedulingReferenceOf_columns (mainTotalVars : ℕ) (candidates : List ℕ) (logKChunk : ℕ) :
    (schedulingReferenceOf mainTotalVars candidates logKChunk).jointColVars ≤
      (schedulingReferenceOf mainTotalVars candidates logKChunk).referenceTotalVars := by
  simp only [schedulingReferenceOf, CommitmentMatrixShape.balanced]
  omega

/-! ## Points -/

variable {F : Type}

/-- Challenges of different rounds are given by the round. -/
theorem exists_roundChallenge [Zero F] {rounds : List ℕ} (nodup : rounds.Nodup) {challenges : List F}
    (length : challenges.length = rounds.length) :
    ∃ challenge : ℕ → F, challenges = rounds.map challenge := by
  refine ⟨fun round => challenges.getD (rounds.idxOf round) 0, List.ext_getElem (by simpa) ?_⟩
  intro i inside inside'
  rw [List.getElem_map, nodup.idxOf_getElem, List.getD_eq_getElem _ _ inside]

theorem cycleChallengeForRound_ok (challenge : ℕ → F) {round : ℕ}
    (active : round ∈ reduction.cyclePhaseRounds) :
    reduction.cycleChallengeForRound (reduction.cyclePhaseRounds.map challenge) round =
      .ok (challenge round) := by
  unfold cycleChallengeForRound
  cases found : reduction.cyclePhaseRounds.idxOf? round with
  | none => exact absurd active (List.idxOf?_eq_none_iff.mp found)
  | some idx =>
      obtain ⟨inside, at_, -⟩ := List.idxOf?_eq_some_iff.mp found
      simp only [List.getElem?_map, List.getElem?_eq_getElem inside, at_, Option.map_some]

theorem cyclePhaseVariableChallenges_ok [Field F] {challenges : List F}
    (length : challenges.length = reduction.cyclePhaseTotalRounds) :
    reduction.cyclePhaseVariableChallenges challenges =
      .ok (reduction.cyclePhaseRounds.map fun round => challenges.getD round 0) :=
  if_neg (not_not.mpr length)

theorem cyclePhaseOpeningPoint_ok [Field F] {challenges : List F}
    (length : challenges.length = reduction.cyclePhaseTotalRounds) :
    reduction.cyclePhaseOpeningPoint challenges =
      .ok (reduction.cyclePhaseRounds.map fun round => challenges.getD round 0).reverse :=
  except_bind_eq_ok.mpr ⟨_, cyclePhaseVariableChallenges_ok length, rfl⟩

namespace Scheduled

variable (scheduled : reduction.Scheduled)
include scheduled

theorem cycle_nodup : reduction.cyclePhaseRounds.Nodup := scheduled.cycleSorted.imp fun less => less.ne

/-- All rounds of a polynomial, in ascending order. -/
theorem rounds_sorted : (reduction.cyclePhaseRounds ++
    reduction.addressPhaseRounds.map (reduction.cycleAlignmentRounds + ·)).Pairwise (· < ·) := by
  refine List.pairwise_append.mpr ⟨scheduled.cycleSorted, ?_, ?_⟩
  · exact List.pairwise_map.mpr (scheduled.addressSorted.imp fun less => Nat.add_lt_add_left less _)
  · intro a inA b inB
    obtain ⟨round, -, rfl⟩ := List.mem_map.mp inB
    exact ((scheduled.mem_cycle a).mp inA).2.trans_le (Nat.le_add_right _ _)

/-- They are the opening rounds. -/
theorem rounds_perm : List.Perm (reduction.cyclePhaseRounds ++
    reduction.addressPhaseRounds.map (reduction.cycleAlignmentRounds + ·))
      reduction.polyOpeningRoundPermutationBe := by
  refine (List.perm_ext_iff_of_nodup (scheduled.rounds_sorted.imp fun less => less.ne)
    scheduled.nodup).mpr fun round => ?_
  rw [List.mem_append, scheduled.mem_cycle, List.mem_map]
  constructor
  · rintro (⟨member, -⟩ | ⟨local_, member, rfl⟩)
    · exact member
    · exact (scheduled.mem_address local_).mp member
  · intro member
    rcases Nat.lt_or_ge round reduction.cycleAlignmentRounds with low | high
    · exact Or.inl ⟨member, low⟩
    · refine Or.inr ⟨round - reduction.cycleAlignmentRounds, ?_, Nat.add_sub_cancel' high⟩
      rwa [scheduled.mem_address, Nat.add_sub_cancel' high]

/-- Without active address rounds all opening rounds are cycle rounds. -/
theorem allCycle (final : reduction.hasAddressPhase = false) {round : ℕ}
    (member : round ∈ reduction.polyOpeningRoundPermutationBe) :
    round < reduction.cycleAlignmentRounds := by
  by_contra above
  have active : round - reduction.cycleAlignmentRounds ∈ reduction.addressPhaseRounds := by
    rwa [scheduled.mem_address, Nat.add_sub_cancel' (Nat.not_lt.mp above)]
  rw [hasAddressPhase, decide_eq_false_iff_not, numAddressPhaseRounds, Nat.not_lt,
    Nat.le_zero, List.length_eq_zero_iff] at final
  rw [final] at active
  cases active

theorem activeAddress_lt {round : ℕ} (member : round ∈ reduction.addressPhaseRounds) :
    round < reduction.addressPhaseTotalRounds := by
  have := scheduled.bounded _ ((scheduled.mem_address round).mp member)
  omega

theorem cyclePhasePermutedOpeningPoint_ok [Field F] (final : reduction.hasAddressPhase = false)
    {challenges : List F} (length : challenges.length = reduction.cyclePhaseTotalRounds) :
    reduction.cyclePhasePermutedOpeningPoint challenges =
      .ok (reduction.polyOpeningRoundPermutationBe.map fun round => challenges.getD round 0) := by
  unfold cyclePhasePermutedOpeningPoint
  rw [if_neg (not_not.mpr length)]
  exact mapM_ok fun round member => if_pos (scheduled.allCycle final member)

/-- The permuted point is recovered from the point at the end of the cycle phase. -/
theorem cyclePhasePermutedFromOpeningPoint_ok (final : reduction.hasAddressPhase = false)
    (challenge : ℕ → F) :
    reduction.cyclePhasePermutedFromOpeningPoint (reduction.cyclePhaseRounds.map challenge).reverse =
      .ok (reduction.polyOpeningRoundPermutationBe.map challenge) := by
  unfold cyclePhasePermutedFromOpeningPoint
  rw [if_neg (by simp), List.reverse_reverse]
  refine mapM_ok fun round member => ?_
  have low := scheduled.allCycle final member
  rw [if_pos low]
  exact cycleChallengeForRound_ok challenge ((scheduled.mem_cycle round).mpr ⟨member, low⟩)

theorem addressPhaseOpeningPoint_ok [Field F] (challenge : ℕ → F) {challenges : List F}
    (length : challenges.length = reduction.addressPhaseTotalRounds) :
    reduction.addressPhaseOpeningPoint (reduction.cyclePhaseRounds.map challenge) challenges =
      .ok (reduction.polyOpeningRoundPermutationBe.map fun round =>
        if round < reduction.cycleAlignmentRounds then challenge round
        else challenges.getD (round - reduction.cycleAlignmentRounds) 0) := by
  unfold addressPhaseOpeningPoint
  rw [if_neg (by simp), if_neg (not_not.mpr length)]
  refine mapM_ok fun round member => ?_
  by_cases low : round < reduction.cycleAlignmentRounds
  · rw [if_pos low, if_pos low]
    exact cycleChallengeForRound_ok challenge ((scheduled.mem_cycle round).mpr ⟨member, low⟩)
  · rw [if_neg low, if_neg low]

end Scheduled

end PrecommittedClaimReduction

end JoltWasm
