import Mathlib.Data.List.Nodup
import JoltWasm.R1cs.Field
import JoltWasm.Sumcheck.Batch
import JoltWasm.Sumcheck.Soundness

/-!
# A round of the batched sum-check

The members of a round that answer with the right sums give a round that succeeds, in whatever order a
scheduler visits them, and that the verifier follows.
-/

namespace JoltWasm

open Polynomial Lib

/-! ## Coefficients -/

section Coefficients

variable {F : Type} [Field F]

theorem length_addScaled (c : F) (slots coefficients : List F) :
    (addScaled c slots coefficients).length = slots.length := by
  induction slots generalizing coefficients with
  | nil => rfl
  | cons slot slots ih => cases coefficients with
    | nil => rfl
    | cons coefficient coefficients => exact congrArg (· + 1) (ih coefficients)

/-- Scaled additions commute. -/
theorem addScaled_comm (a b : F) (slots p q : List F) :
    addScaled b (addScaled a slots p) q = addScaled a (addScaled b slots q) p := by
  induction slots generalizing p q with
  | nil => rfl
  | cons slot slots ih => cases p with
    | nil => cases q <;> rfl
    | cons x p => cases q with
      | nil => rfl
      | cons y q =>
          simp only [addScaled, ih]
          congr 1
          ring

/-- A scaled addition adds the values, when the polynomial fits. -/
theorem eval_addScaled (c : F) {slots coefficients : List F}
    (fits : coefficients.length ≤ slots.length) (x : F) :
    (ofCoefficients (addScaled c slots coefficients)).eval x =
      (ofCoefficients slots).eval x + c * (ofCoefficients coefficients).eval x := by
  induction slots generalizing coefficients with
  | nil =>
      obtain rfl := List.eq_nil_of_length_eq_zero (Nat.le_zero.mp fits)
      simp [addScaled, ofCoefficients]
  | cons slot slots ih => cases coefficients with
    | nil => simp [addScaled, ofCoefficients]
    | cons coefficient coefficients =>
        rw [addScaled, eval_ofCoefficients_cons, eval_ofCoefficients_cons, eval_ofCoefficients_cons,
          ih (Nat.le_of_succ_le_succ fits)]
        ring

theorem eval_replicate_zero (n : ℕ) (x : F) : (ofCoefficients (List.replicate n 0)).eval x = 0 := by
  induction n with
  | zero => simp [ofCoefficients]
  | succ n ih => rw [List.replicate_succ, eval_ofCoefficients_cons, ih, mul_zero, add_zero]

theorem eval_concat_zero (cs : List F) (x : F) :
    (ofCoefficients (cs ++ [0])).eval x = (ofCoefficients cs).eval x := by
  induction cs with
  | nil => simp [ofCoefficients]
  | cons c cs ih => rw [List.cons_append, eval_ofCoefficients_cons, eval_ofCoefficients_cons, ih]

/-- What the verifier does with a compressed round polynomial: its degree, its absorption and its
value. -/
theorem compress_spec {T : Type} [Transcript T F] {p : UnivariatePoly F}
    (long : 2 ≤ p.coefficients.length) (t : T) :
    ∃ compressed, p.compress = .ok compressed ∧
      compressed.coeffsExceptLinearTerm ≠ [] ∧ compressed.degree = p.coefficients.length - 1 ∧
      (∀ hint r, p.evaluate 0 + p.evaluate 1 = hint →
        compressed.evaluateWithHint hint r = some (p.evaluate r)) ∧
      compressed.coeffsExceptLinearTerm.foldl Transcript.appendScalar
          (Transcript.appendLabel t sumcheckRoundLabel compressed.coeffsExceptLinearTerm.length) =
        (⟨.compressedLabeled sumcheckRoundLabel, p⟩ : ClearRound F).appendToTranscript t := by
  obtain ⟨c0, c1, cs, shape⟩ : ∃ c0 c1 cs, p.coefficients = c0 :: c1 :: cs := by
    match shape : p.coefficients with
    | [] => rw [shape] at long; cases long
    | [_] => rw [shape] at long; simp at long
    | c0 :: c1 :: cs => exact ⟨c0, c1, cs, rfl⟩
  refine ⟨⟨c0 :: cs⟩, by rw [UnivariatePoly.compress, shape], nofun, ?_, ?_, ?_⟩
  · rw [shape]
    rfl
  · intro hint r sum
    simp only [UnivariatePoly.evaluate_eq_eval, UnivariatePoly.polynomial, shape,
      eval_ofCoefficients_cons] at sum ⊢
    unfold CompressedPoly.evaluateWithHint CompressedPoly.recoverLinearTerm
    refine congrArg some ?_
    rw [foldl_power, foldl_sub, ← sum]
    ring
  · simp only [ClearRound.appendToTranscript, shape]
    rfl

variable [DecidableEq F]

/-- Trimming keeps two coefficients, the degree bound and the values. -/
theorem trimReversed_spec (cs : List F) (long : 2 ≤ cs.length) :
    2 ≤ (trimReversed cs).length ∧ (trimReversed cs).length ≤ cs.length ∧
      ∀ x, (ofCoefficients (trimReversed cs).reverse).eval x = (ofCoefficients cs.reverse).eval x := by
  induction cs with
  | nil => cases long
  | cons c rest ih =>
      unfold trimReversed
      split_ifs with trimmed
      · obtain ⟨lower, upper, same⟩ := ih trimmed.1
        refine ⟨lower, upper.trans (Nat.le_succ _), fun x => ?_⟩
        rw [same, List.reverse_cons, trimmed.2, eval_concat_zero]
      · exact ⟨long, le_rfl, fun x => rfl⟩

theorem trimRoundPolynomial_spec (cs : List F) (long : 2 ≤ cs.length) :
    2 ≤ (trimRoundPolynomial cs).coefficients.length ∧
      (trimRoundPolynomial cs).coefficients.length ≤ cs.length ∧
      ∀ x, (trimRoundPolynomial cs).evaluate x = (ofCoefficients cs).eval x := by
  obtain ⟨lower, upper, same⟩ := trimReversed_spec cs.reverse (by rwa [List.length_reverse])
  unfold trimRoundPolynomial
  refine ⟨by rwa [List.length_reverse], ?_, fun x => ?_⟩
  · rw [List.length_reverse]
    exact upper.trans List.length_reverse.le
  · rw [UnivariatePoly.evaluate_eq_eval, UnivariatePoly.polynomial, same, List.reverse_reverse]

end Coefficients

/-! ## The work of a round -/

section Work

variable {F : Type}

theorem length_le_of_degree {p : UnivariatePoly F} {d : ℕ} (bound : p.degree ≤ d) :
    p.coefficients.length ≤ d + 1 := by
  unfold UnivariatePoly.degree at bound
  split at bound
  · next empty => simp [List.isEmpty_iff.mp empty]
  · omega

/-- A member's answer to the call of an item. -/
def MemberRound.reply (item : MemberRound F) : UnivariatePoly F :=
  match item.member.kernel.proveRound item.member.calls item.bind item.localRound item.claim with
  | .ok poly => poly
  | .error _ => ⟨[]⟩

/-- The scheduler runs every item once, in some order, and leaves them in some arrangement. -/
structure RoundScheduler.RunsEachOnce (scheduler : RoundScheduler F) : Prop where
  rounds : ∀ works work, ∃ order, List.Perm order work ∧
    ∀ ran, order.mapM MemberRound.run = .ok ran →
      ∃ left, scheduler.batchProveRound works work = .ok left ∧ List.Perm left ran
  finishes : ∀ works items, ∃ order, List.Perm order items ∧
    ∀ ran, order.mapM MemberFinish.run = .ok ran →
      ∃ left, scheduler.batchFinishRounds works items = .ok left ∧ List.Perm left ran

/-- What a scheduler leaves of work that all runs. -/
theorem RoundScheduler.RunsEachOnce.left {scheduler : RoundScheduler F} (once : scheduler.RunsEachOnce)
    (works : List (List (MemberRound F))) {work : List (MemberRound F)}
    (runs : ∀ item ∈ work, item.run = .ok (item.answered item.reply)) :
    ∃ left, scheduler.batchProveRound works work = .ok left ∧
      List.Perm left (work.map fun item => item.answered item.reply) := by
  obtain ⟨order, perm, result⟩ := once.rounds works work
  obtain ⟨left, ran, same⟩ := result _ (mapM_ok fun item member => runs item (perm.mem_iff.mp member))
  exact ⟨left, ran, same.trans (perm.map _)⟩

theorem RoundScheduler.RunsEachOnce.leftFinishes {scheduler : RoundScheduler F}
    (once : scheduler.RunsEachOnce) (works : List (List (MemberRound F)))
    {items : List (MemberFinish F)} (runs : ∀ item ∈ items, item.run = .ok item.finished) :
    ∃ left, scheduler.batchFinishRounds works items = .ok left ∧
      List.Perm left (items.map MemberFinish.finished) := by
  obtain ⟨order, perm, result⟩ := once.finishes works items
  obtain ⟨left, ran, same⟩ := result _ (mapM_ok fun item member => runs item (perm.mem_iff.mp member))
  exact ⟨left, ran, same.trans (perm.map _)⟩

/-- Modifying different positions of a list, in any order. -/
theorem foldl_modify_perm {α β : Type} {index : α → ℕ} {f : α → β → β} {items left : List α}
    (perm : List.Perm left items) (different : (items.map index).Nodup) (slots : List β) :
    left.foldl (fun slots item => slots.modify (index item) (f item)) slots =
      items.foldl (fun slots item => slots.modify (index item) (f item)) slots := by
  refine perm.foldl_eq' (fun x hx y hy slots => ?_) slots
  by_cases same : index x = index y
  · rw [List.inj_on_of_nodup_map different (perm.mem_iff.mp hx) (perm.mem_iff.mp hy) same]
  · exact List.modify_modify_ne _ _ _ same

/-- The call of an active member. -/
def BatchSlot.item (round index : ℕ) (slot : BatchSlot F) : MemberRound F where
  index := index
  localRound := round - slot.described.offset
  bind := slot.pending
  claim := slot.claim
  member := slot.member
  message := none

/-- The work of a round, from position `index` on. -/
def roundWork (round : ℕ) : ℕ → List (BatchSlot F) → List (MemberRound F)
  | _, [] => []
  | index, slot :: slots =>
      if slot.active round then slot.item round index :: roundWork round (index + 1) slots
      else roundWork round (index + 1) slots

theorem mem_roundWork {round index : ℕ} {slots : List (BatchSlot F)} {item : MemberRound F}
    (member : item ∈ roundWork round index slots) :
    ∃ i, ∃ slot : BatchSlot F, slots[i]? = some slot ∧ slot.active round = true ∧
      item = slot.item round (index + i) := by
  induction slots generalizing index with
  | nil => cases member
  | cons slot slots ih =>
      have later (member : item ∈ roundWork round (index + 1) slots) :
          ∃ i, ∃ found : BatchSlot F, (slot :: slots)[i]? = some found ∧ found.active round = true ∧
            item = found.item round (index + i) := by
        obtain ⟨i, found, there, active, rfl⟩ := ih member
        exact ⟨i + 1, found, there, active, by rw [Nat.add_assoc, Nat.add_comm 1]⟩
      rw [roundWork] at member
      split_ifs at member with active
      · rcases List.mem_cons.mp member with rfl | member
        · exact ⟨0, slot, rfl, active, rfl⟩
        · exact later member
      · exact later member

theorem roundWork_indices (round index : ℕ) (slots : List (BatchSlot F)) :
    ((roundWork round index slots).map MemberRound.index).Nodup ∧
      ∀ i ∈ (roundWork round index slots).map MemberRound.index, index ≤ i := by
  induction slots generalizing index with
  | nil => exact ⟨List.nodup_nil, nofun⟩
  | cons slot slots ih =>
      obtain ⟨different, lower⟩ := ih (index + 1)
      rw [roundWork]
      split_ifs with active
      · rw [List.map_cons]
        refine ⟨List.nodup_cons.mpr ⟨fun again => ?_, different⟩, fun i member => ?_⟩
        · have := lower _ again
          simp [BatchSlot.item] at this
        · rcases List.mem_cons.mp member with rfl | member
          · exact le_rfl
          · exact (Nat.le_succ _).trans (lower i member)
      · exact ⟨different, fun i member => (Nat.le_succ _).trans (lower i member)⟩

/-- The members stand at their positions. -/
def Positioned : ℕ → List (BatchSlot F) → Prop
  | _, [] => True
  | index, slot :: slots => slot.member.position = index ∧ Positioned (index + 1) slots

theorem Positioned.map {index : ℕ} {slots : List (BatchSlot F)} (positioned : Positioned index slots)
    {f : BatchSlot F → BatchSlot F} (same : ∀ slot, (f slot).member.position = slot.member.position) :
    Positioned index (slots.map f) := by
  induction slots generalizing index with
  | nil => trivial
  | cons slot slots ih => exact ⟨(same slot).trans positioned.1, ih positioned.2⟩

theorem positions_roundWork (round : ℕ) {index : ℕ} {slots : List (BatchSlot F)}
    (positioned : Positioned index slots) :
    (roundWork round index slots).map (fun item => item.member.position) =
      (roundWork round index slots).map MemberRound.index := by
  induction slots generalizing index with
  | nil => rfl
  | cons slot slots ih =>
      have rest := ih positioned.2
      rw [roundWork]
      split_ifs with active
      · rw [List.map_cons, List.map_cons, rest]
        exact congrArg (· :: _) positioned.1
      · exact rest

theorem modify_length_append {α : Type} (before : List α) (a : α) (after : List α) (f : α → α) :
    (before ++ a :: after).modify before.length f = before ++ f a :: after := by
  induction before with
  | nil => rfl
  | cons b before ih => exact congrArg (b :: ·) ih

/-- Modifying the slots of the work modifies the active slots. -/
theorem foldl_roundWork (round : ℕ) {change : MemberRound F → BatchSlot F → BatchSlot F}
    {changed base : BatchSlot F → BatchSlot F} (before slots : List (BatchSlot F))
    (active : ∀ slot ∈ slots, ∀ index, slot.active round = true →
      change (slot.item round index) (base slot) = changed slot)
    (inactive : ∀ slot, slot.active round = false → base slot = changed slot) :
    (roundWork round before.length slots).foldl
        (fun slots item => slots.modify item.index (change item)) (before ++ slots.map base) =
      before ++ slots.map changed := by
  induction slots generalizing before with
  | nil => rfl
  | cons slot slots ih =>
      have rest := ih (before ++ [changed slot]) fun other member =>
        active other (List.mem_cons_of_mem _ member)
      rw [List.length_append, List.length_singleton, List.append_assoc, List.append_assoc] at rest
      rw [roundWork]
      split_ifs with now
      · rw [List.foldl_cons, List.map_cons, BatchSlot.item, modify_length_append, ← BatchSlot.item,
          active slot List.mem_cons_self _ now]
        exact rest
      · rw [List.map_cons, inactive slot (Bool.eq_false_iff.mpr now)]
        exact rest

/-- The slot after the final bind. -/
def BatchSlot.finished (slot : BatchSlot F) : BatchSlot F :=
  match slot.pending with
  | none => slot
  | some bind => { slot with member := (MemberFinish.mk bind slot.member).finished.member }

theorem positions_finishItems {index : ℕ} {slots : List (BatchSlot F)}
    (positioned : Positioned index slots) :
    ((finishItems slots).map fun item => item.member.position).Nodup ∧
      ∀ i ∈ (finishItems slots).map fun item => item.member.position, index ≤ i := by
  induction slots generalizing index with
  | nil => exact ⟨List.nodup_nil, nofun⟩
  | cons slot slots ih =>
      obtain ⟨different, lower⟩ := ih positioned.2
      rw [finishItems]
      split
      · exact ⟨different, fun i member => (Nat.le_succ _).trans (lower i member)⟩
      · rw [List.map_cons]
        refine ⟨List.nodup_cons.mpr ⟨fun again => ?_, different⟩, fun i member => ?_⟩
        · exact absurd (lower _ again) (by simp [positioned.1])
        · rcases List.mem_cons.mp member with rfl | member
          · exact positioned.1.ge
          · exact (Nat.le_succ _).trans (lower i member)

theorem mem_finishItems {slots : List (BatchSlot F)} {item : MemberFinish F}
    (member : item ∈ finishItems slots) :
    ∃ slot ∈ slots, slot.pending = some item.bind ∧ item.member = slot.member := by
  induction slots with
  | nil => cases member
  | cons slot slots ih =>
      rw [finishItems] at member
      split at member
      · obtain ⟨found, inside, rest⟩ := ih member
        exact ⟨found, List.mem_cons_of_mem _ inside, rest⟩
      · next bind pending =>
          rcases List.mem_cons.mp member with rfl | member
          · exact ⟨slot, List.mem_cons_self, pending, rfl⟩
          · obtain ⟨found, inside, rest⟩ := ih member
            exact ⟨found, List.mem_cons_of_mem _ inside, rest⟩

/-- The members of the finishing work, written back in place. -/
theorem foldl_finishItems (before slots : List (BatchSlot F)) (positioned : Positioned before.length slots) :
    (finishItems slots).foldl (fun slots item => slots.modify item.member.position
        fun slot => { slot with member := item.finished.member }) (before ++ slots) =
      before ++ slots.map BatchSlot.finished := by
  induction slots generalizing before with
  | nil => simp [finishItems]
  | cons slot slots ih =>
      have rest := ih (before ++ [slot.finished]) (by
        rw [List.length_append, List.length_singleton]
        exact positioned.2)
      rw [List.append_assoc, List.append_assoc] at rest
      rw [List.map_cons]
      refine Eq.trans ?_ rest
      rw [finishItems]
      split
      · next pending =>
          have same : slot.finished = slot := by rw [BatchSlot.finished, pending]
          rw [same]
          rfl
      · next bind pending =>
          have now : slot.finished = { slot with
              member := (MemberFinish.mk bind slot.member).finished.member } := by
            rw [BatchSlot.finished, pending]
          rw [List.foldl_cons, positioned.1, modify_length_append, now]
          rfl

/-- The final binds, delivered in any order. -/
theorem foldl_writeFinished {slots : List (BatchSlot F)} (positioned : Positioned 0 slots)
    {left : List (MemberFinish F)}
    (perm : List.Perm left ((finishItems slots).map MemberFinish.finished)) :
    (left.map MemberFinish.member).foldl writeMember slots = slots.map BatchSlot.finished := by
  have different : (((finishItems slots).map MemberFinish.finished).map
      fun item => item.member.position).Nodup := by
    rw [List.map_map]
    exact (positions_finishItems positioned).1
  rw [List.foldl_map]
  calc _ = ((finishItems slots).map MemberFinish.finished).foldl
        (fun slots item => slots.modify item.member.position
          fun slot => { slot with member := item.member }) slots :=
        foldl_modify_perm perm different _
    _ = _ := by
        rw [List.foldl_map]
        exact foldl_finishItems [] slots positioned

end Work

/-! ## One round -/

section Round

variable {F : Type} [Field F] {prelude : BatchPrelude F}

/-- The messages of the work fit the prelude. -/
def MemberRound.Fits (prelude : BatchPrelude F) (item : MemberRound F) : Prop :=
  item.reply.degree ≤ prelude.maxDegree ∧ item.index < prelude.members.length

/-- The coefficient of the item's member. -/
def MemberRound.coefficient (prelude : BatchPrelude F) (item : MemberRound F) : F :=
  (prelude.members[item.index]?.map BatchMember.coefficient).getD 0

/-- The messages are added up, in any order. -/
theorem combineMessages_ok {left work : List (MemberRound F)}
    (perm : List.Perm left (work.map fun item => item.answered item.reply))
    (fits : ∀ item ∈ work, item.Fits prelude) (coefficients : List F) :
    combineMessages prelude left coefficients = .ok (work.foldl (fun slots item =>
      addScaled (item.coefficient prelude) slots item.reply.coefficients) coefficients) := by
  have all : ∀ left : List (MemberRound F), (∀ item ∈ left, ∃ poly, item.message = some poly ∧
      poly.degree ≤ prelude.maxDegree ∧ item.index < prelude.members.length) → ∀ coefficients,
      combineMessages prelude left coefficients = .ok (left.foldl (fun slots item =>
        addScaled (item.coefficient prelude) slots (item.message.getD ⟨[]⟩).coefficients)
          coefficients) := by
    intro left
    induction left with
    | nil => exact fun _ _ => rfl
    | cons item left ih =>
        intro each coefficients
        obtain ⟨poly, message, degree, small⟩ := each item List.mem_cons_self
        simp only [combineMessages, message, if_neg (Nat.not_lt.mpr degree),
          List.getElem?_eq_getElem small]
        rw [ih (fun other member => each other (List.mem_cons_of_mem _ member)), List.foldl_cons,
          MemberRound.coefficient, message, List.getElem?_eq_getElem small]
        rfl
  rw [all left]
  · refine congrArg Except.ok ?_
    rw [perm.foldl_eq' (fun _ _ _ _ _ => addScaled_comm _ _ _ _ _), List.foldl_map]
    rfl
  · intro item member
    obtain ⟨original, inWork, rfl⟩ := List.mem_map.mp (perm.mem_iff.mp member)
    exact ⟨_, rfl, fits original inWork⟩

/-- The challenge is attributed, in any order. -/
theorem attributeChallenge_ok {left work : List (MemberRound F)} {challenge : F}
    {slots : List (BatchSlot F)} (perm : List.Perm left (work.map fun item => item.answered item.reply))
    (different : (work.map MemberRound.index).Nodup)
    (small : ∀ item ∈ work, item.index < slots.length) :
    attributeChallenge prelude challenge left slots = .ok (work.foldl (fun slots item =>
      slots.modify item.index (·.bound item.reply challenge)) slots) := by
  have all : ∀ left : List (MemberRound F), ∀ slots : List (BatchSlot F),
      (∀ item ∈ left, (∃ poly, item.message = some poly) ∧ item.index < slots.length) →
      attributeChallenge prelude challenge left slots = .ok (left.foldl (fun slots item =>
        slots.modify item.index (·.bound (item.message.getD ⟨[]⟩) challenge)) slots) := by
    intro left
    induction left with
    | nil => exact fun _ _ => rfl
    | cons item left ih =>
        intro slots each
        obtain ⟨⟨poly, message⟩, inside⟩ := each item List.mem_cons_self
        simp only [attributeChallenge, message, if_neg (Nat.not_le.mpr inside)]
        rw [ih _ fun other member => ?_, List.foldl_cons, message]
        · rfl
        · rw [List.length_modify]
          exact each other (List.mem_cons_of_mem _ member)
  rw [all left slots]
  · refine congrArg Except.ok ?_
    rw [foldl_modify_perm perm (by rwa [List.map_map]), List.foldl_map]
    rfl
  · intro item member
    obtain ⟨original, inWork, rfl⟩ := List.mem_map.mp (perm.mem_iff.mp member)
    exact ⟨⟨_, rfl⟩, small original inWork⟩

namespace BatchSlot

/-- The round polynomial of an active member. -/
def message (round : ℕ) (slot : BatchSlot F) : UnivariatePoly F := (slot.item round 0).reply

/-- What the slot adds to the round at a point. -/
def contribution (round : ℕ) (x : F) (slot : BatchSlot F) : F :=
  slot.described.coefficient *
    if slot.active round then (slot.message round).evaluate x else slot.claim * 2⁻¹

/-- The slot after the first loop. -/
def opened (round : ℕ) (slot : BatchSlot F) : BatchSlot F :=
  if slot.active round then { slot with pending := none } else { slot with claim := slot.claim * 2⁻¹ }

/-- The slot after the round. -/
def next (round : ℕ) (challenge : F) (slot : BatchSlot F) : BatchSlot F :=
  if slot.active round then
    { slot with
      member := ((slot.item round 0).answered (slot.message round)).member
      claim := (slot.message round).evaluate challenge
      pending := some challenge }
  else { slot with claim := slot.claim * 2⁻¹ }

end BatchSlot

/-- The sum of the constants of a round. -/
def roundConstant (round : ℕ) (slots : List (BatchSlot F)) : F :=
  (slots.map fun slot => if slot.active round then 0 else
    slot.described.coefficient * (slot.claim * 2⁻¹)).sum

theorem openRound_eq (round index : ℕ) (slots : List (BatchSlot F)) :
    openRound round index slots =
      (slots.map (BatchSlot.opened round), roundConstant round slots, roundWork round index slots) := by
  induction slots generalizing index with
  | nil => rfl
  | cons slot slots ih =>
      rw [openRound, ih]
      cases active : slot.active round <;>
        simp [active, BatchSlot.opened, roundConstant, roundWork, BatchSlot.item]
/-- The slot after the members are written back. -/
def BatchSlot.written (round : ℕ) (slot : BatchSlot F) : BatchSlot F :=
  if slot.active round then
    { slot with
      member := ((slot.item round 0).answered (slot.message round)).member
      pending := none }
  else slot.opened round

/-- An active slot's member answers within the degree bound, with the right sum. -/
def BatchSlot.Ready (round maxDegree : ℕ) (slot : BatchSlot F) : Prop :=
  slot.active round = true →
    slot.member.kernel.proveRound slot.member.calls slot.pending (round - slot.described.offset)
        slot.claim = .ok (slot.message round) ∧
      (slot.message round).degree ≤ maxDegree ∧
      (slot.message round).evaluate 0 + (slot.message round).evaluate 1 = slot.claim

/-- The members of a round, written back in any order. -/
theorem foldl_writeMember {round : ℕ} {slots : List (BatchSlot F)} (positioned : Positioned 0 slots)
    {left : List (MemberRound F)}
    (perm : List.Perm left ((roundWork round 0 slots).map fun item => item.answered item.reply)) :
    (left.map MemberRound.member).foldl writeMember (slots.map (BatchSlot.opened round)) =
      slots.map (BatchSlot.written round) := by
  have positions := positions_roundWork round positioned
  have different : (((roundWork round 0 slots).map fun item => item.answered item.reply).map
      fun item => item.member.position).Nodup := by
    rw [List.map_map]
    exact positions ▸ (roundWork_indices round 0 slots).1
  rw [List.foldl_map]
  calc _ = ((roundWork round 0 slots).map fun item => item.answered item.reply).foldl
        (fun slots item => slots.modify item.member.position
          fun slot => { slot with member := item.member }) (slots.map (BatchSlot.opened round)) :=
        foldl_modify_perm perm different _
    _ = (roundWork round 0 slots).foldl (fun slots item => slots.modify item.index
          fun slot => { slot with member := (item.answered item.reply).member })
            (slots.map (BatchSlot.opened round)) := by
        rw [List.foldl_map]
        refine List.foldl_ext _ _ _ fun slots item member => ?_
        refine congrArg (slots.modify · _) ?_
        exact List.map_inj_left.mp positions item member
    _ = _ := by
        refine foldl_roundWork round [] slots (fun slot _ index active => ?_) fun slot inactive => ?_
        · simp only [BatchSlot.opened, BatchSlot.written, active, if_true]
          rfl
        · simp [BatchSlot.written, inactive]

/-- The challenge of a round, attributed. -/
theorem foldl_bound (round : ℕ) (challenge : F) (slots : List (BatchSlot F)) :
    (roundWork round 0 slots).foldl
        (fun slots item => slots.modify item.index (·.bound item.reply challenge))
        (slots.map (BatchSlot.written round)) = slots.map (BatchSlot.next round challenge) := by
  refine foldl_roundWork round [] slots (fun slot _ index active => ?_) fun slot inactive => ?_
  · simp only [BatchSlot.written, BatchSlot.next, active, if_true]
    rfl
  · simp [BatchSlot.written, BatchSlot.next, BatchSlot.opened, inactive]

/-! ### The round polynomial -/

/-- The prelude describes the slots. -/
def Describes (prelude : BatchPrelude F) (slots : List (BatchSlot F)) : Prop :=
  prelude.members = slots.map BatchSlot.described

/-- The coefficients of the batched round polynomial. -/
def roundCoefficients (prelude : BatchPrelude F) (round : ℕ) (slots : List (BatchSlot F)) : List F :=
  (roundWork round 0 slots).foldl (fun coefficients item =>
      addScaled (item.coefficient prelude) coefficients item.reply.coefficients)
    ((List.replicate (prelude.maxDegree + 1) 0).modify 0 (· + roundConstant round slots))

theorem length_foldl_addScaled {α : Type} (scale : α → F) (p : α → List F) (work : List α)
    (coefficients : List F) :
    (work.foldl (fun coefficients item => addScaled (scale item) coefficients (p item))
      coefficients).length = coefficients.length := by
  induction work generalizing coefficients with
  | nil => rfl
  | cons item work ih => rw [List.foldl_cons, ih, length_addScaled]

theorem eval_foldl_addScaled {α : Type} (scale : α → F) (p : α → List F) {work : List α}
    {coefficients : List F} (fits : ∀ item ∈ work, (p item).length ≤ coefficients.length) (x : F) :
    (ofCoefficients (work.foldl (fun coefficients item =>
      addScaled (scale item) coefficients (p item)) coefficients)).eval x =
      (ofCoefficients coefficients).eval x +
        (work.map fun item => scale item * (ofCoefficients (p item)).eval x).sum := by
  induction work generalizing coefficients with
  | nil => simp
  | cons item work ih =>
      rw [List.foldl_cons, ih, eval_addScaled _ (fits item List.mem_cons_self), List.map_cons,
        List.sum_cons, add_assoc]
      intro other member
      rw [length_addScaled]
      exact fits other (List.mem_cons_of_mem _ member)

/-- The messages and the constants add up to the contributions. -/
theorem sum_roundWork (prelude : BatchPrelude F) (round index : ℕ) {slots : List (BatchSlot F)}
    (described : ∀ i, prelude.members[index + i]? = slots[i]?.map BatchSlot.described) (x : F) :
    ((roundWork round index slots).map fun item =>
        item.coefficient prelude * item.reply.evaluate x).sum + roundConstant round slots =
      (slots.map (BatchSlot.contribution round x)).sum := by
  induction slots generalizing index with
  | nil => simp [roundWork, roundConstant]
  | cons slot slots ih =>
      have rest := ih (index + 1) fun i => by
        rw [Nat.add_assoc, Nat.add_comm 1, described, List.getElem?_cons_succ]
      rw [List.map_cons, List.sum_cons, ← rest, roundWork]
      have here := described 0
      rw [Nat.add_zero, List.getElem?_cons_zero, Option.map_some] at here
      cases active : slot.active round with
      | true =>
          simp only [if_true, List.map_cons, List.sum_cons, roundConstant, active, BatchSlot.contribution,
            BatchSlot.message, MemberRound.coefficient]
          rw [show (slot.item round index).index = index from rfl, here]
          simp only [Option.map_some, Option.getD_some, zero_add]
          rw [add_assoc]
          rfl
      | false =>
          simp only [roundConstant, List.map_cons, List.sum_cons, active, BatchSlot.contribution]
          simp only [Bool.false_eq_true, if_false]
          ring

theorem fits_roundWork {prelude : BatchPrelude F} {round : ℕ} {slots : List (BatchSlot F)}
    (described : Describes prelude slots)
    (ready : ∀ slot ∈ slots, slot.Ready round prelude.maxDegree) :
    ∀ item ∈ roundWork round 0 slots, item.Fits prelude := by
  intro item member
  obtain ⟨i, slot, there, active, rfl⟩ := mem_roundWork member
  refine ⟨(ready slot (List.mem_of_getElem? there) active).2.1, ?_⟩
  rw [described, List.length_map]
  have inside := (List.getElem?_eq_some_iff.mp there).1
  simpa [BatchSlot.item] using inside

theorem eval_roundCoefficients {prelude : BatchPrelude F} {round : ℕ} {slots : List (BatchSlot F)}
    (described : Describes prelude slots)
    (ready : ∀ slot ∈ slots, slot.Ready round prelude.maxDegree) (x : F) :
    (ofCoefficients (roundCoefficients prelude round slots)).eval x =
      (slots.map (BatchSlot.contribution round x)).sum := by
  have start : (ofCoefficients ((List.replicate (prelude.maxDegree + 1) 0).modify 0
      (· + roundConstant round slots))).eval x = roundConstant round slots := by
    rw [List.replicate_succ, List.modify_zero_cons, eval_ofCoefficients_cons, eval_replicate_zero]
    ring
  rw [roundCoefficients, eval_foldl_addScaled, start, add_comm,
    ← sum_roundWork prelude round 0 fun i => ?_]
  · simp only [UnivariatePoly.evaluate_eq_eval]
    rfl
  · rw [described, List.getElem?_map, Nat.zero_add]
  · intro item member
    rw [List.length_modify, List.length_replicate]
    exact length_le_of_degree (fits_roundWork described ready item member).1

theorem length_roundCoefficients (prelude : BatchPrelude F) (round : ℕ) (slots : List (BatchSlot F)) :
    (roundCoefficients prelude round slots).length = prelude.maxDegree + 1 := by
  rw [roundCoefficients, length_foldl_addScaled, List.length_modify, List.length_replicate]

/-- A weighted sum over the slots. -/
def weightedClaims (slots : List (BatchSlot F)) : F :=
  (slots.map fun slot => slot.described.coefficient * slot.claim).sum

/-- The contributions at zero and one add up to the weighted claims. -/
theorem sum_contribution (two : (2 : F) ≠ 0) {round maxDegree : ℕ} {slots : List (BatchSlot F)}
    (ready : ∀ slot ∈ slots, slot.Ready round maxDegree) :
    (slots.map (BatchSlot.contribution round 0)).sum + (slots.map (BatchSlot.contribution round 1)).sum =
      weightedClaims slots := by
  rw [← List.sum_map_add, weightedClaims]
  refine congrArg List.sum (List.map_congr_left fun slot member => ?_)
  unfold BatchSlot.contribution
  split_ifs with active
  · rw [← (ready slot member active).2.2]
    ring
  · field_simp
    ring

/-- The contributions at the challenge are the weighted claims after the round. -/
theorem sum_contribution_next (round : ℕ) (challenge : F) (slots : List (BatchSlot F)) :
    (slots.map (BatchSlot.contribution round challenge)).sum =
      weightedClaims (slots.map (BatchSlot.next round challenge)) := by
  rw [weightedClaims, List.map_map]
  refine congrArg List.sum (List.map_congr_left fun slot _ => ?_)
  simp only [BatchSlot.contribution, BatchSlot.next, Function.comp]
  split_ifs <;> rfl

section Run

variable [DecidableEq F] {T : Type} [Transcript T F]

/-- The state after a round. -/
def BatchState.after (s : BatchState F T) (round : ℕ) (challenge : F) (compressed : CompressedPoly F)
    (t : T) : BatchState F T where
  slots := s.slots.map (BatchSlot.next round challenge)
  runningClaim := weightedClaims (s.slots.map (BatchSlot.next round challenge))
  challenges := s.challenges ++ [challenge]
  roundPolynomials := s.roundPolynomials ++ [compressed]
  works := s.works ++ [roundWork round 0 s.slots]
  transcript := t

/-- A round of ready members succeeds, whatever the order, and the verifier follows it. -/
theorem proveBatchRound_ok (two : (2 : F) ≠ 0) {prelude : BatchPrelude F} {round : ℕ}
    {s : BatchState F T} (degree : 1 ≤ prelude.maxDegree) (described : Describes prelude s.slots)
    (positioned : Positioned 0 s.slots)
    (ready : ∀ slot ∈ s.slots, slot.Ready round prelude.maxDegree)
    (running : s.runningClaim = weightedClaims s.slots) :
    ∃ challenge compressed t,
      (∀ scheduler : RoundScheduler F, scheduler.RunsEachOnce →
        proveBatchRound prelude scheduler round s = .ok (s.after round challenge compressed t)) ∧
      ∀ (claim : SumcheckClaim F), claim.degree = prelude.maxDegree → ∀ index rest,
        verifyCompressedRounds claim sumcheckRoundLabel index s.runningClaim (compressed :: rest)
            s.transcript = do
          let (challenges, value, t) ← verifyCompressedRounds claim sumcheckRoundLabel (index + 1)
            (s.after round challenge compressed t).runningClaim rest t
          return (challenge :: challenges, value, t) := by
  have long := length_roundCoefficients prelude round s.slots
  obtain ⟨lower, upper, value⟩ :=
    trimRoundPolynomial_spec (roundCoefficients prelude round s.slots) (by omega)
  obtain ⟨compressed, compress, nonempty, compressedDegree, hinted, absorbed⟩ :=
    compress_spec lower s.transcript
  have sum : (trimRoundPolynomial (roundCoefficients prelude round s.slots)).evaluate 0 +
      (trimRoundPolynomial (roundCoefficients prelude round s.slots)).evaluate 1 = s.runningClaim := by
    rw [value, value, eval_roundCoefficients described ready, eval_roundCoefficients described ready,
      sum_contribution two ready, running]
  obtain ⟨⟨challenge, t⟩, drawn⟩ : ∃ drawn : F × T, Transcript.challenge
      ((⟨.compressedLabeled sumcheckRoundLabel, trimRoundPolynomial
        (roundCoefficients prelude round s.slots)⟩ : ClearRound F).appendToTranscript s.transcript) =
          drawn := ⟨_, rfl⟩
  have next : (trimRoundPolynomial (roundCoefficients prelude round s.slots)).evaluate challenge =
      weightedClaims (s.slots.map (BatchSlot.next round challenge)) := by
    rw [value, eval_roundCoefficients described ready, sum_contribution_next]
  refine ⟨challenge, compressed, t, fun scheduler once => ?_, fun claim bound index rest => ?_⟩
  · have runs : ∀ item ∈ roundWork round 0 s.slots, item.run = .ok (item.answered item.reply) := by
      intro item member
      obtain ⟨i, slot, there, active, rfl⟩ := mem_roundWork member
      have answer := (ready slot (List.mem_of_getElem? there) active).1
      unfold MemberRound.run
      simp only [BatchSlot.item]
      rw [answer]
      rfl
    obtain ⟨left, ran, perm⟩ := once.left s.works runs
    have small : ∀ item ∈ roundWork round 0 s.slots,
        item.index < (s.slots.map (BatchSlot.written round)).length := by
      intro item member
      have := (fits_roundWork described ready item member).2
      rwa [described, List.length_map, ← List.length_map (BatchSlot.written round)] at this
    unfold proveBatchRound
    rw [openRound_eq]
    refine except_bind_eq_ok.mpr ⟨left, ran, ?_⟩
    rw [foldl_writeMember positioned perm]
    refine except_bind_eq_ok.mpr
      ⟨_, combineMessages_ok perm (fits_roundWork described ready) _, ?_⟩
    rw [← roundCoefficients]
    refine except_check_eq_ok.mpr ⟨not_not.mpr sum, ?_⟩
    refine except_bind_eq_ok.mpr ⟨(challenge, compressed, t), ?_, ?_⟩
    · unfold absorbRound
      rw [drawn]
      exact except_bind_eq_ok.mpr ⟨compressed, compress, rfl⟩
    · refine except_bind_eq_ok.mpr
        ⟨_, attributeChallenge_ok perm (roundWork_indices round 0 s.slots).1 small, ?_⟩
      rw [foldl_bound, next]
      rfl
  · have small : ¬ claim.degree < compressed.degree := by omega
    rw [verifyCompressedRounds]
    simp only [if_neg small, if_neg nonempty, absorbed, drawn, hinted _ _ sum, next]
    rfl

end Run

end Round

end JoltWasm
