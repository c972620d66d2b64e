import JoltWasm.Sumcheck.BatchRound

/-!
# Completeness of the batched sum-check

Members that honour their contract, in whatever order a scheduler visits them, give a batch that the
prover completes and the verifier accepts.
-/

namespace JoltWasm

open Lib

/-! ## The members' contract -/

section Contract

variable {F : Type}

/-- What a call delivers: the bind, and the local round it asks for. -/
def MemberCall.delivery : MemberCall F → Option F × Option ℕ
  | .proveRound bind round _ => (bind, some round)
  | .finishRounds bind => (some bind, none)

/-- The deliveries of the rounds of a window: the challenge of each comes with the next one. -/
def windowRounds : Option F → ℕ → List F → List (Option F × Option ℕ)
  | _, _, [] => []
  | bind, round, r :: rest => (bind, some round) :: windowRounds (some r) (round + 1) rest

/-- The deliveries of a window: its challenges in order, the last one through `finish_rounds`. -/
def windowCalls (window : List F) : List (Option F × Option ℕ) :=
  windowRounds none 0 window ++ (window.getLast?.map fun r => (some r, none)).toList

/-- The challenges of a member's window. -/
def BatchMember.window (member : BatchMember F) (challenges : List F) : List F :=
  (challenges.drop member.offset).take member.rounds

theorem windowRounds_concat (bind : Option F) (round : ℕ) (window : List F) (r : F) :
    windowRounds bind round (window ++ [r]) = windowRounds bind round window ++
      [(window.getLast?.or bind, some (round + window.length))] := by
  induction window generalizing bind round with
  | nil => rfl
  | cons s window ih =>
      rw [List.cons_append, windowRounds, ih, windowRounds, List.cons_append, List.length_cons,
        Nat.add_assoc, Nat.add_comm 1]
      refine congrArg (fun last => (bind, some round) :: (_ ++ [(last, _)])) ?_
      cases window with
      | nil => rfl
      | cons next window =>
          rw [List.getLast?_cons_cons, List.getLast?_eq_some_getLast (List.cons_ne_nil _ _)]
          rfl

theorem BatchMember.window_concat_active {member : BatchMember F} {challenges : List F} (r : F)
    (lower : member.offset ≤ challenges.length)
    (upper : challenges.length < member.offset + member.rounds) :
    member.window (challenges ++ [r]) = member.window challenges ++ [r] ∧
      (member.window challenges).length = challenges.length - member.offset := by
  have short : (challenges.drop member.offset).length < member.rounds := by
    rw [List.length_drop]
    omega
  unfold window
  rw [List.drop_append_of_le_length lower, List.take_of_length_le (by simpa using short),
    List.take_of_length_le short.le]
  exact ⟨rfl, List.length_drop⟩

theorem BatchMember.window_concat_inactive {member : BatchMember F} {challenges : List F} (r : F)
    (outside : challenges.length < member.offset ∨
      member.offset + member.rounds ≤ challenges.length) :
    member.window (challenges ++ [r]) = member.window challenges := by
  unfold window
  rcases outside with before | after
  · rw [List.drop_of_length_le before.le, List.drop_of_length_le (by simpa using before)]
  · rw [List.drop_append_of_le_length (by omega), List.take_append_of_le_length]
    rw [List.length_drop]
    omega

theorem BatchSlot.active_iff (slot : BatchSlot F) (round : ℕ) : slot.active round = true ↔
    slot.described.offset ≤ round ∧ round < slot.described.offset + slot.described.rounds := by
  simp [BatchSlot.active]

variable [Field F]

/-- The calls that a driver may have made of a member, and its next one: the local round, the bind and
the claim. -/
inductive Asked (kernel : ProveRounds F) (start : F) : List (MemberCall F) → ℕ → Option F → F → Prop
  | first : Asked kernel start [] 0 none start
  | next {calls : List (MemberCall F)} {round : ℕ} {bind : Option F} {claim : F}
      {poly : UnivariatePoly F} (asked : Asked kernel start calls round bind claim)
      (answer : kernel.proveRound calls bind round claim = .ok poly) (r : F) :
      Asked kernel start (calls ++ [.proveRound bind round claim]) (round + 1) (some r)
        (poly.evaluate r)

/-- The contract of a member whose first claim is `start`. -/
structure ProveRounds.Honest (kernel : ProveRounds F) (start : F) (maxDegree : ℕ) : Prop where
  answers : ∀ calls round bind claim, Asked kernel start calls round bind claim →
    round < kernel.numRounds →
    ∃ poly, kernel.proveRound calls bind round claim = .ok poly ∧ poly.degree ≤ maxDegree ∧
      poly.evaluate 0 + poly.evaluate 1 = claim
  finishes : ∀ calls bind claim, Asked kernel start calls kernel.numRounds (some bind) claim →
    kernel.finishRounds calls bind = .ok ()

/-- The claim of a member's first round: its claim at the padding scale, halved for each earlier
round. -/
def BatchMember.firstClaim (maxNumVars : ℕ) (member : BatchMember F) : F :=
  member.inputClaim * 2 ^ (maxNumVars - member.rounds) * 2⁻¹ ^ member.offset

/-- A member of a batch honours its contract. -/
structure HonestMember (maxNumVars maxDegree : ℕ) (described : BatchMember F)
    (kernel : ProveRounds F) : Prop where
  numRounds : kernel.numRounds = described.rounds
  window : described.offset + described.rounds ≤ maxNumVars
  honest : kernel.Honest (described.firstClaim maxNumVars) maxDegree

/-- A slot after the rounds with these challenges. -/
structure SlotAt (maxNumVars maxDegree : ℕ) (challenges : List F) (slot : BatchSlot F) : Prop where
  member : HonestMember maxNumVars maxDegree slot.described slot.member.kernel
  deliveries : slot.member.calls.map MemberCall.delivery =
    windowRounds none 0 (slot.described.window challenges)
  pending : slot.pending = (slot.described.window challenges).getLast?
  claim : ∃ claim, Asked slot.member.kernel (slot.described.firstClaim maxNumVars)
      slot.member.calls (slot.described.window challenges).length slot.pending claim ∧
    slot.claim = claim * 2⁻¹ ^ (challenges.length - (slot.described.window challenges).length) *
      2 ^ slot.described.offset

theorem SlotAt.ready (two : (2 : F) ≠ 0) {maxNumVars maxDegree : ℕ} {challenges : List F}
    {slot : BatchSlot F} (at_ : SlotAt maxNumVars maxDegree challenges slot) :
    slot.Ready challenges.length maxDegree := by
  intro active
  obtain ⟨lower, upper⟩ := (slot.active_iff _).mp active
  obtain ⟨claim, asked, value⟩ := at_.claim
  have length := (slot.described.window_concat_active 0 lower upper).2
  rw [length, Nat.sub_sub_self lower, mul_assoc, ← mul_pow, inv_mul_cancel₀ two, one_pow,
    mul_one] at value
  obtain ⟨poly, answer, bound, sum⟩ := at_.member.honest.answers _ _ _ _ asked (by
    rw [at_.member.numRounds]
    omega)
  rw [length, ← value] at answer
  have message : slot.message challenges.length = poly := by
    unfold BatchSlot.message MemberRound.reply
    simp only [BatchSlot.item]
    rw [answer]
  rw [message, answer, value]
  exact ⟨rfl, bound, sum⟩

/-- A round keeps the contract's invariant. -/
theorem SlotAt.next (two : (2 : F) ≠ 0) {maxNumVars maxDegree : ℕ} {challenges : List F}
    {slot : BatchSlot F} (at_ : SlotAt maxNumVars maxDegree challenges slot) (r : F) :
    SlotAt maxNumVars maxDegree (challenges ++ [r]) (slot.next challenges.length r) := by
  obtain ⟨claim, asked, value⟩ := at_.claim
  by_cases active : slot.active challenges.length = true
  · obtain ⟨lower, upper⟩ := (slot.active_iff _).mp active
    obtain ⟨window, length⟩ := slot.described.window_concat_active r lower upper
    have answer := (at_.ready two active).1
    have halved (x : F) : x * 2⁻¹ ^ slot.described.offset * 2 ^ slot.described.offset = x := by
      rw [mul_assoc, ← mul_pow, inv_mul_cancel₀ two, one_pow, mul_one]
    rw [length, Nat.sub_sub_self lower, halved] at value
    subst value
    rw [length] at asked
    unfold BatchSlot.next
    rw [if_pos active]
    refine ⟨at_.member, ?_, ?_, (slot.message challenges.length).evaluate r, ?_,
      (halved _).symm.trans ?_⟩
    · simp only [MemberRound.answered, BatchSlot.item, List.map_append, at_.deliveries, window,
        windowRounds_concat, length, at_.pending, Nat.zero_add, Option.or_none]
      rfl
    · simp only [window, List.getLast?_concat]
    · simp only [window, List.length_append, length, List.length_singleton]
      exact asked.next answer r
    · simp only [window, List.length_append, length, List.length_singleton]
      rw [Nat.add_sub_add_right, Nat.sub_sub_self lower]
  · have outside : challenges.length < slot.described.offset ∨
        slot.described.offset + slot.described.rounds ≤ challenges.length := by
      rw [slot.active_iff] at active
      omega
    have window := slot.described.window_concat_inactive r outside
    have upper : (slot.described.window challenges).length ≤ challenges.length := by
      unfold BatchMember.window
      rw [List.length_take, List.length_drop]
      omega
    unfold BatchSlot.next
    rw [if_neg active]
    refine ⟨at_.member, ?_, ?_, claim, ?_, ?_⟩
    · rw [window]
      exact at_.deliveries
    · rw [window]
      exact at_.pending
    · rw [window]
      exact asked
    · simp only [window, List.length_append, List.length_singleton, value]
      rw [Nat.sub_add_comm upper, pow_succ]
      ring
theorem checkMembers_ok {maxNumVars maxDegree index : ℕ} {members : List (BatchMember F)}
    {kernels : List (ProveRounds F)}
    (honest : List.Forall₂ (HonestMember maxNumVars maxDegree) members kernels) :
    checkMembers maxNumVars index kernels members = .ok () := by
  induction honest generalizing index with
  | nil => rfl
  | cons head tail ih =>
      rw [checkMembers, if_neg (not_not.mpr head.numRounds), if_neg (Nat.not_lt.mpr head.window)]
      exact ih

/-- What a member's calls have delivered after its last round and its final bind. -/
theorem SlotAt.finished {maxNumVars maxDegree : ℕ} {challenges : List F} {slot : BatchSlot F}
    (at_ : SlotAt maxNumVars maxDegree challenges slot) :
    slot.finished.member.calls.map MemberCall.delivery =
      windowCalls (slot.described.window challenges) := by
  unfold BatchSlot.finished windowCalls
  rw [← at_.pending, ← at_.deliveries]
  split
  · next pending =>
      rw [pending]
      exact (List.append_nil _).symm
  · next bind pending =>
      rw [pending]
      exact List.map_append

/-- The final bind of a member is accepted. -/
theorem SlotAt.finishes {maxNumVars maxDegree : ℕ} {challenges : List F} {slot : BatchSlot F} {bind : F}
    (at_ : SlotAt maxNumVars maxDegree challenges slot) (all : challenges.length = maxNumVars)
    (pending : slot.pending = some bind) :
    slot.member.kernel.finishRounds slot.member.calls bind = .ok () := by
  obtain ⟨claim, asked, -⟩ := at_.claim
  have length : (slot.described.window challenges).length = slot.member.kernel.numRounds := by
    have := at_.member.window
    rw [at_.member.numRounds, BatchMember.window, List.length_take, List.length_drop]
    omega
  rw [length, pending] at asked
  exact at_.member.honest.finishes _ _ _ asked

end Contract

/-! ## The whole batch -/

section Batch

variable {F : Type} [Field F]

theorem mulPow2Loop_eq (res : F) (p : ℕ) : mulPow2Loop res p = res * 2 ^ p := by
  fun_induction mulPow2Loop res p with
  | case1 res p large ih =>
      rw [ih, mul_assoc, Nat.cast_pow, Nat.cast_ofNat, ← pow_add, Nat.add_sub_cancel' (by omega)]
  | case2 res p small => rw [Nat.cast_pow, Nat.cast_ofNat]

theorem BatchMember.scaledClaim_ok {member : BatchMember F} {maxNumVars : ℕ}
    (fits : member.rounds ≤ maxNumVars) (padding : maxNumVars - member.rounds ≤ 255) :
    member.scaledClaim maxNumVars = .ok (member.inputClaim * 2 ^ (maxNumVars - member.rounds)) := by
  unfold scaledClaim mulPow2
  rw [if_neg (Nat.not_lt.mpr fits), if_neg (Nat.not_lt.mpr padding), mulPow2Loop_eq]

/-- The claimed sum of a batch. -/
def paddedSum (maxNumVars : ℕ) (members : List (BatchMember F)) : F :=
  (members.map fun member =>
    member.coefficient * (member.inputClaim * 2 ^ (maxNumVars - member.rounds))).sum

theorem BatchPrelude.new_ok {members : List (BatchMember F)} {maxNumVars : ℕ} (maxDegree : ℕ)
    (fits : ∀ member ∈ members, member.rounds ≤ maxNumVars)
    (padding : ∀ member ∈ members, maxNumVars - member.rounds ≤ 255) :
    BatchPrelude.new members maxNumVars maxDegree =
      .ok ⟨members, paddedSum maxNumVars members, maxNumVars, maxDegree⟩ := by
  refine except_bind_eq_ok.mpr ⟨_, mapM_ok fun member inside =>
    member.scaledClaim_ok (fits member inside) (padding member inside), ?_⟩
  rw [List.zipWith_map_right, List.zipWith_self]
  rfl

/-- The slots before the first round. -/
def firstSlots (maxNumVars : ℕ) : ℕ → List (ProveRounds F) → List (BatchMember F) → List (BatchSlot F)
  | index, kernel :: kernels, described :: rest =>
      ⟨described, ⟨index, kernel, []⟩,
        described.inputClaim * 2 ^ (maxNumVars - described.rounds), none⟩ ::
          firstSlots maxNumVars (index + 1) kernels rest
  | _, _, _ => []

/-- The engine's invariant between rounds. -/
structure BatchAt {T : Type} (prelude : BatchPrelude F) (s : BatchState F T) : Prop where
  described : Describes prelude s.slots
  positioned : Positioned 0 s.slots
  slots : ∀ slot ∈ s.slots, SlotAt prelude.maxNumVars prelude.maxDegree s.challenges slot
  running : s.runningClaim = weightedClaims s.slots

theorem firstSlots_spec (two : (2 : F) ≠ 0) {maxNumVars maxDegree : ℕ} (index : ℕ)
    {members : List (BatchMember F)} {kernels : List (ProveRounds F)}
    (honest : List.Forall₂ (HonestMember maxNumVars maxDegree) members kernels) :
    (firstSlots maxNumVars index kernels members).map BatchSlot.described = members ∧
      Positioned index (firstSlots maxNumVars index kernels members) ∧
      (∀ slot ∈ firstSlots maxNumVars index kernels members, SlotAt maxNumVars maxDegree [] slot) ∧
      weightedClaims (firstSlots maxNumVars index kernels members) = paddedSum maxNumVars members := by
  induction honest generalizing index with
  | nil => exact ⟨rfl, trivial, nofun, rfl⟩
  | @cons described kernel members kernels head tail ih =>
      obtain ⟨same, positioned, slots, claims⟩ := ih (index + 1)
      refine ⟨congrArg (described :: ·) same, ⟨rfl, positioned⟩, fun slot member => ?_, ?_⟩
      · rcases List.mem_cons.mp member with rfl | member
        · have window : described.window [] = [] := by
            rw [BatchMember.window, List.drop_nil, List.take_nil]
          refine ⟨head, ?_, ?_, described.firstClaim maxNumVars, ?_, ?_⟩
          · rw [window]
            rfl
          · rw [window]
            rfl
          · rw [window]
            exact .first
          · rw [window, List.length_nil, Nat.sub_self, pow_zero, mul_one, BatchMember.firstClaim,
              mul_assoc _ (2⁻¹ ^ _) (2 ^ _), ← mul_pow, inv_mul_cancel₀ two, one_pow, mul_one]
        · exact slots slot member
      · rw [paddedSum, List.map_cons, List.sum_cons, ← paddedSum, ← claims]
        rfl

/-- A round keeps the engine's invariant. -/
theorem BatchAt.after (two : (2 : F) ≠ 0) {T : Type} {prelude : BatchPrelude F}
    {s : BatchState F T}
    (at_ : BatchAt prelude s) (r : F) (compressed : CompressedPoly F) (t : T) :
    BatchAt prelude (s.after s.challenges.length r compressed t) where
  described := by
    rw [Describes, BatchState.after, List.map_map, at_.described]
    refine List.map_congr_left fun slot _ => ?_
    simp only [BatchSlot.next, Function.comp]
    split_ifs <;> rfl
  positioned := at_.positioned.map fun slot => by
    simp only [BatchSlot.next]
    split_ifs <;> rfl
  slots := by
    intro slot member
    obtain ⟨before, inside, rfl⟩ := List.mem_map.mp member
    exact (at_.slots before inside).next two r
  running := rfl

theorem initialSlots_ok {maxNumVars maxDegree index : ℕ} {members : List (BatchMember F)}
    {kernels : List (ProveRounds F)}
    (honest : List.Forall₂ (HonestMember maxNumVars maxDegree) members kernels)
    (padding : ∀ member ∈ members, maxNumVars - member.rounds ≤ 255) :
    initialSlots maxNumVars index kernels members = .ok (firstSlots maxNumVars index kernels members) := by
  induction honest generalizing index with
  | nil => rfl
  | cons head tail ih =>
      exact except_bind_eq_ok.mpr ⟨_, BatchMember.scaledClaim_ok (by have := head.window; omega)
        (padding _ List.mem_cons_self), except_bind_eq_ok.mpr
          ⟨_, ih fun other inside => padding other (List.mem_cons_of_mem _ inside), rfl⟩⟩

variable [DecidableEq F] {T : Type} [Transcript T F]

/-- The rounds succeed, whatever the order, and the verifier follows them. -/
theorem proveBatchRounds_ok (two : (2 : F) ≠ 0) {prelude : BatchPrelude F}
    (degree : 1 ≤ prelude.maxDegree) (count : ℕ) {s : BatchState F T} (at_ : BatchAt prelude s) :
    ∃ s' challenges rounds, BatchAt prelude s' ∧
      s'.challenges = s.challenges ++ challenges ∧ challenges.length = count ∧
      s'.roundPolynomials = s.roundPolynomials ++ rounds ∧ rounds.length = count ∧
      (∀ scheduler : RoundScheduler F, scheduler.RunsEachOnce →
        proveBatchRounds prelude scheduler s.challenges.length count s = .ok s') ∧
      ∀ claim : SumcheckClaim F, claim.degree = prelude.maxDegree →
        verifyCompressedRounds claim sumcheckRoundLabel s.challenges.length s.runningClaim rounds
          s.transcript = .ok (challenges, s'.runningClaim, s'.transcript) := by
  induction count generalizing s with
  | zero =>
      exact ⟨s, [], [], at_, (List.append_nil _).symm, rfl, (List.append_nil _).symm, rfl,
        fun _ _ => rfl, fun _ _ => rfl⟩
  | succ count ih =>
      obtain ⟨r, compressed, t, proved, verified⟩ := proveBatchRound_ok two degree at_.described
        at_.positioned (fun slot member => (at_.slots slot member).ready two) at_.running
      have at' := at_.after two r compressed t
      obtain ⟨s', challenges, rounds, last, drawn, drawnLength, recorded, recordedLength, rest,
        accepted⟩ := ih at'
      have length : (s.after s.challenges.length r compressed t).challenges.length =
          s.challenges.length + 1 := List.length_append
      rw [length] at rest accepted
      refine ⟨s', r :: challenges, compressed :: rounds, last, ?_, ?_, ?_, ?_, ?_, ?_⟩
      · rw [drawn, BatchState.after, List.append_assoc, List.singleton_append]
      · rw [List.length_cons, drawnLength]
      · rw [recorded, BatchState.after, List.append_assoc, List.singleton_append]
      · rw [List.length_cons, recordedLength]
      · exact fun scheduler once =>
          except_bind_eq_ok.mpr ⟨_, proved scheduler once, rest scheduler once⟩
      · intro claim bound
        rw [verified claim bound]
        exact except_bind_eq_ok.mpr ⟨_, accepted claim bound, rfl⟩
/-- Honest members, with a degree and paddings that the code accepts, give a batch that is proved and
accepted, with the same result for every scheduler. -/
theorem proveBatch_complete (two : (2 : F) ≠ 0) {maxNumVars maxDegree : ℕ}
    {members : List (BatchMember F)} {kernels : List (ProveRounds F)} (degree : 1 ≤ maxDegree)
    (padding : ∀ member ∈ members, maxNumVars - member.rounds ≤ 255)
    (honest : List.Forall₂ (HonestMember maxNumVars maxDegree) members kernels) (t : T) :
    ∃ prelude proved rounds t' left,
      BatchPrelude.new members maxNumVars maxDegree = .ok prelude ∧
      (∀ scheduler : RoundScheduler F, scheduler.RunsEachOnce →
        proveBatch prelude kernels scheduler t = .ok (proved, rounds, t', left)) ∧
      verifyCompressedBoolean rounds maxNumVars maxDegree prelude.claimedSum t =
        .ok (⟨proved.challenges, proved.finalClaim⟩, t') ∧
      proved.finalClaim = (List.zipWith (fun member claim => member.coefficient * claim) members
        proved.memberClaims).sum ∧
      List.Forall₂ (fun member driven => driven.calls.map MemberCall.delivery =
        windowCalls (member.window proved.challenges)) members left := by
  obtain ⟨described, positioned, slots, claims⟩ := firstSlots_spec two 0 honest
  have fits : ∀ member ∈ members, member.rounds ≤ maxNumVars := by
    intro member inside
    rw [← described] at inside
    obtain ⟨slot, found, rfl⟩ := List.mem_map.mp inside
    exact (Nat.le_add_left _ _).trans (slots slot found).member.window
  have start : BatchAt ⟨members, paddedSum maxNumVars members, maxNumVars, maxDegree⟩
      (⟨firstSlots maxNumVars 0 kernels members, _, [], [], [], t⟩ : BatchState F T) :=
    ⟨described.symm, positioned, slots, claims.symm⟩
  obtain ⟨s, challenges, rounds, last, drawn, drawnLength, recorded, recordedLength, proved,
    accepted⟩ := proveBatchRounds_ok two degree maxNumVars start
  rw [List.nil_append] at drawn recorded
  subst drawn recorded
  refine ⟨_, ⟨s.challenges, s.runningClaim, s.slots.map BatchSlot.claim⟩, s.roundPolynomials,
    s.transcript, (s.slots.map BatchSlot.finished).map BatchSlot.member,
    BatchPrelude.new_ok maxDegree fits padding, fun scheduler once => ?_, ?_, ?_, ?_⟩
  · have runs : ∀ item ∈ finishItems s.slots, item.run = .ok item.finished := by
      intro item inside
      obtain ⟨slot, found, pending, same⟩ := mem_finishItems inside
      have accepted := (last.slots slot found).finishes drawnLength pending
      unfold MemberFinish.run
      rw [same, accepted]
      rfl
    obtain ⟨left, ran, perm⟩ := once.leftFinishes s.works runs
    unfold proveBatch
    refine except_check_eq_ok.mpr ⟨not_not.mpr honest.length_eq.symm, ?_⟩
    refine except_bind_eq_ok.mpr ⟨(), checkMembers_ok honest, ?_⟩
    refine except_check_eq_ok.mpr ⟨fun bad => Nat.not_lt.mpr degree bad.2, ?_⟩
    refine except_check_eq_ok.mpr ⟨two, ?_⟩
    refine except_bind_eq_ok.mpr ⟨_, initialSlots_ok honest padding, ?_⟩
    refine except_bind_eq_ok.mpr ⟨s, proved scheduler once, ?_⟩
    refine except_bind_eq_ok.mpr ⟨left, ran, ?_⟩
    have same : (s.slots.map BatchSlot.finished).map BatchSlot.claim = s.slots.map BatchSlot.claim := by
      rw [List.map_map]
      refine List.map_congr_left fun slot _ => ?_
      simp only [Function.comp, BatchSlot.finished]
      split <;> rfl
    rw [foldl_writeFinished last.positioned perm]
    simp only [same]
    rfl
  · unfold verifyCompressedBoolean verifyCompressed
    rw [if_neg (Nat.not_lt.mpr degree), if_neg (not_not.mpr recordedLength)]
    exact except_bind_eq_ok.mpr ⟨_, accepted ⟨maxNumVars, maxDegree, _⟩ rfl, rfl⟩
  · have same : members = s.slots.map BatchSlot.described := last.described
    rw [last.running, weightedClaims, same, List.zipWith_map, List.zipWith_self]
  · have same : members = s.slots.map BatchSlot.described := last.described
    rw [same, List.map_map, List.forall₂_map_left_iff, List.forall₂_map_right_iff,
      List.forall₂_same]
    exact fun slot found => (last.slots slot found).finished

end Batch

/-- A member that answers every claim `c` with `c x`. -/
def linearMember (F : Type) [Field F] (rounds : ℕ) : ProveRounds F where
  numRounds := rounds
  proveRound _ _ _ claim := .ok ⟨[0, claim]⟩
  finishRounds _ _ := .ok ()

/-- A member of one round, between two inactive ones, beside a member of no round. -/
def paddedMembers : List (BatchMember (ZMod 3)) := [⟨2, 1, 1, 1⟩, ⟨1, 2, 0, 0⟩]

theorem proveBatch_complete_padded :
    ∃ prelude proved rounds t' left,
      BatchPrelude.new paddedMembers 3 1 = .ok prelude ∧
      (∀ scheduler : RoundScheduler (ZMod 3), scheduler.RunsEachOnce →
        proveBatch prelude [linearMember (ZMod 3) 1, linearMember (ZMod 3) 0] scheduler
          [(1 : ZMod 3), 2, 1] = .ok (proved, rounds, t', left)) ∧
      verifyCompressedBoolean rounds 3 1 prelude.claimedSum [(1 : ZMod 3), 2, 1] =
        .ok (⟨proved.challenges, proved.finalClaim⟩, t') ∧
      proved.finalClaim = (List.zipWith (fun member claim => member.coefficient * claim)
        paddedMembers proved.memberClaims).sum ∧
      List.Forall₂ (fun member driven => driven.calls.map MemberCall.delivery =
        windowCalls (member.window proved.challenges)) paddedMembers left := by
  have honest (start : ZMod 3) (rounds : ℕ) : (linearMember (ZMod 3) rounds).Honest start 1 :=
    ⟨fun _ _ _ claim _ _ => ⟨⟨[0, claim]⟩, rfl, le_rfl, by simp [UnivariatePoly.evaluate]⟩,
      fun _ _ _ _ => rfl⟩
  refine proveBatch_complete (by decide) le_rfl (by decide) (.cons ?_ (.cons ?_ .nil)) _
  · exact ⟨rfl, by decide, honest _ 1⟩
  · exact ⟨rfl, by decide, honest _ 0⟩

/-- An honest member of degree zero is refused, and so is one with more than 255 padded rounds. -/
theorem proveBatch_incomplete :
    (HonestMember 1 0 (⟨1, 1, 1, 0⟩ : BatchMember (ZMod 3))
        ⟨1, fun _ _ _ claim => .ok ⟨[claim * 2]⟩, fun _ _ => .ok ()⟩ ∧
      proveBatch ⟨[⟨1, 1, 1, 0⟩], 1, 1, 0⟩
          [⟨1, fun _ _ _ claim => .ok ⟨[claim * 2]⟩, fun _ _ => .ok ()⟩] sequentialRounds
          ([] : List (ZMod 3)) = .error (.zeroBatchDegree 1)) ∧
    HonestMember 256 1 (⟨1, 1, 0, 0⟩ : BatchMember (ZMod 3)) (linearMember (ZMod 3) 0) ∧
      BatchPrelude.new [(⟨1, 1, 0, 0⟩ : BatchMember (ZMod 3))] 256 1 =
        .error (.sumcheck (.panicked "pow > 255")) := by
  have four (claim : ZMod 3) : claim * 2 + claim * 2 = claim := by
    revert claim
    decide
  refine ⟨⟨⟨rfl, by decide, fun _ _ _ claim _ _ => ⟨⟨[claim * 2]⟩, rfl, le_rfl, ?_⟩,
    fun _ _ _ _ => rfl⟩, rfl⟩, ⟨rfl, by decide, fun _ _ _ _ _ inside => ?_, fun _ _ _ _ => rfl⟩, rfl⟩
  · exact four claim
  · exact absurd inside (Nat.not_lt_zero _)

end JoltWasm
