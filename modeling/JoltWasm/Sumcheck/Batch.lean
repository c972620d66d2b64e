import JoltWasm.Sumcheck.Verifier

/-!
# The batched sum-check prover

Members with their own round counts and windows are proved in one sum-check.  In each round the active
members give round polynomials, the others a constant that halves their claim; the combination is
recorded in compressed form, and its challenge is bound by each active member one round late.
-/

namespace JoltWasm

/-- The errors of the batch prover; in the source one type with the verifier's. -/
inductive BatchError (F : Type) where
  | sumcheck (error : SumcheckError F)
  | zeroBatchDegree (maxNumVars : ℕ)
  | batchMemberCountMismatch (expected got : ℕ)
  | batchMemberRoundsMismatch (member expected got : ℕ)
  | batchMemberWindowOutOfRange (member offset rounds maxNumVars : ℕ)
  | missingRoundMessage (member : ℕ)
  | roundMemberIndexOutOfRange (member members : ℕ)
  | missingEvaluationSource (kind : String)
  deriving DecidableEq

/-- A member of a batch: its claim, its batching coefficient and its window. -/
structure BatchMember (F : Type) where
  inputClaim : F
  coefficient : F
  rounds : ℕ
  offset : ℕ
  deriving DecidableEq

/-- The computed head of a batched sum-check. -/
structure BatchPrelude (F : Type) where
  members : List (BatchMember F)
  claimedSum : F
  maxNumVars : ℕ
  maxDegree : ℕ
  deriving DecidableEq

/-- A call that a member receives. -/
inductive MemberCall (F : Type) where
  | proveRound (bind : Option F) (round : ℕ) (previousClaim : F)
  | finishRounds (bind : F)
  deriving DecidableEq

/-- The round interface of a member.  The calls it has had are its state. -/
structure ProveRounds (F : Type) where
  numRounds : ℕ
  proveRound : List (MemberCall F) → Option F → ℕ → F → Except (BatchError F) (UnivariatePoly F)
  finishRounds : List (MemberCall F) → F → Except (BatchError F) Unit

/-- A member in place: its position in the engine's slice and the calls it has had. -/
structure Member (F : Type) where
  position : ℕ
  kernel : ProveRounds F
  calls : List (MemberCall F)

/-- One active member of a round. -/
structure MemberRound (F : Type) where
  index : ℕ
  localRound : ℕ
  bind : Option F
  claim : F
  member : Member F
  message : Option (UnivariatePoly F)

namespace MemberRound

variable {F : Type}

/-- The item after its member answered. -/
def answered (item : MemberRound F) (poly : UnivariatePoly F) : MemberRound F :=
  let call := MemberCall.proveRound item.bind item.localRound item.claim
  { item with
    member := { item.member with calls := item.member.calls ++ [call] }
    message := some poly }

def run (item : MemberRound F) : Except (BatchError F) (MemberRound F) := do
  let poly ← item.member.kernel.proveRound item.member.calls item.bind item.localRound item.claim
  return item.answered poly

end MemberRound

/-- One ever-active member and its final bind. -/
structure MemberFinish (F : Type) where
  bind : F
  member : Member F

namespace MemberFinish

variable {F : Type}

def finished (item : MemberFinish F) : MemberFinish F :=
  { item with
    member := { item.member with calls := item.member.calls ++ [.finishRounds item.bind] } }

def run (item : MemberFinish F) : Except (BatchError F) (MemberFinish F) := do
  item.member.kernel.finishRounds item.member.calls item.bind
  return item.finished

end MemberFinish

/-- How the rounds of a batch visit their members.  The first argument is the work of the earlier
rounds, the scheduler's state; the result is the slice of work it leaves. -/
structure RoundScheduler (F : Type) where
  batchProveRound : List (List (MemberRound F)) → List (MemberRound F) →
    Except (BatchError F) (List (MemberRound F))
  batchFinishRounds : List (List (MemberRound F)) → List (MemberFinish F) →
    Except (BatchError F) (List (MemberFinish F))

/-- Declaration-order traversal. -/
def sequentialRounds {F : Type} : RoundScheduler F where
  batchProveRound _ work := work.mapM MemberRound.run
  batchFinishRounds _ finishes := finishes.mapM MemberFinish.run

/-- A proved batch. -/
structure ProvedBatch (F : Type) where
  challenges : List F
  finalClaim : F
  memberClaims : List F
  deriving DecidableEq

/-- One position of the engine's vectors: the member as described, the member, its running claim and
its challenge that is not delivered yet. -/
structure BatchSlot (F : Type) where
  described : BatchMember F
  member : Member F
  claim : F
  pending : Option F

/-- The engine between rounds. -/
structure BatchState (F T : Type) where
  slots : List (BatchSlot F)
  runningClaim : F
  challenges : List F
  roundPolynomials : List (CompressedPoly F)
  works : List (List (MemberRound F))
  transcript : T

/-- `b"sumcheck_poly"`. -/
def sumcheckRoundLabel : List UInt8 :=
  [115, 117, 109, 99, 104, 101, 99, 107, 95, 112, 111, 108, 121]

section

variable {F : Type} [Field F] [DecidableEq F]

/-- The loop of `mul_pow_2`. -/
def mulPow2Loop (res : F) (p : ℕ) : F :=
  if 64 ≤ p then mulPow2Loop (res * (2 ^ 63 : ℕ)) (p - 63) else res * (2 ^ p : ℕ)

def mulPow2 (x : F) (pow : ℕ) : Except (BatchError F) F :=
  if 255 < pow then .error (.sumcheck (.panicked "pow > 255")) else .ok (mulPow2Loop x pow)

/-- A member's claim at the padding scale. -/
def BatchMember.scaledClaim (member : BatchMember F) (maxNumVars : ℕ) : Except (BatchError F) F :=
  if maxNumVars < member.rounds then
    .error (.sumcheck (.panicked "attempt to subtract with overflow"))
  else mulPow2 member.inputClaim (maxNumVars - member.rounds)

/-- Combine the members into the initial running claim. -/
def BatchPrelude.new (members : List (BatchMember F)) (maxNumVars maxDegree : ℕ) :
    Except (BatchError F) (BatchPrelude F) := do
  let claims ← members.mapM fun member => member.scaledClaim maxNumVars
  let claimedSum := (List.zipWith (fun member claim => member.coefficient * claim) members claims).sum
  return ⟨members, claimedSum, maxNumVars, maxDegree⟩

/-- Drop trailing zeros, given from the last coefficient on, down to two coefficients. -/
def trimReversed : List F → List F
  | [] => []
  | c :: rest => if 2 ≤ rest.length ∧ c = 0 then trimReversed rest else c :: rest

def trimRoundPolynomial (coefficients : List F) : UnivariatePoly F :=
  ⟨(trimReversed coefficients.reverse).reverse⟩

def UnivariatePoly.compress (p : UnivariatePoly F) : Except (BatchError F) (CompressedPoly F) :=
  match p.coefficients with
  | c0 :: _ :: rest => .ok ⟨c0 :: rest⟩
  | _ => .error (.sumcheck (.panicked "cannot compress a polynomial of degree < 1"))

/-- The clear recorder's round: absorb the polynomial, draw the challenge, keep the compression. -/
def absorbRound {T : Type} [Transcript T F] (poly : UnivariatePoly F) (t : T) :
    Except (BatchError F) (F × CompressedPoly F × T) := do
  let (challenge, t) := Transcript.challenge
    ((⟨.compressedLabeled sumcheckRoundLabel, poly⟩ : ClearRound F).appendToTranscript t)
  let compressed ← poly.compress
  return (challenge, compressed, t)

namespace BatchSlot

/-- Whether the member's window holds the round. -/
def active (slot : BatchSlot F) (round : ℕ) : Bool :=
  slot.described.offset ≤ round && round < slot.described.offset + slot.described.rounds

end BatchSlot

/-- Check the members against the prelude, from position `index` on. -/
def checkMembers (maxNumVars : ℕ) : ℕ → List (ProveRounds F) → List (BatchMember F) →
    Except (BatchError F) Unit
  | index, member :: members, described :: rest =>
      if member.numRounds ≠ described.rounds then
        .error (.batchMemberRoundsMismatch index described.rounds member.numRounds)
      else if maxNumVars < described.offset + described.rounds then
        .error (.batchMemberWindowOutOfRange index described.offset described.rounds maxNumVars)
      else checkMembers maxNumVars (index + 1) members rest
  | _, _, _ => .ok ()

/-- The first loop of a round, from position `index` on: halve the inactive members' claims and collect
the work of the others.  The second result is the sum of the constants. -/
def openRound (round : ℕ) : ℕ → List (BatchSlot F) → List (BatchSlot F) × F × List (MemberRound F)
  | _, [] => ([], 0, [])
  | index, slot :: slots =>
      let (rest, constant, work) := openRound round (index + 1) slots
      if slot.active round then
        let item := {
          index := index
          localRound := round - slot.described.offset
          bind := slot.pending
          claim := slot.claim
          member := slot.member
          message := none }
        ({ slot with pending := none } :: rest, constant, item :: work)
      else
        let claim := slot.claim * 2⁻¹
        ({ slot with claim := claim } :: rest, slot.described.coefficient * claim + constant, work)

/-- Add a scaled polynomial to the coefficients, as far as they go. -/
def addScaled (c : F) : List F → List F → List F
  | slot :: slots, coefficient :: coefficients =>
      (slot + c * coefficient) :: addScaled c slots coefficients
  | slots, _ => slots

/-- The second loop of a round: add the messages to the coefficients. -/
def combineMessages (prelude : BatchPrelude F) : List (MemberRound F) → List F →
    Except (BatchError F) (List F)
  | [], coefficients => .ok coefficients
  | item :: work, coefficients =>
      match item.message with
      | none => .error (.missingRoundMessage item.index)
      | some poly =>
          if prelude.maxDegree < poly.degree then
            .error (.sumcheck (.degreeBoundExceeded poly.degree prelude.maxDegree))
          else
            match prelude.members[item.index]? with
            | none => .error (.roundMemberIndexOutOfRange item.index prelude.members.length)
            | some described =>
                combineMessages prelude work
                  (addScaled described.coefficient coefficients poly.coefficients)

/-- What a round's challenge does to the slot of a member that answered. -/
def BatchSlot.bound (slot : BatchSlot F) (poly : UnivariatePoly F) (challenge : F) : BatchSlot F :=
  { slot with claim := poly.evaluate challenge, pending := some challenge }

/-- The third loop of a round: attribute the challenge by member index. -/
def attributeChallenge (prelude : BatchPrelude F) (challenge : F) : List (MemberRound F) →
    List (BatchSlot F) → Except (BatchError F) (List (BatchSlot F))
  | [], slots => .ok slots
  | item :: work, slots =>
      match item.message with
      | none => attributeChallenge prelude challenge work slots
      | some poly =>
          if slots.length ≤ item.index then
            .error (.roundMemberIndexOutOfRange item.index prelude.members.length)
          else attributeChallenge prelude challenge work
            (slots.modify item.index (·.bound poly challenge))

/-- The members, reached through the work, as the scheduler leaves them. -/
def writeMember (slots : List (BatchSlot F)) (member : Member F) : List (BatchSlot F) :=
  slots.modify member.position fun slot => { slot with member := member }

def proveBatchRound {T : Type} [Transcript T F] (prelude : BatchPrelude F)
    (scheduler : RoundScheduler F) (round : ℕ) (s : BatchState F T) :
    Except (BatchError F) (BatchState F T) := do
  let (slots, constant, work) := openRound round 0 s.slots
  let coefficients := (List.replicate (prelude.maxDegree + 1) 0).modify 0 (· + constant)
  let left ← scheduler.batchProveRound s.works work
  let slots := (left.map MemberRound.member).foldl writeMember slots
  let coefficients ← combineMessages prelude left coefficients
  let poly := trimRoundPolynomial coefficients
  let roundSum := poly.evaluate 0 + poly.evaluate 1
  if roundSum ≠ s.runningClaim then
    .error (.sumcheck (.roundCheckFailed round s.runningClaim roundSum))
  let (challenge, compressed, t) ← absorbRound poly s.transcript
  let slots ← attributeChallenge prelude challenge left slots
  return {
    slots := slots
    runningClaim := poly.evaluate challenge
    challenges := s.challenges ++ [challenge]
    roundPolynomials := s.roundPolynomials ++ [compressed]
    works := s.works ++ [work]
    transcript := t }

/-- The rounds from `round` on. -/
def proveBatchRounds {T : Type} [Transcript T F] (prelude : BatchPrelude F)
    (scheduler : RoundScheduler F) : ℕ → ℕ → BatchState F T → Except (BatchError F) (BatchState F T)
  | _, 0, s => .ok s
  | round, count + 1, s => do
      let s ← proveBatchRound prelude scheduler round s
      proveBatchRounds prelude scheduler (round + 1) count s

/-- The members that were ever active, with their final binds. -/
def finishItems : List (BatchSlot F) → List (MemberFinish F)
  | [] => []
  | slot :: slots =>
      match slot.pending with
      | none => finishItems slots
      | some bind => ⟨bind, slot.member⟩ :: finishItems slots

/-- The engine before the first round. -/
def initialSlots (maxNumVars : ℕ) : ℕ → List (ProveRounds F) → List (BatchMember F) →
    Except (BatchError F) (List (BatchSlot F))
  | index, kernel :: kernels, described :: rest => do
      let claim ← described.scaledClaim maxNumVars
      let slots ← initialSlots maxNumVars (index + 1) kernels rest
      return ⟨described, ⟨index, kernel, []⟩, claim, none⟩ :: slots
  | _, _, _ => .ok []

/-- Prove one batched sum-check with the clear recorder: the proved batch, the recorded rounds, the
transcript, and the members as they are left. -/
def proveBatch {T : Type} [Transcript T F] (prelude : BatchPrelude F) (members : List (ProveRounds F))
    (scheduler : RoundScheduler F) (t : T) :
    Except (BatchError F) (ProvedBatch F × List (CompressedPoly F) × T × List (Member F)) := do
  if members.length ≠ prelude.members.length then
    .error (.batchMemberCountMismatch prelude.members.length members.length)
  checkMembers prelude.maxNumVars 0 members prelude.members
  if 0 < prelude.maxNumVars ∧ prelude.maxDegree < 1 then
    .error (.zeroBatchDegree prelude.maxNumVars)
  if (2 : F) = 0 then
    .error (.sumcheck (.panicked "called `Option::unwrap()` on a `None` value"))
  let slots ← initialSlots prelude.maxNumVars 0 members prelude.members
  let s ← proveBatchRounds prelude scheduler 0 prelude.maxNumVars
    ⟨slots, prelude.claimedSum, [], [], [], t⟩
  let left ← scheduler.batchFinishRounds s.works (finishItems s.slots)
  let slots := (left.map MemberFinish.member).foldl writeMember s.slots
  return (⟨s.challenges, s.runningClaim, slots.map BatchSlot.claim⟩, s.roundPolynomials, s.transcript,
    slots.map BatchSlot.member)

/-- `SumcheckProof::verify_compressed_boolean` on a compressed clear proof. -/
def verifyCompressedBoolean {T : Type} [Transcript T F] (rounds : List (CompressedPoly F))
    (numVars degree : ℕ) (claimedSum : F) (t : T) :
    Except (SumcheckError F) (EvaluationClaim F × T) :=
  if degree < 1 then .error (.panicked "sumcheck round polynomial must have degree >= 1")
  else verifyCompressed ⟨numVars, degree, claimedSum⟩ rounds sumcheckRoundLabel t

end

end JoltWasm
