import Mathlib.Tactic.FieldSimp
import JoltWasm.Claims.Reduction
import JoltWasm.Claims.Schedule
import JoltWasm.Lib.Gapped

/-!
# The rounds of a precommitted claim reduction

The tables between rounds are those of two vectors with the coordinates of the earlier active rounds
bound.  A step lemma says what one round sends and binds; over a phase, each message is the true round
polynomial of the gapped product, and the tables that are left are bound at all of its challenges.
-/

namespace JoltWasm

open Lib

section

variable {F : Type} [Field F]

/-- A table of the first `2 ^ n` entries. -/
def entries (n : ℕ) (f : ℕ → F) : List F := (List.range (2 ^ n)).map f

omit [Field F] in
@[simp] theorem length_entries (n : ℕ) (f : ℕ → F) : (entries n f).length = 2 ^ n := by
  rw [entries, List.length_map, List.length_range]

theorem getD_entries {n k : ℕ} (f : ℕ → F) (inside : k < 2 ^ n) : (entries n f).getD k 0 = f k := by
  rw [entries, List.getD_eq_getElem _ _ (by simpa using inside), List.getElem_map, List.getElem_range]

theorem bindLowToHigh_entries (c : F) (n : ℕ) (f : ℕ → F) :
    bindLowToHigh c (entries (n + 1) f) = .ok (entries n (bindLow c f)) := by
  have positive := Nat.two_pow_pos n
  unfold bindLowToHigh
  rw [length_entries, pow_succ, if_neg (by omega), Nat.mul_div_cancel _ two_pos]
  refine congrArg Except.ok (List.map_congr_left fun j member => ?_)
  have inside := List.mem_range.mp member
  rw [getD_entries f (by rw [pow_succ]; omega), getD_entries f (by rw [pow_succ]; omega), bindLow]

/-- The tables that hold these vectors. -/
def tablesOf (n : ℕ) (value eq : ℕ → F) (aux : List (ℕ → F)) (scale : F) : PrecommittedTables F :=
  ⟨entries n value, entries n eq, aux.map (entries n), scale, scale⁻¹, 2⁻¹⟩

/-- One round binds its coordinate of every vector, or notes its factor. -/
theorem bindRound_tablesOf (active : Bool) (steps : List Bool) (value eq : ℕ → F) (aux : List (ℕ → F))
    (scale c : F) :
    (tablesOf ((active :: steps).count true) value eq aux scale).bindRound active c =
      .ok (tablesOf (steps.count true) (bindStep active c value) (bindStep active c eq)
        (aux.map (bindStep active c)) (scale * stepScale F active)) := by
  cases active with
  | false =>
      have inverse : scale⁻¹ + scale⁻¹ = (scale * 2⁻¹)⁻¹ := by
        rw [mul_inv, inv_inv, mul_two]
      rw [List.count_cons_of_ne (by decide), PrecommittedTables.bindRound,
        if_pos Bool.not_false, tablesOf, inverse]
      simp [bindStep, stepScale, tablesOf]
  | true =>
      have all : (aux.map (entries (steps.count true + 1))).mapM (bindLowToHigh c) =
          .ok ((aux.map (bindStep true c)).map (entries (steps.count true))) := by
        rw [List.mapM_map, List.map_map]
        exact mapM_ok fun f _ => bindLowToHigh_entries c _ f
      rw [List.count_cons_self, PrecommittedTables.bindRound, if_neg (by decide), tablesOf]
      simp only [bindLowToHigh_entries, all, stepScale, if_true, mul_one]
      rfl

/-! ## Messages -/

theorem foldl_pair (a b : ℕ → F) (n : ℕ) :
    (List.range n).foldl (fun acc j => (acc.1 + a j, acc.2 + b j)) ((0, 0) : F × F) =
      (∑ j ∈ Finset.range n, a j, ∑ j ∈ Finset.range n, b j) := by
  induction n with
  | zero => rfl
  | succ n ih =>
      rw [List.range_succ, List.foldl_append, ih, Finset.sum_range_succ, Finset.sum_range_succ]
      rfl

/-- The quadratic through the values at zero, one and two. -/
theorem evaluate_quadratic (c0 c1 c2 x : F) :
    (⟨[c0, c1, c2]⟩ : UnivariatePoly F).evaluate x = c0 + c1 * x + c2 * x ^ 2 := by
  change (c2 * x + c1) * x + c0 = _
  ring

theorem roundMessage_active {tables : PrecommittedTables F} {eval0 eval2 : F}
    (sums : (List.range (tables.value.length / 2)).foldl (fun acc j =>
      (acc.1 + (tables.term j).1, acc.2 + (tables.term j).2)) (0, 0) = (eval0, eval2)) {claim eval1 : F}
    (hint : claim * tables.scaleInv - eval0 = eval1) :
    tables.roundMessage true claim = ⟨[eval0 * tables.scale,
      (eval1 - eval0 - (eval0 - eval1 - eval1 + eval2) * tables.twoInv) * tables.scale,
      (eval0 - eval1 - eval1 + eval2) * tables.twoInv * tables.scale]⟩ := by
  rw [PrecommittedTables.roundMessage, if_neg (by decide)]
  simp only [sums, hint]

theorem evaluate_roundMessage_active (two : (2 : F) ≠ 0) (n : ℕ) (value eq : ℕ → F)
    (aux : List (ℕ → F)) {scale : F} (nonzero : scale ≠ 0) (x : F) :
    ((tablesOf (n + 1) value eq aux scale).roundMessage true
      (scale * innerProduct (n + 1) value eq)).evaluate x =
        scale * innerProduct n (bindLow x value) (bindLow x eq) := by
  -- Everything is a combination of three sums of products.
  obtain ⟨evens, evens_⟩ : ∃ s, ∑ j ∈ Finset.range (2 ^ n), value (2 * j) * eq (2 * j) = s := ⟨_, rfl⟩
  obtain ⟨odds, odds_⟩ : ∃ s, ∑ j ∈ Finset.range (2 ^ n), value (2 * j + 1) * eq (2 * j + 1) = s :=
    ⟨_, rfl⟩
  obtain ⟨mixed, mixed_⟩ : ∃ s, ∑ j ∈ Finset.range (2 ^ n),
      (value (2 * j) * eq (2 * j + 1) + value (2 * j + 1) * eq (2 * j)) = s := ⟨_, rfl⟩
  have whole : innerProduct (n + 1) value eq = evens + odds := by
    rw [innerProduct, pow_succ', sum_range_two_mul, evens_, odds_]
  have atX : innerProduct n (bindLow x value) (bindLow x eq) =
      (1 - x) ^ 2 * evens + x * (1 - x) * mixed + x ^ 2 * odds := by
    simp only [innerProduct, bindLow, ← evens_, ← odds_, ← mixed_, Finset.mul_sum,
      ← Finset.sum_add_distrib]
    exact Finset.sum_congr rfl fun j _ => by ring
  have atTwo : ∑ j ∈ Finset.range (2 ^ n), (value (2 * j + 1) + value (2 * j + 1) - value (2 * j)) *
      (eq (2 * j + 1) + eq (2 * j + 1) - eq (2 * j)) = 4 * odds - 2 * mixed + evens := by
    simp only [← evens_, ← odds_, ← mixed_, Finset.mul_sum, ← Finset.sum_sub_distrib,
      ← Finset.sum_add_distrib]
    exact Finset.sum_congr rfl fun j _ => by ring
  have terms (j : ℕ) (inside : j < 2 ^ n) : (tablesOf (n + 1) value eq aux scale).term j =
      (value (2 * j) * eq (2 * j), (value (2 * j + 1) + value (2 * j + 1) - value (2 * j)) *
        (eq (2 * j + 1) + eq (2 * j + 1) - eq (2 * j))) := by
    have even : 2 * j < 2 ^ (n + 1) := by rw [pow_succ]; omega
    have odd : 2 * j + 1 < 2 ^ (n + 1) := by rw [pow_succ]; omega
    simp only [PrecommittedTables.term, tablesOf, getD_entries _ even, getD_entries _ odd]
  have half : (tablesOf (n + 1) value eq aux scale).value.length / 2 = 2 ^ n := by
    simp [tablesOf, pow_succ]
  have hint : scale * (evens + odds) * (tablesOf (n + 1) value eq aux scale).scaleInv - evens = odds := by
    rw [mul_right_comm, tablesOf, mul_inv_cancel₀ nonzero, one_mul, add_sub_cancel_left]
  have message := roundMessage_active (by
    rw [half, foldl_pair]
    refine congrArg₂ Prod.mk (Eq.trans ?_ evens_) (Eq.trans ?_ atTwo)
    · exact Finset.sum_congr rfl fun j member => by rw [terms j (Finset.mem_range.mp member)]
    · exact Finset.sum_congr rfl fun j member => by rw [terms j (Finset.mem_range.mp member)]) hint
  rw [whole, message, evaluate_quadratic, atX]
  simp only [tablesOf]
  field_simp
  ring

/-- The message of a round is the sum over the later coordinates, as a polynomial in this one. -/
theorem evaluate_roundMessage (two : (2 : F) ≠ 0) (active : Bool) (steps : List Bool)
    (value eq : ℕ → F) (aux : List (ℕ → F)) {scale : F} (nonzero : scale ≠ 0) (x : F) :
    ((tablesOf ((active :: steps).count true) value eq aux scale).roundMessage active
      (scale * innerProduct ((active :: steps).count true) value eq)).evaluate x =
        scale * (stepScale F active *
          innerProduct (steps.count true) (bindStep active x value) (bindStep active x eq)) := by
  cases active with
  | false =>
      rw [List.count_cons_of_ne (by decide), PrecommittedTables.roundMessage, if_pos Bool.not_false]
      simp only [bindStep, stepScale, Bool.false_eq_true, if_false]
      change scale * _ * 2⁻¹ = _
      ring
  | true =>
      rw [List.count_cons_self, evaluate_roundMessage_active two _ _ _ _ nonzero, stepScale, if_pos rfl,
        one_mul]
      rfl

/-! ## A phase -/

/-- The claim and the polynomial of a round are the true ones: the summand is summed over the later
coordinates, with the earlier ones bound. -/
structure TrueRound (summand : List F → F) (total : ℕ) (bound : List F) (active : Bool) (claim : F)
    (poly : UnivariatePoly F) : Prop where
  sum : claim = cubeSum (total - bound.length) fun rest => summand (bound ++ rest)
  evaluates : ∀ x, poly.evaluate x =
    cubeSum (total - bound.length - 1) fun rest => summand (bound ++ x :: rest)
  consistent : poly.evaluate 0 + poly.evaluate 1 = claim
  halves : active = false → poly = ⟨[claim * 2⁻¹]⟩

/-- The rounds of a phase from round `start` on, after the challenges `before`. -/
structure TrueRounds (summand : List F → F) (total : ℕ) (before : List F) (activeRounds : List ℕ)
    (start : ℕ) (challenges : List F) (rounds : List (F × UnivariatePoly F)) : Prop where
  length : rounds.length = challenges.length
  round : ∀ i claim poly, rounds[i]? = some (claim, poly) →
    TrueRound summand total (before ++ challenges.take i) (isActive activeRounds (start + i)) claim poly

theorem TrueRound.prepend {summand : List F → F} {n : ℕ} {before bound : List F} {active : Bool}
    {claim : F} {poly : UnivariatePoly F}
    (round : TrueRound (fun point => summand (before ++ point)) n bound active claim poly) :
    TrueRound summand (before.length + n) (before ++ bound) active claim poly := by
  have rest : before.length + n - (before ++ bound).length = n - bound.length := by
    rw [List.length_append]
    omega
  refine ⟨?_, fun x => ?_, round.consistent, round.halves⟩
  · rw [rest, round.sum]
    exact cubeSum_congr fun point _ => by rw [List.append_assoc]
  · rw [rest, round.evaluates]
    exact cubeSum_congr fun point _ => by rw [List.append_assoc]

theorem TrueRounds.prepend (summand : List F → F) (before : List F) {n : ℕ} {activeRounds : List ℕ}
    {start : ℕ} {challenges : List F} {rounds : List (F × UnivariatePoly F)}
    (run : TrueRounds (fun point => summand (before ++ point)) n [] activeRounds start challenges rounds) :
    TrueRounds summand (before.length + n) before activeRounds start challenges rounds :=
  ⟨run.length, fun i claim poly at_ => (run.round i claim poly at_).prepend⟩

/-- The summand matters on the points of full length only. -/
theorem TrueRounds.congr {summand summand' : List F → F} {total : ℕ} {before : List F}
    {activeRounds : List ℕ} {start : ℕ} {challenges : List F} {rounds : List (F × UnivariatePoly F)}
    (fits : before.length + challenges.length ≤ total)
    (same : ∀ point, point.length = total → summand point = summand' point)
    (run : TrueRounds summand total before activeRounds start challenges rounds) :
    TrueRounds summand' total before activeRounds start challenges rounds := by
  refine ⟨run.length, fun i claim poly at_ => ?_⟩
  have round := run.round i claim poly at_
  have inside : i < challenges.length := by
    rw [← run.length]
    exact (List.getElem?_eq_some_iff.mp at_).1
  have bound : (before ++ challenges.take i).length + 1 ≤ total := by
    rw [List.length_append, List.length_take]
    omega
  refine ⟨round.sum.trans ?_, fun x => (round.evaluates x).trans ?_, round.consistent, round.halves⟩
  · refine cubeSum_congr fun point length => same _ ?_
    rw [List.length_append, length]
    omega
  · refine cubeSum_congr fun point length => same _ ?_
    rw [List.length_append, List.length_cons, length]
    omega

/-- A pending challenge may be bound before the rest of the phase. -/
theorem runRounds_pending {activeRounds : List ℕ} {totalRounds round : ℕ} {challenges : List F}
    (whole : round + challenges.length = totalRounds) (tables : PrecommittedTables F) (claim c : F) :
    PrecommittedTables.runRounds activeRounds totalRounds tables round (some c) claim challenges =
      tables.bindRound (isActive activeRounds (round - 1)) c >>= fun tables =>
        PrecommittedTables.runRounds activeRounds totalRounds tables round none claim challenges := by
  cases challenges with
  | nil =>
      obtain rfl : round = totalRounds := whole
      rfl
  | cons challenge challenges =>
      simp only [PrecommittedTables.runRounds, PrecommittedTables.proveRound]
      cases tables.bindRound (isActive activeRounds (round - 1)) c <;> rfl

/-- The next round of a phase without a pending challenge. -/
theorem runRounds_cons (activeRounds : List ℕ) (totalRounds round : ℕ) (tables : PrecommittedTables F)
    (claim c : F) (challenges : List F) :
    PrecommittedTables.runRounds activeRounds totalRounds tables round none claim (c :: challenges) =
      PrecommittedTables.runRounds activeRounds totalRounds tables (round + 1) (some c)
        ((tables.roundMessage (isActive activeRounds round) claim).evaluate c) challenges >>= fun run =>
          .ok { run with
            rounds := (claim, tables.roundMessage (isActive activeRounds round) claim) :: run.rounds } :=
  rfl

/-- The flags of the rounds from `start` on. -/
def activeFlags (activeRounds : List ℕ) (start count : ℕ) : List Bool :=
  (List.range' start count).map (isActive activeRounds)

@[simp] theorem length_activeFlags (activeRounds : List ℕ) (start count : ℕ) :
    (activeFlags activeRounds start count).length = count := by
  rw [activeFlags, List.length_map, List.length_range']

theorem activeFlags_succ (activeRounds : List ℕ) (start count : ℕ) :
    activeFlags activeRounds start (count + 1) =
      isActive activeRounds start :: activeFlags activeRounds (start + 1) count := by
  rw [activeFlags, List.range'_succ, List.map_cons, activeFlags]

theorem stepScale_ne_zero (two : (2 : F) ≠ 0) (active : Bool) : stepScale F active ≠ 0 := by
  cases active with
  | false => exact inv_ne_zero two
  | true => exact one_ne_zero

/-- The first round of a phase is a true one. -/
theorem trueRound_first (two : (2 : F) ≠ 0) (active : Bool) (steps : List Bool) (value eq : ℕ → F)
    (aux : List (ℕ → F)) {scale : F} (nonzero : scale ≠ 0) :
    TrueRound (fun point => scale * gappedProduct (active :: steps) value eq point) (steps.length + 1) []
      active (scale * innerProduct ((active :: steps).count true) value eq)
      ((tablesOf ((active :: steps).count true) value eq aux scale).roundMessage active
        (scale * innerProduct ((active :: steps).count true) value eq)) := by
  have evaluates := evaluate_roundMessage two active steps value eq aux nonzero
  refine ⟨?_, fun x => ?_, ?_, fun inactive => ?_⟩
  · refine Eq.symm ((cubeSum_mul _ _ _).trans (congrArg (scale * ·) ?_))
    exact cubeSum_gappedProduct two (active :: steps) value eq
  · rw [evaluates, ← cubeSum_gappedProduct two, ← cubeSum_mul, ← cubeSum_mul]
    exact cubeSum_congr fun point _ => by rw [List.nil_append, gappedProduct_cons]
  · rw [evaluates, evaluates, ← mul_add, innerProduct_step two]
  · rw [inactive, PrecommittedTables.roundMessage, if_pos Bool.not_false]
    rfl

/-- A phase sends the true polynomials and binds its challenges. -/
theorem runRounds_tablesOf (two : (2 : F) ≠ 0) (activeRounds : List ℕ) (later : List Bool)
    {totalRounds round : ℕ} {challenges : List F} (whole : round + challenges.length = totalRounds)
    (value eq : ℕ → F) (aux : List (ℕ → F)) {scale : F} (nonzero : scale ≠ 0) {steps : List Bool}
    (steps_ : steps = activeFlags activeRounds round challenges.length) :
    ∃ rounds, PrecommittedTables.runRounds activeRounds totalRounds
        (tablesOf ((steps ++ later).count true) value eq aux scale) round none
        (scale * innerProduct ((steps ++ later).count true) value eq) challenges =
      .ok ⟨rounds, scale * gapScale F steps * innerProduct (later.count true)
          (bindActive steps challenges value) (bindActive steps challenges eq),
        tablesOf (later.count true) (bindActive steps challenges value)
          (bindActive steps challenges eq) (aux.map (bindActive steps challenges))
          (scale * gapScale F steps)⟩ ∧
      TrueRounds (fun point => scale * gappedProduct (steps ++ later) value eq point)
        (steps ++ later).length [] activeRounds round challenges rounds := by
  induction challenges generalizing round value eq aux scale steps with
  | nil =>
      obtain rfl : steps = [] := steps_
      refine ⟨[], ?_, rfl, fun i claim poly at_ => by cases at_⟩
      have aux_ : aux.map (bindActive [] ([] : List F)) = aux := List.map_id _
      rw [aux_, gapScale, List.count_nil, pow_zero, mul_one]
      rfl
  | cons c challenges ih =>
      rw [List.length_cons, activeFlags_succ] at steps_
      obtain ⟨rest, rest_⟩ : ∃ rest, rest = activeFlags activeRounds (round + 1) challenges.length :=
        ⟨_, rfl⟩
      rw [← rest_] at steps_
      subst steps_
      have whole' : round + 1 + challenges.length = totalRounds := by
        rw [← whole, List.length_cons]
        omega
      obtain ⟨active, active_⟩ : ∃ active, isActive activeRounds round = active := ⟨_, rfl⟩
      rw [active_, List.cons_append]
      obtain ⟨rounds, runs, true_⟩ := ih whole' (bindStep active c value) (bindStep active c eq)
        (aux.map (bindStep active c)) (mul_ne_zero nonzero (stepScale_ne_zero two active)) rest_
      have first := trueRound_first two active (rest ++ later) value eq aux nonzero
      obtain ⟨claim, claim_⟩ : ∃ claim,
        scale * innerProduct ((active :: (rest ++ later)).count true) value eq = claim := ⟨_, rfl⟩
      rw [claim_] at first ⊢
      obtain ⟨poly, poly_⟩ : ∃ poly, (tablesOf ((active :: (rest ++ later)).count true) value eq aux
        scale).roundMessage active claim = poly := ⟨_, rfl⟩
      rw [poly_] at first
      refine ⟨(claim, poly) :: rounds, ?_, congrArg (· + 1) true_.length, fun i claim' poly' at_ => ?_⟩
      · have next : poly.evaluate c = scale * stepScale F active *
            innerProduct ((rest ++ later).count true) (bindStep active c value) (bindStep active c eq) := by
          rw [← poly_, ← claim_, evaluate_roundMessage two _ _ _ _ _ nonzero, mul_assoc]
        have binds := bindRound_tablesOf active (rest ++ later) value eq aux scale c
        rw [runRounds_cons, active_, poly_, runRounds_pending whole', Nat.add_sub_cancel, active_, binds,
          next]
        change (PrecommittedTables.runRounds _ _ _ _ none _ challenges >>= _) = _
        rw [runs, gapScale_cons, List.map_map, ← mul_assoc]
        rfl
      · cases i with
        | zero =>
            cases at_
            rw [List.take_zero, Nat.add_zero, active_]
            exact first
        | succ i =>
            have later_ : TrueRounds (fun point => scale *
                gappedProduct (active :: (rest ++ later)) value eq ([c] ++ point))
                (rest ++ later).length [] activeRounds (round + 1) challenges rounds := by
              refine true_.congr ?_ fun point _ => ?_
              · rw [rest_, List.length_append, length_activeFlags, List.length_nil]
                omega
              · rw [List.singleton_append, gappedProduct_cons, mul_assoc]
            have round_ := (TrueRounds.prepend (fun point => scale *
              gappedProduct (active :: (rest ++ later)) value eq point) [c] later_).round i claim' poly' at_
            rw [List.length_singleton, Nat.add_comm 1, Nat.add_assoc, Nat.add_comm 1] at round_
            exact round_

end

end JoltWasm
