import JoltWasm.Poly.SplitEq

/-!
# Split equality tables, bound

After any number of bindings, in either order, the stacks hold the tables of the unbound coordinates, and the
scalar the weight of the bound ones.
-/

namespace JoltWasm

open Lib EqPolynomial UnivariatePoly

section

variable {F : Type} [Field F]

/-! ## The stacks -/

theorem scanl_concat {α β : Type} (f : β → α → β) (b : β) (l : List α) (a : α) :
    (l ++ [a]).scanl f b = l.scanl f b ++ [(l ++ [a]).foldl f b] := by
  rw [List.scanl_append, List.foldl_append]
  rfl

theorem evalsCached_concat (r : List F) (c : F) :
    evalsCached (r ++ [c]) none = evalsCached r none ++ [table 1 (r ++ [c])] := by
  have whole : (r ++ [c]).foldl splitLow [1] = table 1 (r ++ [c]) := evalsSerial_eq (r ++ [c]) none
  rw [evalsCached, scanl_concat, Option.getD_none, whole]
  rfl

theorem evalsCachedRev_cons (c : F) (r : List F) :
    evalsCachedRev (c :: r) none = evalsCachedRev r none ++ [table 1 (c :: r)] := by
  have whole : (r.reverse ++ [c]).foldl splitHigh [1] = table 1 (c :: r) := by
    rw [← table_nil, foldl_splitHigh]
    simp
  rw [evalsCachedRev, List.reverse_cons, scanl_concat, Option.getD_none, whole]
  rfl

theorem length_evalsCached (r : List F) : (evalsCached r none).length = r.length + 1 := by
  rw [evalsCached, List.length_scanl]

theorem length_evalsCachedRev (r : List F) : (evalsCachedRev r none).length = r.length + 1 := by
  rw [evalsCachedRev, List.length_scanl, List.length_reverse]

/-- The last table is the whole point's. -/
theorem getLastD_evalsCached (r : List F) : (evalsCached r none).getLastD [] = table 1 r := by
  induction r using List.reverseRecOn with
  | nil => exact (table_nil 1).symm
  | append_singleton r c _ => rw [evalsCached_concat, List.getLastD_concat]

theorem getLastD_evalsCachedRev (r : List F) : (evalsCachedRev r none).getLastD [] = table 1 r := by
  cases r with
  | nil => exact (table_nil 1).symm
  | cons c r => rw [evalsCachedRev_cons, List.getLastD_concat]

namespace GruenSplitEqPolynomial

/-- The weight of a bound coordinate. -/
def boundWeight (c challenge : F) : F := 1 - c - challenge + c * challenge + c * challenge

/-! ## From the last variable on -/

/-- The first `m` coordinates are unbound. -/
structure LowBound (p : GruenSplitEqPolynomial F) (w : List F) (m : ℕ) (scale : F) : Prop where
  order : p.bindingOrder = .lowToHigh
  point : p.point = w
  index : p.currentIndex = m
  inside : m ≤ w.length
  scalar : p.currentScalar = scale
  outer : p.eOutVec = evalsCached ((w.take (m - 1)).take (w.length / 2)) none
  inner : p.eInVec = evalsCached ((w.take (m - 1)).drop (w.length / 2)) none

theorem lowBound_new {w : List F} (nonempty : w ≠ []) (scalingFactor : Option F) :
    LowBound (newWithScaling w .lowToHigh scalingFactor) w w.length (scalingFactor.getD 1) := by
  have positive := List.length_pos_iff.mpr nonempty
  have split : min (w.length / 2) (w.take (w.length - 1)).length = w.length / 2 := by
    rw [List.length_take]
    omega
  have shown : newWithScaling w .lowToHigh scalingFactor = ⟨w.length, scalingFactor.getD 1, w,
      evalsCached ((w.take (w.length - 1)).drop (w.length / 2)) none,
      evalsCached ((w.take (w.length - 1)).take (w.length / 2)) none, .lowToHigh⟩ := by
    rw [newWithScaling, if_neg (by rwa [List.isEmpty_iff])]
    simp only [split, List.splitAt_eq]
  rw [shown]
  exact ⟨rfl, rfl, rfl, le_rfl, rfl, rfl, rfl⟩

omit [Field F] in
/-- One coordinate off the end. -/
theorem take_pred {w : List F} {m : ℕ} (inside : m + 1 ≤ w.length) :
    ∃ c, w[m]? = some c ∧ w.take (m + 1) = w.take m ++ [c] :=
  ⟨w[m], List.getElem?_eq_getElem _, by rw [List.take_append_getElem]⟩

theorem LowBound.current {p : GruenSplitEqPolynomial F} {w : List F} {m : ℕ} {scale : F}
    (bound : LowBound p w (m + 1) scale) : p.currentPoint = w[m]? := by
  rw [currentPoint, bound.order, bound.index, bound.point]
  simp

theorem LowBound.bind {p : GruenSplitEqPolynomial F} {w : List F} {m : ℕ} {scale c : F}
    (bound : LowBound p w (m + 1) scale) (here : w[m]? = some c) (challenge : F) :
    ∃ p', p.bind challenge = some p' ∧ LowBound p' w m (scale * boundWeight c challenge) := by
  have inside := bound.inside
  have nonempty : w.isEmpty = false := by
    rw [List.isEmpty_eq_false_iff, ← List.length_pos_iff]
    omega
  have outer : p.eOutVec = evalsCached ((w.take m).take (w.length / 2)) none := bound.outer
  have inner : p.eInVec = evalsCached ((w.take m).drop (w.length / 2)) none := bound.inner
  rw [GruenSplitEqPolynomial.bind, bound.point, nonempty, bound.current, here]
  simp only [Bool.false_eq_true, if_false, Option.bind_eq_bind, Option.bind_some, bound.order, bound.index, bound.scalar,
    Nat.add_sub_cancel]
  rw [outer, inner, length_evalsCached, length_evalsCached, List.length_drop, List.length_take, List.length_take,
    List.length_take]
  by_cases low : w.length / 2 < m
  · -- The last inner variable is bound.
    obtain ⟨k, rfl⟩ := Nat.exists_eq_add_of_lt low
    obtain ⟨d, _, last⟩ := take_pred (w := w) (m := w.length / 2 + k) (by omega)
    rw [if_pos ⟨low, by omega⟩]
    refine ⟨_, rfl, rfl, rfl, rfl, by omega, rfl, ?_, ?_⟩
    · simp only [List.take_take, Nat.add_sub_cancel]
      congr 2
      omega
    · simp only
      rw [last, List.drop_append_of_le_length (by rw [List.length_take]; omega), evalsCached_concat,
        List.dropLast_concat, Nat.add_sub_cancel]
  · rw [if_neg fun both => low both.1]
    have empty (n : ℕ) (short : n ≤ m) : (w.take n).drop (w.length / 2) = [] :=
      List.drop_eq_nil_of_le (by rw [List.length_take]; omega)
    by_cases zero : m = 0
    · subst zero
      rw [if_neg fun both => lt_irrefl _ both.1]
      exact ⟨_, rfl, rfl, rfl, rfl, by omega, rfl, rfl, rfl⟩
    · -- The last outer variable is bound.
      obtain ⟨k, rfl⟩ := Nat.exists_eq_succ_of_ne_zero zero
      obtain ⟨d, _, last⟩ := take_pred (w := w) (m := k) (by omega)
      rw [if_pos ⟨by omega, by omega⟩]
      refine ⟨_, rfl, rfl, rfl, rfl, by omega, rfl, ?_, ?_⟩
      · have whole (n : ℕ) (short : n ≤ w.length / 2) : (w.take n).take (w.length / 2) = w.take n :=
          List.take_of_length_le (by rw [List.length_take]; omega)
        simp only [Nat.succ_eq_add_one, Nat.add_sub_cancel]
        rw [whole _ (by omega), whole _ (by omega), last, evalsCached_concat, List.dropLast_concat]
      · simp only
        rw [empty _ le_rfl, empty _ (Nat.sub_le _ _)]

/-! ## From the first variable on -/

/-- The first `k` coordinates are bound. -/
structure HighBound (p : GruenSplitEqPolynomial F) (w : List F) (k : ℕ) (scale : F) : Prop where
  order : p.bindingOrder = .highToLow
  point : p.point = w
  index : p.currentIndex = k
  inside : k ≤ w.length
  scalar : p.currentScalar = scale
  outer : p.eOutVec = evalsCachedRev (w.drop (max (w.length / 2) k + 1)) none
  inner : p.eInVec = evalsCachedRev ((w.take (w.length / 2 + 1)).drop (k + 1)) none

theorem highBound_new {w : List F} (nonempty : w ≠ []) (scalingFactor : Option F) :
    HighBound (newWithScaling w .highToLow scalingFactor) w 0 (scalingFactor.getD 1) := by
  have positive := List.length_pos_iff.mpr nonempty
  have split : min (w.length / 2) (w.drop 1).length = w.length / 2 := by
    rw [List.length_drop]
    omega
  have shown : newWithScaling w .highToLow scalingFactor = ⟨0, scalingFactor.getD 1, w,
      evalsCachedRev ((w.drop 1).take (w.length / 2)) none,
      evalsCachedRev ((w.drop 1).drop (w.length / 2)) none, .highToLow⟩ := by
    rw [newWithScaling, if_neg (by rwa [List.isEmpty_iff])]
    simp only [split, List.splitAt_eq]
  rw [shown]
  refine ⟨rfl, rfl, rfl, Nat.zero_le _, rfl, ?_, ?_⟩
  · simp only [List.drop_drop, Nat.max_zero, Nat.add_comm 1]
  · simp only [List.drop_take, Nat.zero_add, Nat.add_sub_cancel]

theorem HighBound.bind {p : GruenSplitEqPolynomial F} {w : List F} {k : ℕ} {scale c : F}
    (bound : HighBound p w k scale) (here : w[k]? = some c) (challenge : F) :
    ∃ p', p.bind challenge = some p' ∧ HighBound p' w (k + 1) (scale * boundWeight c challenge) := by
  have inside : k < w.length := (List.getElem?_eq_some_iff.mp here).1
  have nonempty : w.isEmpty = false := by
    rw [List.isEmpty_eq_false_iff, ← List.length_pos_iff]
    omega
  have current : p.currentPoint = some c := by
    rw [currentPoint, bound.order, bound.index, bound.point]
    exact here
  rw [GruenSplitEqPolynomial.bind, bound.point, nonempty, current]
  simp only [Bool.false_eq_true, if_false, Option.bind_eq_bind, Option.bind_some, bound.order, bound.index, bound.scalar]
  rw [bound.outer, bound.inner, length_evalsCachedRev, length_evalsCachedRev, List.length_drop, List.length_drop,
    List.length_take]
  by_cases low : k + 1 ≤ w.length / 2
  · -- The first inner variable is bound.
    have first : (w.take (w.length / 2 + 1)).drop (k + 1) =
        w[k + 1] :: (w.take (w.length / 2 + 1)).drop (k + 1 + 1) := by
      rw [List.drop_eq_getElem_cons (by rw [List.length_take]; omega), List.getElem_take]
    rw [if_pos ⟨low, by omega⟩]
    refine ⟨_, rfl, rfl, rfl, rfl, inside, rfl, ?_, ?_⟩
    · simp only
      rw [max_eq_left (by omega), max_eq_left low]
    · simp only
      rw [first, evalsCachedRev_cons, List.dropLast_concat]
  · rw [if_neg fun both => low both.1]
    have empty (n : ℕ) (past : k + 1 ≤ n) : (w.take (w.length / 2 + 1)).drop n = [] :=
      List.drop_eq_nil_of_le (by rw [List.length_take]; omega)
    rw [max_eq_right (by omega)]
    by_cases last : k + 1 = w.length
    · rw [if_neg fun both => by omega]
      refine ⟨_, rfl, rfl, rfl, rfl, inside, rfl, ?_, ?_⟩
      · simp only
        rw [List.drop_eq_nil_of_le (by omega), List.drop_eq_nil_of_le (by omega)]
      · simp only
        rw [empty _ le_rfl, empty _ (by omega)]
    · -- The first outer variable is bound.
      rw [if_pos ⟨inside, by omega⟩]
      refine ⟨_, rfl, rfl, rfl, rfl, inside, rfl, ?_, ?_⟩
      · simp only
        rw [List.drop_eq_getElem_cons (by omega), evalsCachedRev_cons, List.dropLast_concat, max_eq_right (by omega)]
      · simp only
        rw [empty _ le_rfl, empty _ (by omega)]

/-! ## The current tables -/

/-- The coordinates in the order of the point. -/
def arrange (order : BindingOrder) (outer inner : List F) (c : F) : List F :=
  match order with
  | .lowToHigh => outer ++ inner ++ [c]
  | .highToLow => c :: (inner ++ outer)

/-- The state holds the tables of the unbound coordinates. -/
structure Holds (p : GruenSplitEqPolynomial F) (order : BindingOrder) (unbound : List F) (scale : F) : Prop where
  ordered : p.bindingOrder = order
  scalar : p.currentScalar = scale
  merged : p.merge = DensePolynomial.new (table scale unbound)
  current : unbound ≠ [] → ∃ c outer inner, p.currentPoint = some c ∧ p.eOutCurrent = table 1 outer ∧
    p.eInCurrent = table 1 inner ∧ unbound = arrange order outer inner c
  done : unbound = [] → p.currentPoint = none

theorem LowBound.holds {p : GruenSplitEqPolynomial F} {w : List F} {m : ℕ} {scale : F}
    (bound : LowBound p w m scale) : Holds p .lowToHigh (w.take m) scale where
  ordered := bound.order
  scalar := bound.scalar
  merged := by
    rw [merge, bound.order]
    simp only
    rw [bound.point, bound.index, bound.scalar, evals_eq, Option.getD_some]
  current nonempty := by
    obtain ⟨k, rfl⟩ : ∃ k, m = k + 1 := Nat.exists_eq_succ_of_ne_zero fun zero => nonempty (by rw [zero, List.take_zero])
    obtain ⟨c, here, last⟩ := take_pred bound.inside
    refine ⟨c, (w.take k).take (w.length / 2), (w.take k).drop (w.length / 2), bound.current.trans here, ?_, ?_, ?_⟩
    · rw [eOutCurrent, bound.outer, getLastD_evalsCached, Nat.add_sub_cancel]
    · rw [eInCurrent, bound.inner, getLastD_evalsCached, Nat.add_sub_cancel]
    · rw [last]
      simp only [arrange, List.take_append_drop]
  done empty := by
    have zero : m = 0 := by
      have length := congrArg List.length empty
      rw [List.length_take, List.length_nil, min_eq_left bound.inside] at length
      exact length
    rw [currentPoint, bound.order, bound.index, zero]
    rfl

theorem HighBound.holds {p : GruenSplitEqPolynomial F} {w : List F} {k : ℕ} {scale : F}
    (bound : HighBound p w k scale) : Holds p .highToLow (w.drop k) scale where
  ordered := bound.order
  scalar := bound.scalar
  merged := by
    rw [merge, bound.order]
    simp only
    rw [bound.point, bound.index, bound.scalar, evals_eq, Option.getD_some]
  current nonempty := by
    have inside : k < w.length := by
      by_contra past
      exact nonempty (List.drop_eq_nil_of_le (Nat.not_lt.mp past))
    refine ⟨w[k], w.drop (max (w.length / 2) k + 1), (w.take (w.length / 2 + 1)).drop (k + 1), ?_, ?_, ?_, ?_⟩
    · rw [currentPoint, bound.order, bound.index, bound.point]
      exact List.getElem?_eq_getElem inside
    · rw [eOutCurrent, bound.outer, getLastD_evalsCachedRev]
    · rw [eInCurrent, bound.inner, getLastD_evalsCachedRev]
    · rw [List.drop_eq_getElem_cons inside]
      refine congrArg (w[k] :: ·) ?_
      -- The inner coordinates end in the middle, or are all bound.
      rcases Nat.le_total k (w.length / 2) with low | high
      · have middle : w.length / 2 + 1 = k + 1 + (w.length / 2 - k) := by omega
        have outer : w.drop (w.length / 2 + 1) = (w.drop (k + 1)).drop (w.length / 2 - k) := by
          rw [List.drop_drop, ← middle]
        rw [max_eq_left low, outer, List.drop_take, Nat.add_sub_add_right, List.take_append_drop]
      · have empty : (w.take (w.length / 2 + 1)).drop (k + 1) = [] :=
          List.drop_eq_nil_of_le (by rw [List.length_take]; omega)
        rw [max_eq_right high, empty, List.nil_append]
  done empty := by
    rw [currentPoint, bound.order, bound.index, bound.point]
    exact List.getElem?_eq_none (List.drop_eq_nil_iff.mp empty)

/-! ## The dense table -/

/-- The table of a point. -/
def tablePolynomial (scale : F) (point : List F) : DensePolynomial F :=
  ⟨table scale point, point.length, .inr (length_table scale point)⟩

theorem new_table (scale : F) (point : List F) :
    DensePolynomial.new (table scale point) = some (tablePolynomial scale point) := by
  rw [DensePolynomial.new, dif_neg (by rw [length_table]; exact (Nat.two_pow_pos _).ne'),
    dif_pos (by rw [length_table, Nat.log_pow one_lt_two])]
  simp only [tablePolynomial, length_table, Nat.log_pow one_lt_two]

theorem bindPairs_table (scale : F) (point : List F) (c challenge : F) :
    bindPairs (table scale (point ++ [c])) challenge = table (scale * boundWeight c challenge) point := by
  have shown : table scale (point ++ [c]) = listed (point.length + 1) fun k => scale * eqWeight (point ++ [c]) k := by
    rw [table, List.length_append, List.length_singleton, listed]
  rw [shown, bindPairs_listed]
  refine listed_congr fun i _ => ?_
  obtain ⟨even, odd⟩ := eqWeight_concat point c i
  rw [even, odd, boundWeight]
  ring

theorem bindInPlace_table (scale : F) (point : List F) (c challenge : F) :
    bindInPlace (table scale (c :: point)) challenge = table (scale * boundWeight c challenge) point := by
  have shown : table scale (c :: point) = listed (point.length + 1) fun k => scale * eqWeight (c :: point) k := by
    rw [table, List.length_cons, listed]
  rw [shown, bindInPlace_listed]
  refine listed_congr fun i inside => ?_
  rw [eqWeight_cons_low c point inside, eqWeight_cons_high c point inside, boundWeight]
  ring

theorem bindLowToHigh_table (scale : F) (point : List F) (c challenge : F) :
    (tablePolynomial scale (point ++ [c])).bindWithOrder .lowToHigh challenge =
      some (tablePolynomial (scale * boundWeight c challenge) point) := by
  rw [DensePolynomial.bindWithOrder]
  simp only [DensePolynomial.bindLowToHigh, tablePolynomial, bindPairs_table, List.length_append, List.length_singleton, Nat.add_sub_cancel]
  rw [dif_pos (Nat.succ_pos _)]

theorem bindHighToLow_table (scale : F) (point : List F) (c challenge : F) :
    (tablePolynomial scale (c :: point)).bindWithOrder .highToLow challenge =
      some (tablePolynomial (scale * boundWeight c challenge) point) := by
  rw [DensePolynomial.bindWithOrder]
  simp only [DensePolynomial.bindHighToLow, tablePolynomial, bindInPlace_table, List.length_cons, Nat.add_sub_cancel]
  rw [dif_pos (Nat.succ_pos _)]

/-! ## Runs -/

theorem LowBound.run {w challenges : List F} {m : ℕ} {p : GruenSplitEqPolynomial F} {scale : F}
    (bound : LowBound p w m scale) (short : challenges.length ≤ m) : ∃ p' scale',
      challenges.foldlM GruenSplitEqPolynomial.bind p = some p' ∧ LowBound p' w (m - challenges.length) scale' ∧
      challenges.foldlM (DensePolynomial.bindWithOrder .lowToHigh) (tablePolynomial scale (w.take m)) =
        some (tablePolynomial scale' (w.take (m - challenges.length))) := by
  induction challenges generalizing m p scale with
  | nil => exact ⟨p, scale, rfl, bound, rfl⟩
  | cons challenge challenges ih =>
      obtain ⟨k, rfl⟩ := Nat.exists_eq_succ_of_ne_zero (n := m) (by rw [List.length_cons] at short; omega)
      obtain ⟨c, here, last⟩ := take_pred bound.inside
      obtain ⟨next, stepped, bound'⟩ := bound.bind here challenge
      obtain ⟨p', scale', ran, bound'', dense⟩ := ih bound' (Nat.le_of_succ_le_succ short)
      rw [List.length_cons, Nat.succ_sub_succ]
      refine ⟨p', scale', ?_, bound'', ?_⟩
      · rw [List.foldlM_cons, stepped]
        exact ran
      · rw [List.foldlM_cons, Nat.succ_eq_add_one, last, bindLowToHigh_table]
        exact dense

theorem HighBound.run {w challenges : List F} {k : ℕ} {p : GruenSplitEqPolynomial F} {scale : F}
    (bound : HighBound p w k scale) (short : k + challenges.length ≤ w.length) : ∃ p' scale',
      challenges.foldlM GruenSplitEqPolynomial.bind p = some p' ∧ HighBound p' w (k + challenges.length) scale' ∧
      challenges.foldlM (DensePolynomial.bindWithOrder .highToLow) (tablePolynomial scale (w.drop k)) =
        some (tablePolynomial scale' (w.drop (k + challenges.length))) := by
  induction challenges generalizing k p scale with
  | nil => exact ⟨p, scale, rfl, bound, rfl⟩
  | cons challenge challenges ih =>
      rw [List.length_cons] at short
      have inside : k < w.length := by omega
      obtain ⟨next, stepped, bound'⟩ := bound.bind (List.getElem?_eq_getElem inside) challenge
      obtain ⟨p', scale', ran, bound'', dense⟩ := ih bound' (by omega)
      rw [List.length_cons, Nat.add_comm challenges.length, ← Nat.add_assoc]
      refine ⟨p', scale', ?_, bound'', ?_⟩
      · rw [List.foldlM_cons, stepped]
        exact ran
      · rw [List.foldlM_cons, List.drop_eq_getElem_cons inside, bindHighToLow_table]
        exact dense

/-- After any number of bindings the two sides agree. -/
theorem run_holds (w : List F) (order : BindingOrder) (scalingFactor : Option F) {challenges : List F}
    (short : challenges.length ≤ w.length) : ∃ p scale unbound,
      challenges.foldlM GruenSplitEqPolynomial.bind (newWithScaling w order scalingFactor) = some p ∧ Holds p order unbound scale ∧
      unbound.length = w.length - challenges.length ∧
      challenges.foldlM (DensePolynomial.bindWithOrder order) (tablePolynomial (scalingFactor.getD 1) w) =
        some (tablePolynomial scale unbound) := by
  by_cases empty : w = []
  · subst empty
    obtain rfl := List.eq_nil_of_length_eq_zero (Nat.le_zero.mp short)
    refine ⟨_, scalingFactor.getD 1, [], rfl, ⟨by cases order <;> rfl, by cases order <;> rfl, ?_, fun absurd =>
      (absurd rfl).elim, fun _ => by cases order <;> rfl⟩, rfl, rfl⟩
    cases order <;> simp [newWithScaling, merge, evals_eq]
  · cases order with
    | lowToHigh =>
        obtain ⟨p, scale, ran, bound, dense⟩ := (lowBound_new empty scalingFactor).run short
        rw [List.take_length] at dense
        exact ⟨p, scale, _, ran, bound.holds, by rw [List.length_take]; omega, dense⟩
    | highToLow =>
        have fits : 0 + challenges.length ≤ w.length := by omega
        obtain ⟨p, scale, ran, bound, dense⟩ := (highBound_new empty scalingFactor).run fits
        rw [Nat.zero_add] at bound dense
        exact ⟨p, scale, _, ran, bound.holds, by rw [List.length_drop], dense⟩

end GruenSplitEqPolynomial

end

end JoltWasm
