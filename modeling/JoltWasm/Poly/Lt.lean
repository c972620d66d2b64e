import JoltWasm.Lib.Ordering
import JoltWasm.Poly.Dense

/-!
# The less-than polynomial

Its table, the two half-size tables that stand for it, and their binding: from the first variable on for the
polynomial itself, from the last one on for the kernels' variant.
-/

namespace JoltWasm

open Lib

section

variable {F : Type} [Field F]

/-- The table, from the last coordinate on. -/
def ltEvals (r : List F) : List F :=
  r.reverse.foldl (fun evals ri => evals.map (fun x => x + (ri - x * ri)) ++ evals.map (· * ri)) [0]

structure LtPolynomial (F : Type) where
  ltLo : List F
  ltHi : List F
  eqHi : List F
  nLoVars : ℕ
  nHiVars : ℕ

namespace LtPolynomial

/-- The high half has the extra variable. -/
def new (r : List F) : LtPolynomial F :=
  let mid := r.length / 2
  let (rHi, rLo) := r.splitAt (r.length - mid)
  ⟨ltEvals rLo, ltEvals rHi, EqPolynomial.evaluations rHi, rLo.length, rHi.length⟩

def numVars (p : LtPolynomial F) : ℕ := p.nHiVars + p.nLoVars

def len (p : LtPolynomial F) : ℕ := p.ltHi.length * p.ltLo.length

def get (p : LtPolynomial F) (idx : ℕ) : F :=
  let loSize := p.ltLo.length
  let iHi := idx / loSize
  let iLo := idx % loSize
  p.ltHi.getD iHi 0 + p.eqHi.getD iHi 0 * p.ltLo.getD iLo 0

def sumcheckEvalPair (p : LtPolynomial F) (j : ℕ) : F × F := (p.get j, p.get (j + p.len / 2))

def bind (p : LtPolynomial F) (challenge : F) : Option (LtPolynomial F) :=
  if 0 < p.nHiVars then
    some { p with
      ltHi := bindInPlace p.ltHi challenge
      eqHi := bindInPlace p.eqHi challenge
      nHiVars := p.nHiVars - 1 }
  else if 0 < p.nLoVars then
    some { p with
      ltLo := bindInPlace p.ltLo challenge
      nLoVars := p.nLoVars - 1 }
  else none

def evaluations (r : List F) : List F := ltEvals r

def evaluateLoop : F → F → List F → List F → F
  | lt, eqPrefix, xi :: x, ri :: r =>
      evaluateLoop (lt + (1 - xi) * ri * eqPrefix) (eqPrefix * (xi * ri + (1 - xi) * (1 - ri))) x r
  | lt, _, _, _ => lt

def evaluate (x r : List F) : Option F :=
  if x.length = r.length then some (evaluateLoop 0 1 x r) else none

end LtPolynomial

/-- The less-than polynomial plus a constant, bound from the last variable on. -/
inductive SplitLt (F : Type) where
  | split (ltLo ltHi eqHi : List F)
  | dense (table : List F)

namespace SplitLt

def newPlusConstant (rCycle : List F) (constant : F) : SplitLt F :=
  let mid := rCycle.length / 2
  let (rHi, rLo) := rCycle.splitAt (rCycle.length - mid)
  if rLo.isEmpty then .dense ((LtPolynomial.evaluations rHi).map fun lt => lt + constant)
  else
    .split (LtPolynomial.evaluations rLo) ((LtPolynomial.evaluations rHi).map fun lt => lt + constant)
      (EqPolynomial.evals rHi none)

def new (rCycle : List F) : SplitLt F := newPlusConstant rCycle 0

def pair (p : SplitLt F) (y : ℕ) : F × F :=
  match p with
  | .split ltLo ltHi eqHi =>
      let loLen := ltLo.length
      let j := 2 * y
      let hi := j / loLen
      let base := ltHi.getD hi 0
      let scale := eqHi.getD hi 0
      (base + scale * ltLo.getD (j % loLen) 0, base + scale * ltLo.getD ((j + 1) % loLen) 0)
  | .dense table => (table.getD (2 * y) 0, table.getD (2 * y + 1) 0)

def bind (p : SplitLt F) (r : F) : SplitLt F :=
  match p with
  | .split ltLo ltHi eqHi =>
      let ltLo := bindPairs ltLo r
      if ltLo.length = 1 then
        let loScalar := ltLo.getD 0 0
        .dense (List.zipWith (fun lt eq => lt + eq * loScalar) ltHi eqHi)
      else .split ltLo ltHi eqHi
  | .dense table => .dense (bindPairs table r)

def finalValue : SplitLt F → Option F
  | .dense table => table[0]?
  | .split .. => none

end SplitLt

/-! ## The table -/

theorem ltEvals_eq (r : List F) : ltEvals r = tabulated (fun x => lessThan x r) [] r.length [] := by
  induction r with
  | nil => simp [ltEvals, tabulated, listed, bitPoint]
  | cons ri r ih =>
      have whole : ltEvals (ri :: r) =
          (ltEvals r).map (fun x => x + (ri - x * ri)) ++ (ltEvals r).map (· * ri) := by
        rw [ltEvals, List.reverse_cons, List.foldl_append]
        rfl
      rw [whole, ih, tabulated_nil, tabulated_nil, map_listed, map_listed, List.length_cons, listed_succ]
      congr 1
      · refine listed_congr fun i inside => ?_
        rw [bitPoint_succ_low inside, lessThan_cons (length_bitPoint _ _), pairEq]
        ring
      · refine listed_congr fun i inside => ?_
        rw [bitPoint_succ_high inside, lessThan_cons (length_bitPoint _ _), pairEq]
        ring

theorem table_eq_tabulated (r : List F) : EqPolynomial.table 1 r = tabulated (equal r) [] r.length [] := by
  rw [tabulated_nil, EqPolynomial.table]
  refine listed_congr fun i inside => ?_
  rw [equal, extension_bitPoint _ inside, one_mul]

namespace LtPolynomial

theorem evaluateLoop_eq (lt eqPrefix : F) {x r : List F} (same : x.length = r.length) :
    evaluateLoop lt eqPrefix x r = lt + eqPrefix * lessThan x r := by
  induction x generalizing lt eqPrefix r with
  | nil =>
      obtain rfl := List.eq_nil_of_length_eq_zero same.symm
      rw [lessThan_nil, mul_zero, add_zero]
      rfl
  | cons xi x ih =>
      obtain ⟨ri, r, rfl⟩ := List.exists_cons_of_length_eq_add_one same.symm
      have same : x.length = r.length := Nat.succ.inj same
      rw [evaluateLoop, ih _ _ same, lessThan_cons same, pairEq]
      ring

theorem evaluate_eq {x r : List F} (same : x.length = r.length) : evaluate x r = some (lessThan x r) := by
  rw [evaluate, if_pos same, evaluateLoop_eq 0 1 same, zero_add, one_mul]

/-! ## Binding from the first variable on -/

/-- The halves of the point, with `challenges` in place of the first coordinates. -/
structure Bound (p : LtPolynomial F) (rHi rLo : List F) (challenges : List F) : Prop where
  nHiVars : p.nHiVars = rHi.length - challenges.length
  nLoVars : p.nLoVars = rLo.length - (challenges.length - rHi.length)
  ltHi : p.ltHi = tabulated (fun x => lessThan x rHi) (challenges.take rHi.length) p.nHiVars []
  eqHi : p.eqHi = tabulated (equal rHi) (challenges.take rHi.length) p.nHiVars []
  ltLo : p.ltLo = tabulated (fun x => lessThan x rLo) (challenges.drop rHi.length) p.nLoVars []

theorem bound_new (r : List F) :
    Bound (new r) (r.take (r.length - r.length / 2)) (r.drop (r.length - r.length / 2)) [] := by
  rw [new, List.splitAt_eq]
  refine ⟨rfl, by simp, ?_, ?_, ?_⟩
  · rw [List.take_nil]
    exact ltEvals_eq _
  · rw [List.take_nil]
    exact (EqPolynomial.evaluations_eq _).trans (table_eq_tabulated _)
  · rw [List.drop_nil]
    exact ltEvals_eq _

theorem Bound.bind {p : LtPolynomial F} {rHi rLo challenges : List F} (bound : Bound p rHi rLo challenges)
    (left : challenges.length < rHi.length + rLo.length) (challenge : F) :
    ∃ p', p.bind challenge = some p' ∧ Bound p' rHi rLo (challenges ++ [challenge]) := by
  have hi := bound.nHiVars
  have lo := bound.nLoVars
  by_cases inside : challenges.length < rHi.length
  · obtain ⟨m, size⟩ := Nat.exists_eq_succ_of_ne_zero (n := p.nHiVars) (by omega)
    refine ⟨_, if_pos (by omega), ?_, ?_, ?_, ?_, ?_⟩
    · simp only [List.length_append, List.length_singleton]
      omega
    · simp only [List.length_append, List.length_singleton]
      omega
    · simp only [size, Nat.succ_sub_one]
      rw [bound.ltHi, size, bindInPlace_tabulated (multilinear_lessThan rHi), List.take_of_length_le inside.le,
        List.take_of_length_le (by rw [List.length_append, List.length_singleton]; omega)]
    · simp only [size, Nat.succ_sub_one]
      rw [bound.eqHi, size, bindInPlace_tabulated (multilinear_equal rHi), List.take_of_length_le inside.le,
        List.take_of_length_le (by rw [List.length_append, List.length_singleton]; omega)]
    · simp only
      rw [bound.ltLo, List.drop_of_length_le inside.le,
        List.drop_of_length_le (by rw [List.length_append, List.length_singleton]; omega)]
  · -- The high half is bound.
    have outside := Nat.not_lt.mp inside
    obtain ⟨m, size⟩ := Nat.exists_eq_succ_of_ne_zero (n := p.nLoVars) (by omega)
    refine ⟨_, (if_neg (by omega)).trans (if_pos (by omega)), ?_, ?_, ?_, ?_, ?_⟩
    · simp only [List.length_append, List.length_singleton]
      omega
    · simp only [List.length_append, List.length_singleton]
      omega
    · simp only
      rw [bound.ltHi, List.take_append_of_le_length outside]
    · simp only
      rw [bound.eqHi, List.take_append_of_le_length outside]
    · simp only [size, Nat.succ_sub_one]
      rw [bound.ltLo, size, bindInPlace_tabulated (multilinear_lessThan rLo), List.drop_append_of_le_length outside]

theorem Bound.run {p : LtPolynomial F} {rHi rLo done challenges : List F} (bound : Bound p rHi rLo done)
    (left : done.length + challenges.length ≤ rHi.length + rLo.length) :
    ∃ p', challenges.foldlM LtPolynomial.bind p = some p' ∧ Bound p' rHi rLo (done ++ challenges) := by
  induction challenges generalizing p done with
  | nil => exact ⟨p, rfl, by rwa [List.append_nil]⟩
  | cons challenge challenges ih =>
      rw [List.length_cons] at left
      obtain ⟨next, stepped, bound'⟩ := bound.bind (by omega) challenge
      obtain ⟨p', ran, bound''⟩ := ih bound' (by rw [List.length_append, List.length_singleton]; omega)
      refine ⟨p', ?_, by rwa [List.append_assoc] at bound''⟩
      rw [List.foldlM_cons, stepped]
      exact ran

/-- An entry is the extension at the challenges and the bits of the index. -/
theorem Bound.get_eq {p : LtPolynomial F} {rHi rLo challenges : List F} (bound : Bound p rHi rLo challenges)
    (short : challenges.length ≤ rHi.length + rLo.length) {idx : ℕ} (inside : idx < 2 ^ p.numVars) :
    p.get idx = lessThan (challenges ++ bitPoint F p.numVars idx) (rHi ++ rLo) := by
  have hi := bound.nHiVars
  have lo := bound.nLoVars
  have size := Nat.two_pow_pos p.nLoVars
  have high : idx / 2 ^ p.nLoVars < 2 ^ p.nHiVars := by
    rw [Nat.div_lt_iff_lt_mul size, ← pow_add]
    exact inside
  set xHi := challenges.take rHi.length ++ bitPoint F p.nHiVars (idx / 2 ^ p.nLoVars) with highPart
  set xLo := challenges.drop rHi.length ++ bitPoint F p.nLoVars idx with lowPart
  have whole : challenges ++ bitPoint F p.numVars idx = xHi ++ xLo := by
    rw [numVars, bitPoint_add, highPart, lowPart]
    rcases Nat.le_total challenges.length rHi.length with before | past
    · rw [List.take_of_length_le before, List.drop_of_length_le before, List.nil_append, List.append_assoc]
    · have none : p.nHiVars = 0 := by omega
      rw [none, bitPoint, List.nil_append, List.append_nil, ← List.append_assoc, List.take_append_drop]
  have lengthHi : xHi.length = rHi.length := by
    rw [highPart, List.length_append, List.length_take, length_bitPoint]
    omega
  have lengthLo : xLo.length = rLo.length := by
    rw [lowPart, List.length_append, List.length_drop, length_bitPoint]
    omega
  rw [whole, lessThan_append lengthHi lengthLo, equal_comm lengthHi, get, bound.ltLo, bound.ltHi, bound.eqHi,
    length_tabulated]
  rw [getD_tabulated _ _ _ high, getD_tabulated _ _ _ high, getD_tabulated _ _ _ (Nat.mod_lt _ size), bitPoint_mod,
    List.append_nil, List.append_nil]

end LtPolynomial

/-! ## Binding from the last variable on -/

namespace SplitLt

/-- `low` is in place of the last coordinates. -/
def Bound (p : SplitLt F) (rHi rLo : List F) (constant : F) (low : List F) : Prop :=
  if low.length < rLo.length then
    p = .split (tabulated (fun x => lessThan x rLo) [] (rLo.length - low.length) low)
      (tabulated (fun x => lessThan x rHi + constant) [] rHi.length []) (tabulated (equal rHi) [] rHi.length [])
  else
    p = .dense (tabulated (fun x => lessThan x (rHi ++ rLo) + constant) [] (rHi.length + rLo.length - low.length) low)

theorem multilinear_plus (r : List F) (constant : F) : Multilinear fun x => lessThan x r + constant :=
  (multilinear_lessThan r).add (Multilinear.const constant)

theorem evaluations_plus (r : List F) (constant : F) : (LtPolynomial.evaluations r).map (fun lt => lt + constant) =
    tabulated (fun x => lessThan x r + constant) [] r.length [] := by
  rw [LtPolynomial.evaluations, ltEvals_eq, tabulated, map_listed]
  rfl

theorem bound_new (r : List F) (constant : F) : Bound (newPlusConstant r constant)
    (r.take (r.length - r.length / 2)) (r.drop (r.length - r.length / 2)) constant [] := by
  rw [Bound, newPlusConstant, List.splitAt_eq]
  simp only [List.length_nil, evaluations_plus]
  by_cases empty : r.drop (r.length - r.length / 2) = []
  · rw [empty, List.isEmpty_nil, if_pos rfl, List.length_nil, if_neg (lt_irrefl 0), List.append_nil, Nat.add_zero,
      Nat.sub_zero]
  · rw [if_pos (List.length_pos_iff.mpr empty), if_neg (by rwa [List.isEmpty_iff]), EqPolynomial.evals_eq,
      Option.getD_none, table_eq_tabulated, LtPolynomial.evaluations, ltEvals_eq, Nat.sub_zero]

/-- The two tables give the entries of the dense one. -/
theorem lessThan_bits (rHi : List F) {rLo low : List F} {m : ℕ} (lengths : m + low.length = rLo.length) (j : ℕ) :
    lessThan (bitPoint F (rHi.length + m) j ++ low) (rHi ++ rLo) =
      lessThan (bitPoint F rHi.length (j / 2 ^ m)) rHi +
        equal rHi (bitPoint F rHi.length (j / 2 ^ m)) * lessThan (bitPoint F m j ++ low) rLo := by
  rw [bitPoint_add, List.append_assoc, lessThan_append (length_bitPoint _ _) (by
    rw [List.length_append, length_bitPoint, lengths]), equal_comm (length_bitPoint _ _)]

theorem Bound.bind {p : SplitLt F} {rHi rLo low : List F} {constant : F} (bound : Bound p rHi rLo constant low)
    (left : low.length < rHi.length + rLo.length) (challenge : F) :
    Bound (p.bind challenge) rHi rLo constant (challenge :: low) := by
  rw [Bound] at bound ⊢
  rw [List.length_cons]
  by_cases inside : low.length < rLo.length
  · rw [if_pos inside] at bound
    obtain ⟨m, size⟩ := Nat.exists_eq_succ_of_ne_zero (n := rLo.length - low.length) (by omega)
    have rest : rLo.length - (low.length + 1) = m := by omega
    rw [bound, SplitLt.bind, size, bindPairs_tabulated (multilinear_lessThan rLo), rest]
    simp only [length_tabulated]
    by_cases last : low.length + 1 < rLo.length
    · rw [if_pos last, if_neg (Nat.one_lt_two_pow (by omega)).ne']
    · -- The low half is bound; its value goes into the high table.
      obtain rfl : m = 0 := by omega
      have remaining : rHi.length + rLo.length - (low.length + 1) = rHi.length := by omega
      rw [if_neg last, if_pos (pow_zero 2), getD_tabulated _ _ _ one_pos, remaining]
      refine congrArg SplitLt.dense ?_
      rw [tabulated, tabulated, tabulated, listed, listed, List.zipWith_map, List.zipWith_self]
      refine listed_congr fun i _ => ?_
      have lengths : 0 + (challenge :: low).length = rLo.length := by
        rw [List.length_cons]
        omega
      have split := lessThan_bits rHi lengths i
      simp only [List.nil_append, List.append_nil, bitPoint, Nat.add_zero, pow_zero, Nat.div_one] at split ⊢
      rw [split]
      ring
  · rw [if_neg inside] at bound
    obtain ⟨m, size⟩ := Nat.exists_eq_succ_of_ne_zero (n := rHi.length + rLo.length - low.length) (by omega)
    have rest : rHi.length + rLo.length - (low.length + 1) = m := by omega
    rw [bound, if_neg (by omega), SplitLt.bind, size, bindPairs_tabulated (multilinear_plus _ _), rest]

theorem Bound.run {p : SplitLt F} {rHi rLo low challenges : List F} {constant : F}
    (bound : Bound p rHi rLo constant low) (left : low.length + challenges.length ≤ rHi.length + rLo.length) :
    Bound (challenges.foldl SplitLt.bind p) rHi rLo constant (challenges.reverse ++ low) := by
  induction challenges generalizing p low with
  | nil => exact bound
  | cons challenge challenges ih =>
      rw [List.length_cons] at left
      have next := ih (bound.bind (by omega) challenge) (by rw [List.length_cons]; omega)
      rwa [List.reverse_cons, List.append_assoc]

theorem Bound.pair_eq {p : SplitLt F} {rHi rLo low : List F} {constant : F} (bound : Bound p rHi rLo constant low)
    {m : ℕ} (left : low.length + (m + 1) = rHi.length + rLo.length) {y : ℕ} (inside : y < 2 ^ m) :
    p.pair y = (lessThan (bitPoint F m y ++ 0 :: low) (rHi ++ rLo) + constant,
      lessThan (bitPoint F m y ++ 1 :: low) (rHi ++ rLo) + constant) := by
  have bits (j : ℕ) (bit : F) (last : bitPoint F (m + 1) j = bitPoint F m y ++ [bit]) :
      bitPoint F m y ++ bit :: low = bitPoint F (m + 1) j ++ low := by
    rw [last, List.append_assoc, List.singleton_append]
  obtain ⟨even, odd⟩ := bitPoint_double (F := F) m y
  rw [bits _ 0 even, bits _ 1 odd]
  have bound2 : 2 * y + 1 < 2 ^ (m + 1) := by rw [pow_succ]; omega
  rw [Bound] at bound
  by_cases split : low.length < rLo.length
  · rw [if_pos split] at bound
    obtain ⟨l, size⟩ := Nat.exists_eq_succ_of_ne_zero (n := rLo.length - low.length) (by omega)
    have total : m + 1 = rHi.length + (l + 1) := by omega
    have positive := Nat.two_pow_pos (l + 1)
    -- The pair is in one block.
    have block : (2 * y + 1) / 2 ^ (l + 1) = 2 * y / 2 ^ (l + 1) := by
      rw [pow_succ, Nat.mul_comm _ 2, ← Nat.div_div_eq_div_mul, ← Nat.div_div_eq_div_mul]
      congr 1
      omega
    have high (j : ℕ) (below : j < 2 ^ (m + 1)) : j / 2 ^ (l + 1) < 2 ^ rHi.length := by
      rw [Nat.div_lt_iff_lt_mul positive, ← pow_add, ← total]
      exact below
    have entry (j : ℕ) (below : j < 2 ^ (m + 1)) : lessThan (bitPoint F (m + 1) j ++ low) (rHi ++ rLo) + constant =
        (tabulated (fun x => lessThan x rHi + constant) [] rHi.length []).getD (j / 2 ^ (l + 1)) 0 +
          (tabulated (equal rHi) [] rHi.length []).getD (j / 2 ^ (l + 1)) 0 *
            (tabulated (fun x => lessThan x rLo) [] (l + 1) low).getD (j % 2 ^ (l + 1)) 0 := by
      rw [getD_tabulated _ _ _ (high j below), getD_tabulated _ _ _ (high j below),
        getD_tabulated _ _ _ (Nat.mod_lt _ positive), bitPoint_mod, total, lessThan_bits _ (by omega)]
      simp only [List.nil_append, List.append_nil]
      ring
    rw [bound, pair, size]
    simp only [length_tabulated, Nat.succ_eq_add_one]
    rw [entry _ bound2, entry _ (by omega), block]
  · rw [if_neg split] at bound
    have size : rHi.length + rLo.length - low.length = m + 1 := by omega
    rw [bound, pair, size]
    rw [getD_tabulated _ _ _ (by omega), getD_tabulated _ _ _ bound2]
    rfl

theorem Bound.finalValue_eq {p : SplitLt F} {rHi rLo low : List F} {constant : F} (bound : Bound p rHi rLo constant low)
    (all : low.length = rHi.length + rLo.length) : p.finalValue = some (lessThan low (rHi ++ rLo) + constant) := by
  rw [Bound, if_neg (by omega), all, Nat.sub_self] at bound
  rw [bound]
  rfl

end SplitLt

end

end JoltWasm
