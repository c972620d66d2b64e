import JoltWasm.Lib.Columns

/-!
# One-hot grids

Each cycle is hot at one address, or cold.  The grid of addresses by cycles has a one where a cycle is hot, and
folding its addresses leaves the weight of the hot address at each cycle.  Columns of bits that add up to a bit
are such columns.
-/

namespace JoltWasm.Lib

open Finset

variable {F : Type*} [Field F]

/-- The entry of an address and a cycle. -/
def hotEntry (hot : ℕ → Option ℕ) (cycle address : ℕ) : F := if hot cycle = some address then 1 else 0

/-- The grid of addresses by cycles. -/
def hotGrid (logT : ℕ) (hot : ℕ → Option ℕ) (place : ℕ) : F := hotEntry hot (place % 2 ^ logT) (place / 2 ^ logT)

/-- The grid, folded over the addresses. -/
def hotAt (point : List F) (hot : ℕ → Option ℕ) (cycle : ℕ) : F :=
  ∑ k ∈ range (2 ^ point.length), eqWeight point k * hotEntry hot cycle k

theorem extension_hotAt {logT : ℕ} (high : List F) (hot : ℕ → Option ℕ) {point : List F} (length : point.length = logT) :
    extension (hotAt high hot) point = extension (hotGrid logT hot) (high ++ point) := by
  rw [extension_append_eq_sum, sum_comm, extension, length]
  refine sum_congr rfl fun j member => ?_
  have inside := mem_range.mp member
  rw [hotAt, sum_mul]
  refine sum_congr rfl fun k _ => ?_
  rw [hotGrid, Nat.mul_comm k, Nat.mul_add_mod, Nat.mod_eq_of_lt inside, Nat.mul_add_div (Nat.two_pow_pos _),
    Nat.div_eq_of_lt inside, Nat.add_zero]
  ring

theorem hotAt_cold (point : List F) {hot : ℕ → Option ℕ} {cycle : ℕ} (cold : hot cycle = none) : hotAt point hot cycle = 0 := by
  simp [hotAt, hotEntry, cold]

theorem hotAt_hot {point : List F} {hot : ℕ → Option ℕ} {cycle address : ℕ} (here : hot cycle = some address)
    (inside : address < 2 ^ point.length) : hotAt point hot cycle = eqWeight point address := by
  simp only [hotAt, hotEntry, here, Option.some_inj, mul_ite, mul_one, mul_zero]
  rw [sum_ite_eq, if_pos (mem_range.mpr inside)]

/-! ## Columns of bits -/

/-- The column is one at the hot place and zero elsewhere. -/
structure HotColumn (n : ℕ) (column : ℕ → F) (hot : Option ℕ) : Prop where
  inside : ∀ k ∈ hot, k < n
  entry : ∀ k < n, column k = if hot = some k then 1 else 0

theorem HotColumn.sum {n : ℕ} {column : ℕ → F} {hot : Option ℕ} (column_ : HotColumn n column hot) (value : ℕ → F) :
    ∑ k ∈ range n, column k * value k = hot.elim 0 value := by
  rw [sum_congr rfl fun k member => by rw [column_.entry k (mem_range.mp member)]]
  cases place : hot with
  | none => exact sum_eq_zero fun k _ => zero_mul _
  | some k =>
      refine (sum_eq_single_of_mem k (mem_range.mpr (column_.inside k place)) fun j _ other => ?_).trans ?_
      · rw [if_neg fun same => other (Option.some.inj same).symm, zero_mul]
      · rw [if_pos rfl, one_mul, Option.elim_some]

theorem HotColumn.congr {n : ℕ} {column other : ℕ → F} {hot : Option ℕ} (column_ : HotColumn n column hot)
    (same : ∀ k < n, other k = column k) : HotColumn n other hot :=
  ⟨column_.inside, fun k small => (same k small).trans (column_.entry k small)⟩

/-- Values by place and cycle, weighted by a point of the cycles: only those at the hot places remain. -/
theorem sum_placed {m n : ℕ} {product : ℕ → ℕ → F} {place : ℕ → Option ℕ}
    (hot : ∀ j < 2 ^ n, HotColumn m (fun k => product k j) (place j)) (value : ℕ → ℕ → F) {point : List F}
    (length : point.length = n) :
    ∑ k ∈ range m, ∑ j ∈ range (2 ^ n), value k j * eqWeight point j * product k j =
      extension (fun j => (place j).elim 0 fun k => value k j) point := by
  rw [sum_comm, extension, length]
  refine sum_congr rfl fun j member => ?_
  rw [← (hot j (mem_range.mp member)).sum fun k => value k j, sum_mul]
  exact sum_congr rfl fun k _ => by ring

/-- Bits that add up to a bit have at most one among them. -/
theorem exists_hotColumn {n : ℕ} (apart : Apart F (n + 1)) {column : ℕ → F}
    (bits : ∀ k < n, column k * column k = column k) {total : F} (sum : ∑ k ∈ range n, column k = total)
    (bit : total * total = total) : ∃ hot, HotColumn n column hot ∧ total = if hot.isSome then 1 else 0 := by
  classical
  have values (k : ℕ) (small : k < n) : column k = 0 ∨ column k = 1 := IsIdempotentElem.iff_eq_zero_or_one.mp (bits k small)
  let ones := (range n).filter fun k => column k = 1
  have count : (ones.card : F) = total := by
    rw [← sum, card_filter, Nat.cast_sum]
    refine sum_congr rfl fun k member => ?_
    rcases values k (mem_range.mp member) with zero | one
    · rw [zero, if_neg zero_ne_one, Nat.cast_zero]
    · rw [one, if_pos rfl, Nat.cast_one]
  have few : ones.card < n + 1 := Nat.lt_succ_of_le ((card_filter_le _ _).trans_eq (card_range n))
  rcases IsIdempotentElem.iff_eq_zero_or_one.mp bit with zero | one
  · have none_ : ones.card = 0 := apart _ few 0 (by omega) (by rw [count, zero, Nat.cast_zero])
    refine ⟨none, ⟨nofun, fun k small => ?_⟩, zero⟩
    rcases values k small with cold | hot
    · exact cold
    · have member : k ∈ ones := mem_filter.mpr ⟨mem_range.mpr small, hot⟩
      rw [card_eq_zero.mp none_] at member
      exact absurd member (notMem_empty k)
  · have positive : 0 < n := by
      by_contra empty
      obtain rfl : n = 0 := by omega
      rw [range_zero, sum_empty] at sum
      exact zero_ne_one (sum.trans one)
    have single : ones.card = 1 := apart _ few 1 (by omega) (by rw [count, one, Nat.cast_one])
    obtain ⟨k, only⟩ := card_eq_one.mp single
    have here : k ∈ ones := only ▸ mem_singleton_self k
    refine ⟨some k, ⟨fun _ same => Option.some.inj same ▸ mem_range.mp (mem_filter.mp here).1, fun j small => ?_⟩, one⟩
    by_cases same : j = k
    · rw [same, if_pos rfl, (mem_filter.mp here).2]
    · rw [if_neg fun equal => same (Option.some.inj equal).symm]
      rcases values j small with cold | hot
      · exact cold
      · have member : j ∈ ones := mem_filter.mpr ⟨mem_range.mpr small, hot⟩
        exact absurd (mem_singleton.mp (only ▸ member)) same

end JoltWasm.Lib
