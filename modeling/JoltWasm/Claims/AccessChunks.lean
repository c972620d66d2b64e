import JoltWasm.Claims.OneHotArgument
import JoltWasm.Lib.Carry

/-!
# Virtual accesses

A virtual column is the product of its committed chunks.  The relation that says so holds at every point exactly
when each entry of the virtual column is the product of the entries at the digits of its place; over one-hot chunks
that is a column hot at the place that the chunks join to, if there is one.
-/

namespace JoltWasm

open Lib Finset

/-! ## The digits of a place -/

theorem chunkDigit_succ {count bits i : ℕ} (inside : i < count) (k : ℕ) :
    chunkDigit (count + 1) bits i k = chunkDigit count bits i (k / 2 ^ bits) := by
  have shift : (count + 1 - 1 - i) * bits = bits + (count - 1 - i) * bits := by
    have step : count + 1 - 1 - i = (count - 1 - i) + 1 := by omega
    rw [step, Nat.succ_mul, Nat.add_comm]
  rw [chunkDigit, chunkDigit, shift, pow_add, Nat.div_div_eq_div_mul]

theorem chunkDigit_last (count bits k : ℕ) : chunkDigit (count + 1) bits count k = k % 2 ^ bits := by
  rw [chunkDigit, Nat.add_sub_cancel, Nat.sub_self, Nat.zero_mul, pow_zero, Nat.div_one]

/-- The place with the given digits, the most significant first. -/
def joinChunks (bits : ℕ) (digits : List (Option ℕ)) : Option ℕ :=
  digits.foldl (fun place digit => do return (← place) * 2 ^ bits + (← digit)) (some 0)

theorem joinChunks_eq_some {bits count : ℕ} {digits : ℕ → Option ℕ} (small : ∀ i < count, ∀ v ∈ digits i, v < 2 ^ bits) {k : ℕ} :
    joinChunks bits ((List.range count).map digits) = some k ↔
      k < 2 ^ (count * bits) ∧ ∀ i < count, digits i = some (chunkDigit count bits i k) := by
  induction count generalizing k with
  | zero =>
      rw [Nat.zero_mul, pow_zero, Nat.lt_one_iff]
      exact ⟨fun same => ⟨(Option.some.inj same).symm, nofun⟩, fun ⟨zero, _⟩ => congrArg some zero.symm⟩
  | succ count ih =>
      have before : ∀ i < count, ∀ v ∈ digits i, v < 2 ^ bits := fun i inside => small i (inside.trans (Nat.lt_succ_self count))
      have step : joinChunks bits ((List.range (count + 1)).map digits) = some k ↔
          ∃ high, joinChunks bits ((List.range count).map digits) = some high ∧ ∃ low, digits count = some low ∧
            high * 2 ^ bits + low = k := by
        rw [List.range_succ, List.map_append, joinChunks, List.foldl_append]
        simp only [List.map_cons, List.map_nil, List.foldl_cons, List.foldl_nil, Option.bind_eq_bind,
          Option.bind_eq_some_iff, Option.pure_def, Option.some_inj, joinChunks]
      have room : 2 ^ ((count + 1) * bits) = 2 ^ (count * bits) * 2 ^ bits := by rw [Nat.succ_mul, pow_add]
      rw [step, room]
      constructor
      · rintro ⟨high, joined, low, last, rfl⟩
        have less := small count (Nat.lt_succ_self count) low last
        obtain ⟨below, same⟩ := (ih before).mp joined
        have quotient : (high * 2 ^ bits + low) / 2 ^ bits = high := by
          rw [Nat.mul_comm, Nat.mul_add_div (Nat.two_pow_pos _), Nat.div_eq_of_lt less, Nat.add_zero]
        have remainder : (high * 2 ^ bits + low) % 2 ^ bits = low := by
          rw [Nat.mul_comm, Nat.mul_add_mod, Nat.mod_eq_of_lt less]
        refine ⟨?_, fun i inside => ?_⟩
        · calc high * 2 ^ bits + low < (high + 1) * 2 ^ bits := by rw [Nat.succ_mul]; omega
            _ ≤ 2 ^ (count * bits) * 2 ^ bits := Nat.mul_le_mul_right _ below
        · rcases Nat.lt_succ_iff_lt_or_eq.mp inside with earlier | rfl
          · rw [chunkDigit_succ earlier, quotient, same i earlier]
          · rw [chunkDigit_last, remainder, last]
      · rintro ⟨below, same⟩
        refine ⟨k / 2 ^ bits, (ih before).mpr ⟨Nat.div_lt_of_lt_mul (by rwa [Nat.mul_comm]), fun i inside => ?_⟩, k % 2 ^ bits, ?_,
          Nat.div_add_mod' k _⟩
        · rw [same i (inside.trans (Nat.lt_succ_self count)), chunkDigit_succ inside]
        · rw [same count (Nat.lt_succ_self count), chunkDigit_last]

/-- The place of an access below the size of its domain. -/
def accessedPlace (width bits : ℕ) (digits : ℕ → Option ℕ) : Option ℕ :=
  (joinChunks bits ((List.range (chunkCount width bits)).map digits)).filter (· < 2 ^ width)

theorem width_le_chunks {bits : ℕ} (positive : 0 < bits) (width : ℕ) : width ≤ chunkCount width bits * bits := by
  have := Nat.div_add_mod' (width + bits - 1) bits
  have := Nat.mod_lt (width + bits - 1) positive
  rw [chunkCount]
  omega

theorem accessedPlace_eq_some {width bits : ℕ} (positive : 0 < bits) {digits : ℕ → Option ℕ}
    (small : ∀ i < chunkCount width bits, ∀ v ∈ digits i, v < 2 ^ bits) {k : ℕ} :
    accessedPlace width bits digits = some k ↔
      k < 2 ^ width ∧ ∀ i < chunkCount width bits, digits i = some (chunkDigit (chunkCount width bits) bits i k) := by
  rw [accessedPlace, Option.filter_eq_some_iff, joinChunks_eq_some small, decide_eq_true_iff]
  constructor
  · rintro ⟨⟨-, same⟩, inside⟩
    exact ⟨inside, same⟩
  · rintro ⟨inside, same⟩
    exact ⟨⟨inside.trans_le (Nat.pow_le_pow_right two_pos (width_le_chunks positive width)), same⟩, inside⟩

/-! ## Products of extensions -/

section

variable {F : Type} [Field F]

/-- The chunks of a point with a column each make up one column. -/
theorem prod_extension_chunks (bits : ℕ) (columns : ℕ → ℕ → F) {count : ℕ} {point : List F} (length : point.length = count * bits) :
    ∏ i ∈ range count, extension (columns i) ((point.drop (i * bits)).take bits) =
      extension (fun k => ∏ i ∈ range count, columns i (chunkDigit count bits i k)) point := by
  induction count generalizing point with
  | zero => rw [prod_range_zero, ← extension_one point]; simp only [prod_range_zero]
  | succ count ih =>
      rw [Nat.succ_mul] at length
      have high : (point.take (count * bits)).length = count * bits := by
        rw [List.length_take]
        omega
      have low : (point.drop (count * bits)).length = bits := by
        rw [List.length_drop]
        omega
      have earlier : ∀ i ∈ range count, extension (columns i) ((point.drop (i * bits)).take bits) =
          extension (columns i) (((point.take (count * bits)).drop (i * bits)).take bits) := by
        intro i member
        have room : (i + 1) * bits ≤ count * bits := Nat.mul_le_mul_right _ (mem_range.mp member)
        rw [Nat.succ_mul] at room
        rw [List.drop_take, List.take_take, Nat.min_eq_left (by omega)]
      have split (k : ℕ) : ∏ i ∈ range (count + 1), columns i (chunkDigit (count + 1) bits i k) =
          (∏ i ∈ range count, columns i (chunkDigit count bits i (k / 2 ^ bits))) * columns count (k % 2 ^ bits) := by
        rw [prod_range_succ, chunkDigit_last]
        exact congrArg (· * _) (prod_congr rfl fun i member => by rw [chunkDigit_succ (mem_range.mp member)])
      rw [prod_range_succ, prod_congr rfl earlier, ih high, List.take_of_length_le low.le]
      simp only [split]
      conv_rhs => rw [← List.take_append_drop (count * bits) point]
      refine Eq.trans ?_ (extension_gridColumn (fun a b => (∏ i ∈ range count, columns i (chunkDigit count bits i a)) *
        columns count b) _ low).symm
      simp only [extension_mul]
      rw [mul_comm, ← extension_mul]
      exact extension_congr fun a _ => mul_comm _ _

/-- The chunks of an address with a column each make up a column over the places. -/
theorem prod_extension_chunkPoint {bits : ℕ} (positive : 0 < bits) (columns : ℕ → ℕ → F) (address : List F) :
    ∏ i ∈ range (chunkCount address.length bits), extension (columns i) (chunkPoint address bits i) =
      extension (fun k => ∏ i ∈ range (chunkCount address.length bits),
        columns i (chunkDigit (chunkCount address.length bits) bits i k)) address := by
  have padded := prod_extension_chunks bits columns (length_paddedAddress address positive)
  refine Eq.trans padded ?_
  rw [paddedAddress, extension_zeros]
  rfl

end

namespace Stages.OneHotColumns

open VerifierStop

variable {F : Type} [Field F] (columns : OneHotColumns F)

/-- The product of the chunks' entries at the digits of a place. -/
def chunkProduct (make : ℕ → JoltRaPolynomial) (width bits k j : ℕ) : F :=
  ∏ i ∈ range (chunkCount width bits), columns.ra (make i) (chunkDigit (chunkCount width bits) bits i k) j

variable {columns}

/-- The products of the chunks' openings over the cycles. -/
theorem cubeSum_chunks (make : ℕ → JoltRaPolynomial) {bits width logT : ℕ} (positive : 0 < bits) {address cycle : List F}
    (wide : address.length = width) (length : cycle.length = logT) :
    (cubeSum logT fun c => eqMle cycle c *
      ∏ i ∈ range (chunkCount width bits), columns.polys logT (make i) (chunkPoint address bits i ++ c)) =
      extension (gridColumn logT (columns.chunkProduct make width bits)) (address ++ cycle) := by
  subst wide
  have weights : ∀ j < 2 ^ logT, eqMle cycle (bitPoint F logT j) = eqWeight cycle j := fun j inside => by
    rw [eqMle_eq (length.trans (length_bitPoint _ _).symm), extension_bitPoint _ inside]
  rw [cubeSum_weights length weights, extension_gridColumn_swap _ _ length]
  refine extension_congr fun j inside => ?_
  rw [length] at inside
  simp only [polys, extension_gridColumn_corner _ _ inside]
  exact prod_extension_chunkPoint positive (fun i d => columns.ra (make i) d j) address

theorem firstOpeningEqCycle_chunks (stage : JoltRelationId) (empty short : String) {bits : ℕ} (positive : 0 < bits)
    {address fixedCycle cycle : List F} (some_ : 0 < address.length) (length : fixedCycle.length = cycle.length) :
    firstOpeningEqCycle stage empty short fixedCycle.length fixedCycle (chunkOpeningPoints address bits cycle) =
      .ok (eqMle fixedCycle cycle) := by
  obtain ⟨more, count⟩ : ∃ more, (address.length + bits - 1) / bits = more + 1 :=
    ⟨_, (Nat.succ_pred_eq_of_pos (Nat.div_pos (by omega) positive)).symm⟩
  have first : (chunkOpeningPoints address bits cycle).head? = some (chunkPoint address bits 0 ++ cycle) := by
    rw [chunkOpeningPoints, committedAddressChunks_eq address positive, count, List.range_succ_eq_map]
    rfl
  have drop : (chunkPoint address bits 0 ++ cycle).drop ((chunkPoint address bits 0 ++ cycle).length - fixedCycle.length) = cycle := by
    rw [List.length_append, length, Nat.add_sub_cancel, List.drop_left]
  have long : ¬(chunkPoint address bits 0 ++ cycle).length < fixedCycle.length := by
    rw [List.length_append, length]
    omega
  rw [firstOpeningEqCycle, first]
  simp only [if_neg long, drop]
  exact eqTerm_eq _ length

theorem chunkOpeningPoints_getD {bits i : ℕ} (positive : 0 < bits) (address cycle : List F)
    (inside : i < chunkCount address.length bits) :
    (chunkOpeningPoints address bits cycle).getD i [] = chunkPoint address bits i ++ cycle := by
  have inside' : i < (List.range ((address.length + bits - 1) / bits)).length := by rwa [List.length_range]
  rw [chunkOpeningPoints, committedAddressChunks_eq address positive, List.map_map,
    List.getD_eq_getElem _ _ (by rwa [List.length_map]), List.getElem_map, List.getElem_range]
  rfl

/-! ## The RAM -/

theorem ramRaVirtualization_sumsTo {bits logK logT : ℕ} (positive : 0 < bits) (some_ : 0 < logK) {address cycle : List F}
    (width : address.length = logK) (length : cycle.length = logT) :
    SumsTo logT (RamRaVirtualization.summand ⟨⟨logT, chunkCount logK bits⟩, address, cycle, bits⟩ fun i => columns.polys logT (.ram i))
      (extension (gridColumn logT (columns.chunkProduct .ram logK bits)) (address ++ cycle)) := by
  subst width length
  rw [← cubeSum_chunks .ram positive rfl rfl]
  refine sumsTo_reversed fun x drawn => except_bind_eq_ok.mpr
    ⟨_, firstOpeningEqCycle_chunks _ _ _ positive some_ (by rw [List.length_reverse, drawn]), congrArg Except.ok ?_⟩
  refine congrArg (eqMle cycle x.reverse * ·) ?_
  exact prod_congr rfl fun i member => congrArg (columns.polys cycle.length (.ram i))
    (chunkOpeningPoints_getD positive address x.reverse (mem_range.mp member))

theorem ramRaVirtualization_iff {bits logK logT : ℕ} (positive : 0 < bits) (some_ : 0 < logK) (ramRa : ℕ → ℕ → F) :
    (∀ address cycle : List F, address.length = logK → cycle.length = logT →
      SumsTo logT (RamRaVirtualization.summand ⟨⟨logT, chunkCount logK bits⟩, address, cycle, bits⟩ fun i => columns.polys logT (.ram i))
        (RamRaVirtualization.inputExpression (extension (gridColumn logT ramRa) (address ++ cycle)))) ↔
      ∀ k < 2 ^ logK, ∀ j < 2 ^ logT, ramRa k j = columns.chunkProduct .ram logK bits k j := by
  rw [← forall_grid_eq_iff]
  refine forall_congr' fun address => forall_congr' fun cycle => forall_congr' fun width => forall_congr' fun length => ?_
  exact (ramRaVirtualization_sumsTo positive some_ width length).iff _

/-- Over one-hot chunks the product is hot at the place that the chunks join to. -/
theorem chunkProduct_hot {make : ℕ → JoltRaPolynomial} {width bits j : ℕ} {digits : ℕ → Option ℕ} (positive : 0 < bits)
    (hot : ∀ i < chunkCount width bits, HotColumn (2 ^ bits) (fun k => columns.ra (make i) k j) (digits i)) :
    HotColumn (2 ^ width) (fun k => columns.chunkProduct make width bits k j) (accessedPlace width bits digits) := by
  have small : ∀ i < chunkCount width bits, ∀ v ∈ digits i, v < 2 ^ bits := fun i inside => (hot i inside).inside
  refine ⟨fun k here => ((accessedPlace_eq_some positive small).mp here).1, fun k inside => ?_⟩
  have entry {i : ℕ} (member : i ∈ range (chunkCount width bits)) :=
    (hot i (mem_range.mp member)).entry _ (chunkDigit_lt (chunkCount width bits) bits i k)
  split_ifs with here
  · exact prod_eq_one fun i member => by
      rw [entry member, if_pos (((accessedPlace_eq_some positive small).mp here).2 i (mem_range.mp member))]
  · have differs : ¬ ∀ i < chunkCount width bits, digits i = some (chunkDigit (chunkCount width bits) bits i k) :=
      fun all => here ((accessedPlace_eq_some positive small).mpr ⟨inside, all⟩)
    simp only [not_forall] at differs
    obtain ⟨i, listed, other⟩ := differs
    refine prod_eq_zero (mem_range.mpr listed) ?_
    rw [entry (mem_range.mpr listed), if_neg other]

end Stages.OneHotColumns

end JoltWasm
