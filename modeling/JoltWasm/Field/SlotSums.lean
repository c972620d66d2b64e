import Mathlib.Algebra.BigOperators.Fin
import JoltWasm.Field.Accumulator

/-!
# Positional slots count exactly

The slots follow the raw sum of what is added at each position, and the overflow flag says when one of
these sums has reached `2^128`.
-/

namespace JoltWasm

open Lib

namespace Mont

namespace Slots

/-! ## Additions -/

/-- What a list of additions adds to a slot. -/
def total (additions : List (Fin 8 × ℕ)) (k : Fin 8) : ℕ :=
  (additions.map fun addition => if addition.1 = k then addition.2 else 0).sum

/-- The number that raw sums stand for. -/
def number (raw : Fin 8 → ℕ) : ℕ := ∑ k, raw k * limbBase ^ k.val

theorem number_add (raw raw' : Fin 8 → ℕ) : number (raw + raw') = number raw + number raw' := by
  rw [number, number, number, ← Finset.sum_add_distrib]
  exact Finset.sum_congr rfl fun k _ => Nat.add_mul _ _ _

/-- Additions at positions, as one number. -/
theorem number_total (additions : List (Fin 8 × ℕ)) :
    number (total additions) = (additions.map fun addition => addition.2 * limbBase ^ addition.1.val).sum := by
  induction additions with
  | nil => simp [number, total]
  | cons addition additions ih =>
      have split : total (addition :: additions) =
          (fun k => if addition.1 = k then addition.2 else 0) + total additions := rfl
      rw [split, number_add, ih, List.map_cons, List.sum_cons, number]
      congr 1
      rw [Finset.sum_eq_single addition.1 (fun k _ other => by rw [if_neg other.symm, Nat.zero_mul])
        (fun none => absurd (Finset.mem_univ _) none), if_pos rfl]

variable {s other : Slots} {raw raw' : Fin 8 → ℕ}

/-- The slots hold raw sums, up to wrapping, and the flag tells whether one has wrapped. -/
structure Tracks (s : Slots) (raw : Fin 8 → ℕ) : Prop where
  slots : ∀ k, s.slots k = raw k % 2 ^ 128
  overflowed : s.overflowed = true ↔ ∃ k, 2 ^ 128 ≤ raw k

theorem zero_tracks : Tracks zero 0 := ⟨fun _ => rfl, ⟨nofun, fun ⟨_, large⟩ => absurd large (by norm_num)⟩⟩

theorem bump_slots (s : Slots) (j k : Fin 8) (v : ℕ) :
    (s.bump j v).slots k = if j = k then (s.slots k + v) % 2 ^ 128 else s.slots k := by
  change Function.update s.slots j ((s.slots j + v) % 2 ^ 128) k = _
  split_ifs with same
  · rw [← same, Function.update_self]
  · rw [Function.update_of_ne (Ne.symm same)]

theorem bumps_slots (additions : List (Fin 8 × ℕ)) (holds : ∀ k, s.slots k = raw k % 2 ^ 128) (k : Fin 8) :
    (s.bumps additions).slots k = (raw k + total additions k) % 2 ^ 128 := by
  induction additions generalizing s raw with
  | nil => exact holds k
  | cons addition additions ih =>
      obtain ⟨j, v⟩ := addition
      have step : ∀ k, (s.bump j v).slots k = (raw k + if j = k then v else 0) % 2 ^ 128 := fun k => by
        rw [bump_slots, holds]
        split_ifs
        · rw [Nat.mod_add_mod]
        · rw [Nat.add_zero]
      exact (ih step).trans (congrArg (· % 2 ^ 128) (Nat.add_assoc _ _ _))

/-- The flag rises with the first addition that leaves its slot. -/
theorem bumps_overflowed (additions : List (Fin 8 × ℕ)) (small : ∀ k, s.slots k < 2 ^ 128) :
    (s.bumps additions).overflowed = true ↔
      s.overflowed = true ∨ ∃ k, 2 ^ 128 ≤ s.slots k + total additions k := by
  induction additions generalizing s with
  | nil =>
      refine ⟨.inl, fun either => either.resolve_right fun ⟨k, large⟩ => ?_⟩
      exact absurd large (Nat.not_le.mpr (small k))
  | cons addition additions ih =>
      obtain ⟨j, v⟩ := addition
      have small' : ∀ k, (s.bump j v).slots k < 2 ^ 128 := fun k => by
        rw [bump_slots]
        split_ifs
        · exact Nat.mod_lt _ (by norm_num)
        · exact small k
      have total_cons (k : Fin 8) : total ((j, v) :: additions) k = (if j = k then v else 0) + total additions k :=
        rfl
      have flag : (s.bump j v).overflowed = (s.overflowed || decide (2 ^ 128 ≤ s.slots j + v)) := rfl
      change ((s.bump j v).bumps additions).overflowed = true ↔ _
      rw [ih small', flag]
      by_cases leaves : 2 ^ 128 ≤ s.slots j + v
      · refine ⟨fun _ => .inr ⟨j, ?_⟩, fun _ => .inl ?_⟩
        · rw [total_cons, if_pos rfl]
          omega
        · rw [decide_eq_true leaves, Bool.or_true]
      · have exact_ (k : Fin 8) : (s.bump j v).slots k = s.slots k + if j = k then v else 0 := by
          rw [bump_slots]
          split_ifs with same
          · subst same
            exact Nat.mod_eq_of_lt (Nat.not_le.mp leaves)
          · rfl
        rw [decide_eq_false leaves, Bool.or_false]
        simp only [exact_, total_cons, Nat.add_assoc]

theorem Tracks.small (tracks : Tracks s raw) (k : Fin 8) : s.slots k < 2 ^ 128 :=
  tracks.slots k ▸ Nat.mod_lt _ (by norm_num)

theorem Tracks.le (tracks : Tracks s raw) (k : Fin 8) : s.slots k ≤ raw k := tracks.slots k ▸ Nat.mod_le _ _

/-- Two sums of slots: one of them has wrapped, or their sum does. -/
theorem Tracks.overflowed_add (tracks : Tracks s raw) (tracks' : Tracks other raw') :
    (s.overflowed = true ∨ other.overflowed = true) ∨ (∃ k, 2 ^ 128 ≤ s.slots k + other.slots k) ↔
      ∃ k, 2 ^ 128 ≤ raw k + raw' k := by
  rw [tracks.overflowed, tracks'.overflowed]
  constructor
  · rintro ((⟨k, large⟩ | ⟨k, large⟩) | ⟨k, large⟩)
    · exact ⟨k, large.trans (Nat.le_add_right _ _)⟩
    · exact ⟨k, large.trans (Nat.le_add_left _ _)⟩
    · exact ⟨k, large.trans (Nat.add_le_add (tracks.le k) (tracks'.le k))⟩
  · rintro ⟨k, large⟩
    rcases Nat.lt_or_ge (raw k) (2 ^ 128) with fits | wrapped
    · rcases Nat.lt_or_ge (raw' k) (2 ^ 128) with fits' | wrapped
      · exact .inr ⟨k, by rwa [tracks.slots, tracks'.slots, Nat.mod_eq_of_lt fits, Nat.mod_eq_of_lt fits']⟩
      · exact .inl (.inr ⟨k, wrapped⟩)
    · exact .inl (.inl ⟨k, wrapped⟩)

theorem Tracks.bumps (tracks : Tracks s raw) (additions : List (Fin 8 × ℕ)) :
    Tracks (s.bumps additions) (raw + total additions) where
  slots := bumps_slots additions tracks.slots
  overflowed := by
    rw [bumps_overflowed additions tracks.small, tracks.overflowed]
    constructor
    · rintro (⟨k, large⟩ | ⟨k, large⟩)
      · exact ⟨k, large.trans (Nat.le_add_right _ _)⟩
      · exact ⟨k, large.trans (Nat.add_le_add_right (tracks.le k) _)⟩
    · rintro ⟨k, large⟩
      rcases Nat.lt_or_ge (raw k) (2 ^ 128) with fits | wrapped
      · exact .inr ⟨k, by rwa [tracks.slots, Nat.mod_eq_of_lt fits]⟩
      · exact .inl ⟨k, wrapped⟩

theorem Tracks.merge (tracks : Tracks s raw) (tracks' : Tracks other raw') :
    Tracks (s.merge other) (raw + raw') := by
  have all (k : Fin 8) : total ((List.finRange 8).map fun k => (k, other.slots k)) k = other.slots k := by
    rw [total, List.map_map, ← Fin.sum_univ_def]
    exact (Finset.sum_ite_eq' Finset.univ k other.slots).trans (if_pos (Finset.mem_univ k))
  refine ⟨fun k => ?_, ?_⟩
  · refine (bumps_slots (s := { s with overflowed := s.overflowed || other.overflowed }) _ tracks.slots k).trans ?_
    rw [all, tracks'.slots, Nat.add_mod_mod]
    rfl
  · refine (bumps_overflowed (s := { s with overflowed := s.overflowed || other.overflowed }) _
      tracks.small).trans ?_
    simp only [all, Bool.or_eq_true]
    exact tracks.overflowed_add tracks'

/-! ## Limbs as positional sums -/

theorem ofDigits_ofFn {base n : ℕ} (digits : Fin n → ℕ) :
    Nat.ofDigits base (List.ofFn digits) = ∑ k, digits k * base ^ k.val := by
  induction n with
  | zero => simp
  | succ n ih =>
      rw [List.ofFn_succ, Nat.ofDigits_cons, ih, Fin.sum_univ_succ, Finset.mul_sum]
      congr 1
      · simp
      · exact Finset.sum_congr rfl fun k _ => by rw [Fin.val_succ, pow_succ]; ring

theorem toNat_eq_sum {N : ℕ} (a : Limbs N) : a.toNat = ∑ k : Fin N, a.limb k * limbBase ^ k.val := by
  rw [← ofDigits_ofFn, Limbs.toNat]
  congr 1
  refine List.ext_getElem (by rw [a.isLimbs.length, List.length_ofFn]) fun k inside _ => ?_
  rw [List.getElem_ofFn, Limbs.limb, List.getD_eq_getElem?_getD, List.getElem?_eq_getElem inside]
  rfl

theorem limb_lt {N : ℕ} (a : Limbs N) (i : ℕ) : a.limb i < limbBase := by
  rw [a.limb_eq]
  exact Nat.mod_lt _ limbBase_pos

/-- The carry pass over slots of 128 bits. -/
theorem normalize_chain {slots : List ℕ} (small : ∀ slot ∈ slots, slot < 2 ^ 128) {carry : ℕ}
    (start : carry < 2 ^ 65) : Nat.ofDigits limbBase (chain normalizeStep slots [] carry).1 +
        limbBase ^ slots.length * (chain normalizeStep slots [] carry).2 =
      Nat.ofDigits limbBase slots + carry := by
  induction slots generalizing carry with
  | nil => simp [chain]
  | cons slot slots ih =>
      have smallSlot := small slot List.mem_cons_self
      have step : (normalizeStep slot 0 carry).1 + limbBase * (normalizeStep slot 0 carry).2 = slot + carry ∧
          (normalizeStep slot 0 carry).2 < 2 ^ 65 := by
        simp only [normalizeStep, Nat.shiftRight_eq_div_pow, Nat.shiftLeft_eq, limbBase]
        rcases Nat.lt_or_ge (slot + carry) (2 ^ 128) with fits | leaves
        · rw [decide_eq_false (Nat.not_le.mpr fits), Bool.toNat_false]
          omega
        · rw [decide_eq_true leaves, Bool.toNat_true]
          omega
      have rest := ih (fun x member => small x (List.mem_cons_of_mem _ member)) step.2
      have unfolded : chain normalizeStep (slot :: slots) [] carry =
          ((normalizeStep slot 0 carry).1 :: (chain normalizeStep slots [] (normalizeStep slot 0 carry).2).1,
            (chain normalizeStep slots [] (normalizeStep slot 0 carry).2).2) := rfl
      rw [unfolded, Nat.ofDigits_cons, Nat.ofDigits_cons, List.length_cons, pow_succ]
      linear_combination step.1 + limbBase * rest

/-- The carry pass keeps the number, where nine limbs hold it. -/
theorem toNat_normalize (small : ∀ k, s.slots k < 2 ^ 128) (fits : number s.slots < limbBase ^ 9) :
    (normalize s).toNat = number s.slots := by
  have all : ∀ slot ∈ List.ofFn s.slots, slot < 2 ^ 128 := fun slot member => by
    obtain ⟨k, rfl⟩ := (List.mem_ofFn' _ _).mp member
    exact small k
  have carried := normalize_chain all (Nat.two_pow_pos 65)
  rw [List.length_ofFn, ofDigits_ofFn, Nat.add_zero] at carried
  have last : (chain normalizeStep (List.ofFn s.slots) [] 0).2 < limbBase := by
    by_contra large
    have above := Nat.mul_le_mul_left (limbBase ^ 8) (Nat.not_lt.mp large)
    have power : limbBase ^ 9 = limbBase ^ 8 * limbBase := pow_succ limbBase 8
    unfold number at fits
    omega
  rw [normalize, Limbs.toNat_snoc, Nat.mod_eq_of_lt last]
  exact carried

/-! ## Products -/

theorem sum_map_flatMap {α β : Type} (l : List α) (f : α → List β) (g : β → ℕ) :
    ((l.flatMap f).map g).sum = (l.map fun x => ((f x).map g).sum).sum := by
  induction l with
  | nil => rfl
  | cons x l ih => rw [List.flatMap_cons, List.map_append, List.sum_append, ih, List.map_cons, List.sum_cons]

variable (a b : Limbs 4)

/-- A sum over the halves of all limb products. -/
theorem sum_products (g : Fin 8 → ℕ → ℕ) :
    ((products a b).map fun addition => g addition.1 addition.2).sum = ∑ i : Fin 4, ∑ j : Fin 4,
      (g (lowAt i j) (a.limb i * b.limb j % limbBase) + g (highAt i j) ((a.limb i * b.limb j) >>> 64)) := by
  rw [products, sum_map_flatMap, ← Fin.sum_univ_def]
  refine Finset.sum_congr rfl fun i _ => ?_
  rw [sum_map_flatMap, ← Fin.sum_univ_def]
  exact Finset.sum_congr rfl fun j _ => by simp

/-- Both halves of a limb product, at their positions. -/
theorem halves_pow (base x y i j : ℕ) : x * y % base * base ^ (i + j) + x * y / base * base ^ (i + j + 1) =
    x * base ^ i * (y * base ^ j) := by
  rw [pow_succ', ← Nat.mul_assoc, ← Nat.add_mul, Nat.mul_comm _ base, Nat.mod_add_div, pow_add, mul_mul_mul_comm]

theorem low_high_pow (x y : ℕ) (i j : Fin 4) : x * y % limbBase * limbBase ^ (lowAt i j).val +
    (x * y) >>> 64 * limbBase ^ (highAt i j).val = x * limbBase ^ i.val * (y * limbBase ^ j.val) := by
  rw [Nat.shiftRight_eq_div_pow, lowAt, highAt]
  exact halves_pow limbBase x y i.val j.val

theorem number_products : number (total (products a b)) = a.toNat * b.toNat := by
  rw [number_total, sum_products a b fun k v => v * limbBase ^ k.val, toNat_eq_sum, toNat_eq_sum,
    Finset.sum_mul_sum]
  refine Finset.sum_congr rfl fun i _ => Finset.sum_congr rfl fun j _ => ?_
  rw [low_high_pow]

theorem number_limbs : number (total ((List.finRange 4).map fun i : Fin 4 => (upperAt i, a.limb i))) =
    a.toNat * limbBase ^ 4 := by
  rw [number_total, List.map_map, ← Fin.sum_univ_def, toNat_eq_sum, Finset.sum_mul]
  refine Finset.sum_congr rfl fun i _ => ?_
  have position : (upperAt i).val = i.val + 4 := rfl
  rw [Function.comp_apply, position, pow_add, mul_assoc]

/-- Bounds of what one call adds to the slots. -/
structure Bounded (t : Fin 8 → ℕ) : Prop where
  all : ∀ k, t k ≤ 7 * 2 ^ 64
  first : t 0 ≤ 2 ^ 64
  last : t 7 ≤ 2 ^ 62

variable {a b}

theorem half_lt (i j : ℕ) : a.limb i * b.limb j % limbBase ≤ 2 ^ 64 ∧ (a.limb i * b.limb j) >>> 64 ≤ 2 ^ 64 := by
  have product := Nat.mul_lt_mul'' (limb_lt a i) (limb_lt b j)
  rw [Nat.shiftRight_eq_div_pow]
  simp only [limbBase] at product ⊢
  omega

/-- The number of halves that a slot receives from a product. -/
def halfCount (k : Fin 8) : ℕ := ∑ i : Fin 4, ∑ j : Fin 4,
  ((if lowAt i j = k then 1 else 0) + if highAt i j = k then 1 else 0)

theorem halfCount_le : (∀ k, halfCount k ≤ 7) ∧ halfCount 0 = 1 := by decide

theorem total_products_le (k : Fin 8) : total (products a b) k ≤ halfCount k * 2 ^ 64 := by
  rw [total, sum_products a b fun j v => if j = k then v else 0, halfCount, Finset.sum_mul]
  refine Finset.sum_le_sum fun i _ => ?_
  rw [Finset.sum_mul]
  refine Finset.sum_le_sum fun j _ => ?_
  obtain ⟨low, high⟩ := half_lt (a := a) (b := b) i j
  rw [Nat.add_mul]
  exact Nat.add_le_add (by split_ifs <;> omega) (by split_ifs <;> omega)

theorem products_bounded (top : a.limb 3 < 2 ^ 62) : Bounded (total (products a b)) where
  all k := (total_products_le k).trans (Nat.mul_le_mul_right _ (halfCount_le.1 k))
  first := by
    have le := total_products_le (a := a) (b := b) 0
    rwa [halfCount_le.2, Nat.one_mul] at le
  last := by
    have only : total (products a b) 7 = (a.limb 3 * b.limb 3) >>> 64 := by
      have others : ∀ i j : Fin 4, i ≠ 3 ∨ j ≠ 3 → lowAt i j ≠ 7 ∧ highAt i j ≠ 7 := by decide
      have lowest : lowAt 3 3 ≠ 7 ∧ highAt 3 3 = 7 := by decide
      rw [total, sum_products a b fun j v => if j = 7 then v else 0, Finset.sum_eq_single 3, Finset.sum_eq_single 3]
      · rw [if_neg lowest.1, if_pos lowest.2, Nat.zero_add]
        rfl
      · intro j _ other
        rw [if_neg (others 3 j (.inr other)).1, if_neg (others 3 j (.inr other)).2, Nat.add_zero]
      · exact fun none => absurd (Finset.mem_univ _) none
      · intro i _ other
        refine Finset.sum_eq_zero fun j _ => ?_
        rw [if_neg (others i j (.inl other)).1, if_neg (others i j (.inl other)).2, Nat.add_zero]
      · exact fun none => absurd (Finset.mem_univ _) none
    have product := Nat.mul_lt_mul'' top (limb_lt b 3)
    rw [only, Nat.shiftRight_eq_div_pow]
    simp only [limbBase] at product
    omega

theorem limbs_bounded (top : a.limb 3 < 2 ^ 62) :
    Bounded (total ((List.finRange 4).map fun i : Fin 4 => (upperAt i, a.limb i))) := by
  have value (k : Fin 8) : total ((List.finRange 4).map fun i : Fin 4 => (upperAt i, a.limb i)) k =
      ∑ i : Fin 4, if upperAt i = k then a.limb i else 0 := by
    rw [total, List.map_map, ← Fin.sum_univ_def]
    rfl
  have small (k : Fin 8) : (∑ i : Fin 4, if upperAt i = k then a.limb i else 0) ≤ 4 * 2 ^ 64 := by
    refine (Finset.sum_le_card_nsmul _ _ (2 ^ 64) fun i _ => ?_).trans (by simp)
    have := limb_lt a i
    simp only [limbBase] at this
    split_ifs <;> omega
  refine ⟨fun k => ?_, ?_, ?_⟩
  · rw [value]
    exact (small k).trans (by norm_num)
  · rw [value, Fin.sum_univ_four, if_neg (by decide), if_neg (by decide), if_neg (by decide),
      if_neg (by decide)]
    norm_num
  · rw [value, Fin.sum_univ_four, if_neg (by decide), if_neg (by decide), if_neg (by decide),
      if_pos (by decide), Nat.zero_add]
    exact top.le

end Slots

end Mont

end JoltWasm
