import JoltWasm.Tables.Decomposition

/-!
# Combining prefixes and suffixes over the phases

The checkpoints and the bound tables are the prefix polynomials at the challenges; together with the
suffixes of the unbound bits they are the table's extension.
-/

namespace JoltWasm

open Lib

variable {F : Type} [CommRing F]

/-! ## Bound prefixes -/

section

variable {n : ℕ} (positive : 0 < n) (divides : 2 * n ∣ 128)

include positive divides

/-- The table of a prefix in a phase holds its polynomial. -/
theorem prefixTable_eq {r : List F} {j : ℕ} (inside : (j + 1) * (2 * n) ≤ 128)
    (bound : r.length = j * (2 * n)) {checkpoints : Prefixes → F}
    (holds : ∀ q : Prefixes, r = [] ∨ q.Aligned (2 * n) →
      checkpoints q = q.prefixMle (128 - j * (2 * n)) r) {p : Prefixes} (aligned : p.Aligned (2 * n))
    {x : ℕ} (hx : x < 2 ^ (2 * n)) :
    prefixTable (2 * n) (suffixLenOf (2 * n) j) checkpoints p x =
      p.prefixMle (128 - (j + 1) * (2 * n)) (r ++ bitPoint F (2 * n) x) := by
  have size : 2 * n ≤ 128 := Nat.le_of_dvd (by norm_num) divides
  have next : (j + 1) * (2 * n) = j * (2 * n) + 2 * n := by ring
  obtain ⟨m, hm⟩ : ∃ m, 128 - (j + 1) * (2 * n) = 2 * m := by
    obtain ⟨c, hc⟩ := Nat.dvd_sub divides (Dvd.intro_left (j + 1) rfl)
    exact ⟨n * c, by rw [hc]; ring⟩
  have value : (BitVec.ofNat 128 x).toNat = x := by
    have room : 2 ^ (2 * n) ≤ 2 ^ 128 := Nat.pow_le_pow_right two_pos size
    rw [BitVec.toNat_ofNat, Nat.mod_eq_of_lt (by omega)]
  have suffix : suffixLenOf (2 * n) j = 2 * m := hm
  have remaining : 128 - j * (2 * n) = 2 * m + 2 * n := by omega
  have step := evaluate_eq (r := r) (m := m) (v := BitVec.ofNat 128 x) (by omega) positive
    (by rwa [value]) divides (by rw [bound]; exact Dvd.intro_left j rfl)
    (by rwa [remaining] at holds) aligned
  rw [prefixTable, suffix, step, hm, value]

/-- The checkpoints are the polynomials at the challenges of the phases before. -/
theorem checkpointsAt_eq (r : List F) {j : ℕ} (inside : j * (2 * n) ≤ 128)
    (bound : j * (2 * n) ≤ r.length) {p : Prefixes} (aligned : j = 0 ∨ p.Aligned (2 * n)) :
    checkpointsAt (2 * n) r j p = p.prefixMle (128 - j * (2 * n)) (r.take (j * (2 * n))) := by
  induction j generalizing p with
  | zero =>
    rw [Nat.zero_mul, List.take_zero]
    exact p.defaultCheckpoint_eq
  | succ j ih =>
    have next : (j + 1) * (2 * n) = j * (2 * n) + 2 * n := by ring
    have aligned := aligned.resolve_left (by omega)
    have before : (r.take (j * (2 * n))).length = j * (2 * n) := by
      rw [List.length_take]
      omega
    have challenges : ((r.drop (j * (2 * n))).take (2 * n)).length = 2 * n := by
      rw [List.length_take, List.length_drop]
      omega
    have table := bindAll_eq (n := 2 * n) (i := 0)
      ((p.prefixMle_multilinear (128 - (j + 1) * (2 * n))).append_left (r.take (j * (2 * n))))
      (prefixTable (2 * n) (suffixLenOf (2 * n) j) (checkpointsAt (2 * n) r j) p)
      ((r.drop (j * (2 * n))).take (2 * n))
      (fun i hi => prefixTable_eq positive divides inside before (fun q hq => by
        refine ih (by omega) (by omega) (hq.imp_left fun empty => ?_)
        have none := List.length_eq_zero_iff.mpr empty
        rw [before] at none
        exact (Nat.mul_eq_zero.mp none).resolve_right (by omega)) aligned hi)
      challenges.le (Nat.two_pow_pos _)
    change bindAll _ _ _ _ = _
    rw [table, challenges, Nat.sub_self, bitPoint, List.append_nil, next,
      List.take_add]

/-- A bound table is the polynomial at the challenges so far and the remaining bits. -/
theorem boundPrefix_eq {r : List F} {j k : ℕ} (inside : (j + 1) * (2 * n) ≤ 128) (rounds : k ≤ 2 * n)
    (bound : r.length = j * (2 * n) + k) {b : ℕ} (hb : b < 2 ^ (2 * n - k)) {p : Prefixes}
    (aligned : p.Aligned (2 * n)) :
    boundPrefix (2 * n) r j b p =
      p.prefixMle (128 - (j + 1) * (2 * n)) (r ++ bitPoint F (2 * n - k) b) := by
  have next : (j + 1) * (2 * n) = j * (2 * n) + 2 * n := by ring
  have before : (r.take (j * (2 * n))).length = j * (2 * n) := by
    rw [List.length_take]
    omega
  have challenges : (r.drop (j * (2 * n))).length = k := by
    rw [List.length_drop]
    omega
  have table := bindAll_eq (n := 2 * n) (i := b)
    ((p.prefixMle_multilinear (128 - (j + 1) * (2 * n))).append_left (r.take (j * (2 * n))))
    (prefixTable (2 * n) (suffixLenOf (2 * n) j) (checkpointsAt (2 * n) r j) p)
    (r.drop (j * (2 * n)))
    (fun i hi => prefixTable_eq positive divides inside before (fun q hq =>
      checkpointsAt_eq positive divides r (by omega) (by omega) (hq.imp_left fun empty => by
        have none := List.length_eq_zero_iff.mpr empty
        rw [before] at none
        exact (Nat.mul_eq_zero.mp none).resolve_right (by omega))) aligned hi)
    (by omega) (by rwa [challenges])
  rw [boundPrefix, table, challenges, ← List.append_assoc, List.take_append_drop]

end

/-! ## Suffixes -/

/-- Indices inside a table's domain. -/
def WasmTable.InDomain (t : WasmTable) (index : U128) : Prop :=
  match t with
  | .srl | .sra | .rotr => IsRightShiftBitmask (uninterleaveBits index).2
  | _ => True

/-- A mask's low bits are a mask. -/
theorem exists_mask {y : U64} (mask : IsRightShiftBitmask y) {m : ℕ} (bound : m ≤ 64) :
    ∃ s k, s + k = m ∧ ∀ i < s + k, y.getLsbD i = decide (s ≤ i) := by
  obtain ⟨s, small, rfl⟩ := mask
  refine ⟨min s m, m - min s m, by omega, ?_⟩
  intro i hi
  rw [getLsbD_shiftRightBitmask small, decide_eq_true (show i < 64 by omega), Bool.and_true,
    decide_eq_decide]
  omega

section

variable {m s k : ℕ} {y : U64} (size : s + k = m) (bound : m < 64) (short : y.toNat < 2 ^ m)
  (mask : ∀ i < s + k, y.getLsbD i = decide (s ≤ i))

include size short mask

/-- A mask of `m` bits. -/
theorem getLsbD_mask (i : ℕ) : y.getLsbD i = (decide (s ≤ i) && decide (i < m)) := by
  by_cases inside : i < m
  · rw [decide_eq_true inside, Bool.and_true]
    exact mask i (by omega)
  · rw [decide_eq_false inside, Bool.and_false]
    exact getLsbD_of_short y short (by omega)

/-- The trailing zeros of a mask, up to its length. -/
theorem min_ctz_mask {w : ℕ} (wide : m ≤ w) {z : BitVec w}
    (same : ∀ i < w, z.getLsbD i = y.getLsbD i) : min z.ctz.toNat m = s := by
  have bits := getLsbD_mask size short mask
  by_cases none : k = 0
  · have zero : z = 0 := by
      apply BitVec.eq_of_getLsbD_eq
      intro i hi
      rw [same i hi, bits]
      change _ = (0#w).getLsbD i
      rw [BitVec.getLsbD_zero]
      by_cases inside : i < m
      · rw [decide_eq_false (by omega), Bool.false_and]
      · rw [decide_eq_false inside, Bool.and_false]
    rw [zero, ctz_zero]
    omega
  · rw [ctz_eq (s := s)]
    · omega
    · rw [same s (by omega), bits, decide_eq_true le_rfl, decide_eq_true (by omega)]
      rfl
    · intro i hi
      rw [same i (by omega), bits, decide_eq_false (by omega), Bool.false_and]

theorem trailingZeros_mask (wide : m ≤ 128) :
    (LookupBits.mk (y.setWidth 128) m).trailingZeros = s := by
  refine min_ctz_mask size short mask wide fun i hi => ?_
  rw [BitVec.getLsbD_setWidth, decide_eq_true hi, Bool.true_and]

include bound

theorem leadingOnes_mask : (LookupBits.mk (y.setWidth 128) m).leadingOnes = k := by
  have bits := getLsbD_mask size short mask
  have shifted (i : ℕ) (hi : i < 128) :
      (~~~((y.setWidth 128) <<< ((128 - m) % 128))).getLsbD i =
        !(decide (128 - m ≤ i) && decide (s ≤ i - (128 - m))) := by
    rw [BitVec.getLsbD_not, BitVec.getLsbD_shiftLeft, decide_eq_true hi, BitVec.getLsbD_setWidth,
      bits]
    by_cases none : m = 0
    · subst none
      simp
      omega
    · rw [Nat.mod_eq_of_lt (by omega), Bool.eq_iff_iff]
      simp only [Bool.and_eq_true, Bool.not_eq_true', decide_eq_true_eq, decide_eq_false_iff_not,
        Bool.and_eq_false_iff, Bool.not_eq_false', Bool.true_eq_false, false_or, true_and]
      omega
  unfold LookupBits.leadingOnes
  apply clz_eq
  · rw [shifted _ (by omega)]
    simp
    omega
  · omega
  · intro i low high
    rw [shifted i high]
    simp
    omega

end

/-! ## Suffixes of one word -/

section

variable {m : ℕ} {q : List F} {w : U128} (total : q.length + 2 * m = 128)
  (short : w.toNat < 2 ^ (2 * m))

include total short

/-- The low word from position `a` on, across the split. -/
theorem word_suffix {a : ℕ} (inside : a ≤ 128) :
    word ((q ++ bitPoint F (2 * m) w.toNat).drop a) =
      2 ^ (2 * m) * word (q.drop a) + ((w.toNat % 2 ^ (128 - a) : ℕ) : F) := by
  by_cases before : q.length ≤ a
  · have none : q.drop a = [] := List.drop_eq_nil_of_le before
    have parts : 2 * m = a - q.length + (128 - a) := by omega
    have empty : word ([] : List F) = 0 := rfl
    rw [List.drop_append, none, List.nil_append, parts, drop_bitPoint, word_bitPoint, empty,
      mul_zero, zero_add]
  · have room : 2 ^ (2 * m) ≤ 2 ^ (128 - a) := Nat.pow_le_pow_right two_pos (by omega)
    rw [List.drop_append_of_le_length (by omega), word_append, word_bitPoint, length_bitPoint,
      Nat.mod_eq_of_lt short, Nat.mod_eq_of_lt (by omega)]

omit total short in
/-- The low bits of a suffix. -/
theorem toNat_low_bits {k : ℕ} (small : k ≤ 64) :
    ((w % ((1 : U128) <<< k)).setWidth 64).toNat = w.toNat % 2 ^ k := by
  have room : 2 ^ k ≤ 2 ^ 64 := Nat.pow_le_pow_right two_pos small
  have power : ((1 : U128) <<< k).toNat = 2 ^ k := by
    rw [BitVec.toNat_shiftLeft, Nat.shiftLeft_eq]
    change 1 * 2 ^ k % 2 ^ 128 = _
    omega
  have below := Nat.mod_lt w.toNat (Nat.two_pow_pos k)
  rw [BitVec.toNat_setWidth, BitVec.toNat_umod, power, Nat.mod_eq_of_lt (by omega)]

theorem overflow_suffix :
    allZero (q.take 64) * ((U64.ofBool (w >>> 64 == 0)).toNat : F) =
      allZero ((q ++ bitPoint F (2 * m) w.toNat).take 64) := by
  have zero : (w >>> 64 == 0) = decide (w.toNat / 2 ^ 64 = 0) := by
    rw [Bool.eq_iff_iff, beq_iff_eq, decide_eq_true_eq, ← BitVec.toNat_inj,
      BitVec.toNat_ushiftRight, Nat.shiftRight_eq_div_pow]
    rfl
  rw [cast_ofBool, zero]
  by_cases after : 64 ≤ q.length
  · have clear : w.toNat / 2 ^ 64 = 0 :=
      Nat.div_eq_of_lt (short.trans_le (Nat.pow_le_pow_right two_pos (by omega)))
    rw [clear, List.take_append_of_le_length after]
    simp
  · have whole : q.take 64 = q := List.take_of_length_le (by omega)
    have parts : 2 * m = 64 - q.length + 64 := by omega
    have high : w.toNat / 2 ^ 64 < 2 ^ (64 - q.length) :=
      Nat.div_lt_of_lt_mul (by rwa [← pow_add, Nat.add_comm, ← parts])
    rw [List.take_append, whole, allZero_append, parts, take_bitPoint, allZero_bitPoint,
      Nat.mod_eq_of_lt high]
    simp

/-- The shift amount is in the suffix, or there is no suffix. -/
theorem pow2_suffix (aligned : m = 0 ∨ 3 ≤ m) :
    twoPow (q.drop 122) *
        ((if 2 * m = 0 then (1 : U64)
          else (1 : U64) <<< (LookupBits.split ⟨w, 2 * m⟩ 6).2.toU64).toNat : F) =
      twoPow ((q ++ bitPoint F (2 * m) w.toNat).drop 122) := by
  obtain none | some := aligned
  · subst none
    have one : (1 : U64).toNat = 1 := rfl
    rw [Nat.mul_zero, if_pos rfl, one, Nat.cast_one, mul_one, bitPoint, List.append_nil]
  · have before : q.drop 122 = [] := List.drop_eq_nil_of_le (by omega)
    have parts : 2 * m = 122 - q.length + 6 := by omega
    have empty : twoPow ([] : List F) = 1 := rfl
    have below := Nat.mod_lt w.toNat (Nat.two_pow_pos 6)
    have power : ((1 : U128) <<< 6).toNat = 2 ^ 6 := rfl
    have low : (w % ((1 : U128) <<< 6)).toNat = w.toNat % 2 ^ 6 := by
      rw [BitVec.toNat_umod, power]
    have shift : (LookupBits.split ⟨w, 2 * m⟩ 6).2.toU64.toNat = w.toNat % 2 ^ 6 := by
      rw [LookupBits.split]
      simp only
      rw [LookupBits.new_of_short (by rw [low]; exact below), LookupBits.toU64,
        BitVec.toNat_setWidth, low]
      omega
    rw [if_neg (by omega), BitVec.shiftLeft_eq', shift, toNat_one_shiftLeft (by omega), before,
      empty, one_mul, List.drop_append, before, List.nil_append, parts, drop_bitPoint,
      twoPow_bitPoint, Nat.cast_pow, Nat.cast_ofNat]

omit short in
/-- The sign bit is in the suffix or bound. -/
theorem signExtend_suffix :
    (if 32 ≤ 2 * m then 1 else (2 ^ 32 - 1) * 2 ^ 32 * q.getD 96 0) *
        ((if 2 * m ≥ 32 then
            if (w >>> (32 - 1)) &&& 1 = 1 then (((1 : U64) <<< 32) - 1) <<< 32 else 0
          else 1 : U64).toNat : F) =
      (2 ^ 32 - 1) * 2 ^ 32 * (q ++ bitPoint F (2 * m) w.toNat).getD 96 0 := by
  by_cases high : 32 ≤ 2 * m
  · have parts : 2 * m = 96 - q.length + (31 + 1) := by omega
    have sign : (w >>> (32 - 1)) &&& 1 = 1 ↔ w.toNat.testBit 31 = true := by
      rw [← BitVec.toNat_inj, BitVec.toNat_and, BitVec.toNat_ushiftRight,
        Nat.testBit_eq_decide_div_mod_eq, decide_eq_true_eq, Nat.shiftRight_eq_div_pow]
      change w.toNat / 2 ^ 31 &&& 1 = 1 ↔ _
      rw [Nat.and_one_is_mod]
    have fill : ((((1 : U64) <<< 32) - 1) <<< 32).toNat = (2 ^ 32 - 1) * 2 ^ 32 := rfl
    rw [if_pos high, if_pos high, one_mul, List.getD_append_right _ _ _ _ (by omega), parts,
      getD_bitPoint]
    cases bit : w.toNat.testBit 31 with
    | false =>
      rw [if_neg (fun one => by rw [sign.mp one] at bit; exact absurd bit (by simp)), ofBit_false,
        mul_zero]
      exact Nat.cast_zero
    | true =>
      rw [if_pos (sign.mpr bit), ofBit_true, mul_one, fill]
      norm_num
  · have one : (1 : U64).toNat = 1 := rfl
    rw [if_neg high, if_neg high, one, Nat.cast_one, mul_one,
      List.getD_append _ _ _ _ (by omega)]

end

/-! ## Suffixes of shifted operands -/

section

variable {m s k : ℕ} {x y : U64} (size : s + k = m) (bound : m < 64) (left : x.toNat < 2 ^ m)
  (right : y.toNat < 2 ^ m) (mask : ∀ i < s + k, y.getLsbD i = decide (s ≤ i))

include size bound left right mask

/-- The gathered bits of a suffix, and the shift of the bits before. -/
theorem rightShift_suffix :
    pairGather (pairPoint F m x.toNat y.toNat) =
        ((x >>> (LookupBits.mk (y.setWidth 128) m).trailingZeros).toNat : F) ∧
      pairProd (fun _ y => 1 + y) (pairPoint F m x.toNat y.toNat) =
        (((1 : U64) <<< (LookupBits.mk (y.setWidth 128) m).leadingOnes).toNat : F) := by
  rw [trailingZeros_mask size right mask (by omega), leadingOnes_mask size bound right mask,
    toNat_one_shiftLeft (by omega), BitVec.toNat_ushiftRight, Nat.shiftRight_eq_div_pow]
  subst size
  rw [pairGather_mask x.toNat mask, pairProd_oneAddSnd_pairPoint, popcount_mask mask,
    Nat.mod_eq_of_lt left, Nat.cast_pow, Nat.cast_ofNat]
  exact ⟨rfl, rfl⟩

/-- The raised bits of a suffix. -/
theorem leftShift_suffix :
    pairRaise (pairPoint F m x.toNat y.toNat) =
      (((x &&& ~~~y) <<< (LookupBits.mk (y.setWidth 128) m).leadingOnes).toNat : F) := by
  have bits := getLsbD_mask size right mask
  have low : (x &&& ~~~y).toNat = x.toNat % 2 ^ s := by
    apply Nat.eq_of_testBit_eq
    intro i
    rw [Nat.testBit_mod_two_pow]
    change (x &&& ~~~y).getLsbD i = (decide (i < s) && x.getLsbD i)
    rw [BitVec.getLsbD_and, BitVec.getLsbD_not, bits]
    by_cases inside : i < m
    · by_cases below : i < s
      · simp [below, inside, Nat.not_le.mpr below, show i < 64 by omega]
      · simp [below, inside, Nat.not_lt.mp below]
    · rw [getLsbD_of_short x left (by omega), Bool.false_and, Bool.and_false]
  have fits : (x &&& ~~~y).toNat < 2 ^ s := by
    rw [low]
    exact Nat.mod_lt _ (Nat.two_pow_pos s)
  rw [leadingOnes_mask size bound right mask, toNat_shiftLeft_of_lt fits (by omega), low]
  subst size
  rw [pairRaise_mask x.toNat mask, Nat.cast_mul, Nat.cast_pow, Nat.cast_ofNat, mul_comm]

/-- The sign extension of a suffix. -/
theorem signExtension_suffix :
    (2 : F) ^ (64 - m) * pairFill (pairPoint F m x.toNat y.toNat) =
      (((((1 : U128) <<< 64) - ((1 : U128) <<< (64 - min y.ctz.toNat m))).setWidth 64).toNat : F) := by
  have padding := min_ctz_mask size right mask bound.le (z := y) fun _ _ => rfl
  have value : ((((1 : U128) <<< 64) - ((1 : U128) <<< (64 - s))).setWidth 64).toNat =
      2 ^ 64 - 2 ^ (64 - s) := by
    have power : ((1 : U128) <<< (64 - s)).toNat = 2 ^ (64 - s) := by
      have room : 2 ^ (64 - s) ≤ 2 ^ 64 := Nat.pow_le_pow_right two_pos (by omega)
      rw [BitVec.toNat_shiftLeft, Nat.shiftLeft_eq]
      change 1 * 2 ^ (64 - s) % 2 ^ 128 = _
      omega
    have whole : ((1 : U128) <<< 64).toNat = 2 ^ 64 := rfl
    have room : 2 ^ (64 - s) ≤ 2 ^ 64 := Nat.pow_le_pow_right two_pos (by omega)
    have positive := Nat.two_pow_pos (64 - s)
    rw [BitVec.toNat_setWidth, BitVec.toNat_sub, power, whole]
    omega
  have splitWhole : (2 : F) ^ 64 = 2 ^ (64 - m) * 2 ^ m := by
    rw [← pow_add, Nat.sub_add_cancel bound.le]
  have splitShift : (2 : F) ^ (64 - s) = 2 ^ (64 - m) * 2 ^ k := by
    rw [← pow_add, show 64 - s = 64 - m + k by omega]
  rw [padding, value, Nat.cast_sub (Nat.pow_le_pow_right two_pos (by omega)), Nat.cast_pow,
    Nat.cast_pow, Nat.cast_ofNat, splitWhole, splitShift]
  subst size
  rw [pairFill_mask x.toNat mask]
  ring

end

/-! ## Combination -/

/-- The phase lengths at which no cut-off of the table's prefixes lies inside a phase. -/
def WasmTable.Aligned (t : WasmTable) (len : ℕ) : Prop :=
  match t with
  | .rangeCheck => len ≤ 64
  | .lowerHalfWord | .signExtendWord => len ≤ 32
  | .pow2 | .shiftRightBitmask => 8 ≤ len
  | _ => True

section

variable {m : ℕ} {q : List F} {w : U128} (total : q.length + 2 * m = 128) (bound : m < 64)
  (short : w.toNat < 2 ^ (2 * m)) {t : WasmTable} {values : Prefixes → F}
  (holds : ∀ p ∈ t.prefixes, p ≠ .leftShiftHelper ∨ 0 < m → values p = p.prefixMle (2 * m) q)
  (mask : t = .srl ∨ t = .sra ∨ t = .rotr →
    ∃ s k, s + k = m ∧ ∀ i < s + k, (uninterleaveBits w).2.getLsbD i = decide (s ≤ i))
  (shift : t = .pow2 ∨ t = .shiftRightBitmask → m = 0 ∨ 3 ≤ m)

include total bound short holds mask shift

/-- The prefixes at the bound variables and the suffixes of the unbound bits are the table's
extension. -/
theorem combine_eq :
    t.combine values (suffixEvals F t ⟨w, 2 * m⟩) =
      some (t.tableMle 64 (q ++ bitPoint F (2 * m) w.toNat)) := by
  have narrow : m ≤ 64 := by omega
  have even : Even q.length := by
    rw [Nat.even_iff]
    omega
  have point := bitPoint_index (F := F) w narrow
  obtain ⟨left, right⟩ := uninterleave_lt short
  have half : 2 * m / 2 = m := Nat.mul_div_cancel_left m two_pos
  have one : ((1 : U64).toNat : F) = 1 := Nat.cast_one
  have log : 2 * 64 - logXlen 64 = 122 := by rw [logXlen_eq.1]
  have get {p : Prefixes} (hp : p ∈ t.prefixes) (other : p ≠ .leftShiftHelper) :
      values p = p.prefixMle (2 * m) q := holds p hp (.inl other)
  have isZero (x : U64) : x.toNat = 0 ↔ x = 0 := by
    rw [← BitVec.toNat_inj]
    rfl
  have first : (q ++ bitPoint F (2 * m) w.toNat).getD 0 0 = q.getD 0 0 :=
    List.getD_append _ _ _ _ (by omega)
  have second : (q ++ bitPoint F (2 * m) w.toNat).getD 1 0 = q.getD 1 0 :=
    List.getD_append _ _ _ _ (by omega)
  have less : pairLess (q ++ bitPoint F (2 * m) w.toNat) = pairLess q + pairProd pairEq q *
      ((U64.ofBool ((uninterleaveBits w).1.ult (uninterleaveBits w).2)).toNat : F) := by
    rw [point, pairLess_append _ even, pairLess_ult left right]
  have same : pairProd pairEq (q ++ bitPoint F (2 * m) w.toNat) = pairProd pairEq q *
      ((U64.ofBool ((uninterleaveBits w).1.setWidth 128 ==
        (uninterleaveBits w).2.setWidth 128)).toNat : F) := by
    have wide : ((uninterleaveBits w).1.setWidth 128 == (uninterleaveBits w).2.setWidth 128) =
        ((uninterleaveBits w).1 == (uninterleaveBits w).2) := by
      rw [Bool.eq_iff_iff, beq_iff_eq, beq_iff_eq, ← BitVec.toNat_inj, ← BitVec.toNat_inj,
        BitVec.toNat_setWidth, BitVec.toNat_setWidth]
      omega
    rw [point, pairProd_append _ even, pairProd_equal left right, wide]
  cases t <;>
    simp only [suffixEvals, WasmTable.suffixes, List.map, Suffixes.suffixMle, xlen64,
      LookupBits.uninterleave_of_short short, LookupBits.toU64_setWidth, WasmTable.combine,
      WasmTable.tableMle, one, mul_one] <;>
    simp only [WasmTable.prefixes, List.mem_cons, List.not_mem_nil, or_false] at get <;>
    refine congrArg some ?_
  case rangeCheck =>
    rw [get rfl (by decide), word_suffix total short (by omega), toNat_low_bits (by omega)]
    rfl
  case lowerHalfWord =>
    rw [get rfl (by decide), word_suffix total short (by omega), toNat_low_bits (by omega)]
    rfl
  case and =>
    rw [get rfl (by decide), point, pairWord_append _ even (even_length_pairPoint ..),
      pairWord_and narrow left right, half_length_pairPoint, Prefixes.prefixMle, half]
  case andn =>
    rw [get rfl (by decide), point, pairWord_append _ even (even_length_pairPoint ..),
      pairWord_andn narrow left right, half_length_pairPoint, Prefixes.prefixMle, half]
  case or =>
    rw [get rfl (by decide), point, pairWord_append _ even (even_length_pairPoint ..),
      pairWord_or narrow left right, half_length_pairPoint, Prefixes.prefixMle, half]
  case xor =>
    rw [get rfl (by decide), point, pairWord_append _ even (even_length_pairPoint ..),
      pairWord_xor narrow left right, half_length_pairPoint, Prefixes.prefixMle, half]
  case equal => rw [get rfl (by decide), same, Prefixes.prefixMle]
  case notEqual => rw [get rfl (by decide), same, Prefixes.prefixMle]
  case unsignedLessThan =>
    rw [get (.inl rfl) (by decide), get (.inr rfl) (by decide), less, Prefixes.prefixMle, Prefixes.prefixMle]
  case unsignedGreaterThanEqual =>
    rw [get (.inl rfl) (by decide), get (.inr rfl) (by decide), less, Prefixes.prefixMle, Prefixes.prefixMle]
    ring
  case unsignedLessThanEqual =>
    rw [get (.inl rfl) (by decide), get (.inr rfl) (by decide), less, same, Prefixes.prefixMle,
      Prefixes.prefixMle]
  case signedLessThan =>
    rw [get (.inl rfl) (by decide), get (.inr (.inl rfl)) (by decide), get (.inr (.inr (.inl rfl))) (by decide),
      get (.inr (.inr (.inr rfl))) (by decide), first, second, less]
    simp only [Prefixes.prefixMle]
    ring
  case signedGreaterThanEqual =>
    rw [get (.inl rfl) (by decide), get (.inr (.inl rfl)) (by decide), get (.inr (.inr (.inl rfl))) (by decide),
      get (.inr (.inr (.inr rfl))) (by decide), first, second, less]
    simp only [Prefixes.prefixMle]
    ring
  case srl =>
    obtain ⟨s, k, size, ones⟩ := mask (.inl rfl)
    have suffix := rightShift_suffix (F := F) size bound left right ones
    rw [get rfl (by decide), point, pairGather_append _ even, suffix.1, suffix.2, Prefixes.prefixMle]
  case sra =>
    obtain ⟨s, k, size, ones⟩ := mask (.inr (.inl rfl))
    have suffix := rightShift_suffix (F := F) size bound left right ones
    have fill := signExtension_suffix (F := F) size bound left right ones
    have evenRest : Even (q.drop 2).length := by
      rw [List.length_drop, Nat.even_iff]
      omega
    have double : (2 : F) ^ (64 - m) = 2 * 2 ^ ((q.drop 2).length / 2) := by
      rw [List.length_drop, ← pow_succ', show 64 - m = (q.length - 2) / 2 + 1 by omega]
    rw [get (.inl rfl) (by decide), get (.inr (.inl rfl)) (by decide), get (.inr (.inr rfl)) (by decide), first,
      point, List.drop_append_of_le_length (by omega), pairGather_append _ even,
      pairFill_append _ evenRest, suffix.1, suffix.2, ← fill, double]
    simp only [Prefixes.prefixMle]
    ring
  case rotr =>
    obtain ⟨s, k, size, ones⟩ := mask (.inr (.inr rfl))
    have suffix := rightShift_suffix (F := F) size bound left right ones
    have raise := leftShift_suffix (F := F) size bound left right ones
    have helper : values .leftShiftHelper *
          (pairRaise (pairPoint F m (uninterleaveBits w).1.toNat (uninterleaveBits w).2.toNat)) =
        pairProd (fun _ y => 1 + y) q *
          pairRaise (pairPoint F m (uninterleaveBits w).1.toNat (uninterleaveBits w).2.toNat) := by
      cases m with
      | zero =>
        have none : pairRaise ([] : List F) = 0 := rfl
        rw [pairPoint, none, mul_zero, mul_zero]
      | succ m => rw [holds .leftShiftHelper (by decide) (.inr m.succ_pos), Prefixes.prefixMle]
    rw [get (.inl rfl) (by decide), get (.inr (.inr rfl)) (by decide), point, pairGather_append _ even,
      pairRaise_append _ even (even_length_pairPoint ..), suffix.1, suffix.2, ← raise, helper,
      half_length_pairPoint]
    simp only [Prefixes.prefixMle, half]
    ring
  case mulUNoOverflow =>
    rw [get rfl (by decide)]
    exact overflow_suffix total short
  case pow2 =>
    rw [get rfl (by decide), log]
    exact pow2_suffix total short (shift (.inl rfl))
  case shiftRightBitmask =>
    rw [get rfl (by decide), log, Nat.cast_pow, Nat.cast_ofNat]
    exact congrArg _ (pow2_suffix total short (shift (.inr rfl)))
  case signExtendWord =>
    have low := word_suffix (F := F) total short (a := 96) (by omega)
    have sign := signExtend_suffix (F := F) (w := w) total
    rw [get (.inl rfl) (by decide), get (.inr rfl) (by decide), Prefixes.prefixMle, Prefixes.prefixMle,
      toNat_low_bits (by omega)]
    exact congrArg₂ _ low.symm sign
  case negateIf =>
    rw [get (.inl rfl) (by decide), get (.inr (.inl rfl)) (by decide), get (.inr (.inr (.inl rfl))) (by decide),
      get (.inr (.inr (.inr rfl))) (by decide), first, point, pairProd_append _ even,
      pairWord_append _ even (even_length_pairPoint ..), pairWord_snd narrow left right,
      half_length_pairPoint, pairProd_zeroSnd_pairPoint, Nat.mod_eq_of_lt right, cast_ofBool]
    simp only [Prefixes.prefixMle, half, beq_iff_eq, isZero]
    push_cast
    ring
  case clz =>
    rw [get (.inl rfl) (by decide), get (.inr rfl) (by decide), point, pairLeadingZeros_append _ even,
      pairLeadingZeros_clz _ narrow left]
    simp only [Prefixes.prefixMle, leadingZeros, LookupBits.toU64_setWidth]
    have small : (if (uninterleaveBits w).1 = 0 then m
        else m - (64 - (uninterleaveBits w).1.clz.toNat)) < 2 ^ 64 := by
      split_ifs <;> omega
    rw [BitVec.toNat_ofNat, Nat.mod_eq_of_lt small]
  case ctz =>
    rw [get rfl (by decide), point, pairTrailingZeros_append _ even, pairTrailingZeros_ctz _ left,
      pairProd_zeroFst_pairPoint, Nat.mod_eq_of_lt left, cast_ofBool]
    simp only [Prefixes.prefixMle, beq_iff_eq, isZero, apply_ite BitVec.toNat,
      BitVec.toNat_ofNat, Nat.mod_eq_of_lt (show m < 2 ^ 64 by omega)]
    ring
  case popcnt =>
    rw [get rfl (by decide), point, pairSum_append _ even, pairSum_cpop _ narrow left,
      Prefixes.prefixMle]

end

/-! ## Rounds -/

/-- After round `k` of a phase of `len` bits the bound prefixes and the suffixes combine to the
table's extension at the challenges, the remaining bits of the phase and the suffix bits. -/
def WasmTable.CombinesAfter (t : WasmTable) (len phase k : ℕ) (index : U128) (r : List F) : Prop :=
  let suffixLen := suffixLenOf len phase
  let suffix := ((LookupBits.new index 128).split suffixLen).2
  let remaining := index.toNat / 2 ^ suffixLen % 2 ^ (len - k)
  t.combine (boundPrefix len r phase remaining) (suffixEvals F t suffix) =
    some (t.evaluateMle 64
      (r ++ bitPoint F (len - k) remaining ++ bitPoint F suffixLen suffix.bits.toNat))

/-- The low bits of an index, split off. -/
theorem split_suffix (index : U128) {m : ℕ} (bound : m < 64) :
    ((LookupBits.new index 128).split (2 * m)).2 = ⟨index % ((1 : U128) <<< (2 * m)), 2 * m⟩ ∧
      (index % ((1 : U128) <<< (2 * m))).toNat = index.toNat % 2 ^ (2 * m) := by
  have power : ((1 : U128) <<< (2 * m)).toNat = 2 ^ (2 * m) := by
    have room : 2 ^ (2 * m) < 2 ^ 128 := Nat.pow_lt_pow_right (by norm_num) (by omega)
    rw [BitVec.toNat_shiftLeft, Nat.shiftLeft_eq]
    change 1 * 2 ^ (2 * m) % 2 ^ 128 = _
    rw [Nat.one_mul, Nat.mod_eq_of_lt room]
  have low : (index % ((1 : U128) <<< (2 * m))).toNat = index.toNat % 2 ^ (2 * m) := by
    rw [BitVec.toNat_umod, power]
  have short : (index % ((1 : U128) <<< (2 * m))).toNat < 2 ^ (2 * m) := by
    rw [low]
    exact Nat.mod_lt _ (Nat.two_pow_pos _)
  rw [LookupBits.new_of_short index.isLt, LookupBits.split, LookupBits.new_of_short short]
  exact ⟨rfl, low⟩

section

variable {t : WasmTable} {n : ℕ} (positive : 0 < n) (divides : 2 * n ∣ 128)
  (aligned : t.Aligned (2 * n))

include divides aligned

/-- The prefixes of a table extend through its phases, as far as they are used. -/
theorem WasmTable.Aligned.of_mem {p : Prefixes} (member : p ∈ t.prefixes)
    (used : p ≠ .leftShiftHelper ∨ 2 * n < 128) : p.Aligned (2 * n) := by
  have le : 2 * n < 128 → 2 * n ≤ 64 := by
    intro smaller
    have rest := Nat.le_of_dvd (by omega) (Nat.dvd_sub divides (dvd_refl (2 * n)))
    omega
  cases t <;> simp only [WasmTable.prefixes, List.mem_cons, List.not_mem_nil, or_false] at member <;>
    rcases member with rfl | rfl | rfl | rfl <;>
    first
    | exact trivial
    | exact aligned
    | exact le (used.resolve_left (not_not.mpr rfl))

omit divides in
/-- The prefixes at a boundary and the suffixes of an index combine to the table's extension. -/
theorem combine_suffix {index : U128} (valid : t.InDomain index) {m : ℕ} (bound : m < 64)
    (remaining : 2 * n ∣ 2 * m) {q : List F} (total : q.length + 2 * m = 128)
    {values : Prefixes → F}
    (holds : ∀ p ∈ t.prefixes, p ≠ .leftShiftHelper ∨ 0 < m → values p = p.prefixMle (2 * m) q) :
    t.combine values (suffixEvals F t ((LookupBits.new index 128).split (2 * m)).2) =
      some (t.evaluateMle 64 (q ++ bitPoint F (2 * m) index.toNat)) := by
  obtain ⟨suffix, low⟩ := split_suffix index bound
  have short : (index % ((1 : U128) <<< (2 * m))).toNat < 2 ^ (2 * m) := by
    rw [low]
    exact Nat.mod_lt _ (Nat.two_pow_pos _)
  have bits (i : ℕ) (hi : i < m) :
      (uninterleaveBits (index % ((1 : U128) <<< (2 * m)))).2.getLsbD i =
        (uninterleaveBits index).2.getLsbD i := by
    rw [(getLsbD_uninterleave _ (by omega)).2, (getLsbD_uninterleave _ (by omega)).2,
      BitVec.getLsbD, low, Nat.testBit_mod_two_pow, decide_eq_true (by omega), Bool.true_and]
    rfl
  have mask : t = .srl ∨ t = .sra ∨ t = .rotr → ∃ s k, s + k = m ∧
      ∀ i < s + k, (uninterleaveBits (index % ((1 : U128) <<< (2 * m)))).2.getLsbD i =
        decide (s ≤ i) := by
    intro shifted
    have ones : IsRightShiftBitmask (uninterleaveBits index).2 := by
      obtain rfl | rfl | rfl := shifted
      · exact valid
      · exact valid
      · exact valid
    obtain ⟨s, k, size, ones⟩ := exists_mask ones bound.le
    refine ⟨s, k, size, ?_⟩
    intro i hi
    rw [bits i (by omega), ones i hi]
  have shift : t = .pow2 ∨ t = .shiftRightBitmask → m = 0 ∨ 3 ≤ m := by
    intro powers
    have long : 8 ≤ 2 * n := by
      obtain rfl | rfl := powers
      · exact aligned
      · exact aligned
    by_cases last : m = 0
    · exact .inl last
    · have := Nat.le_of_dvd (by omega) remaining
      exact .inr (by omega)
  rw [suffix, combine_eq total bound short holds mask shift, low, bitPoint_mod,
    evaluateMle_eq_tableMle (by simp [total]) (.inl rfl)]

include positive

/-- After every round of every phase the bound prefixes and the suffixes combine to the table's
extension, and so do the last checkpoints. -/
theorem combine_phases {index : U128} (valid : t.InDomain index) (r : List F) :
    (∀ phase k, (phase + 1) * (2 * n) ≤ 128 → k ≤ 2 * n → r.length = phase * (2 * n) + k →
      t.CombinesAfter (2 * n) phase k index r) ∧
      (r.length = 128 →
        t.combine (checkpointsAt (2 * n) r (128 / (2 * n)))
            (suffixEvals F t (LookupBits.new 0 0)) =
          some (t.evaluateMle 64 r)) := by
  constructor
  · intro phase k inside rounds length
    have next : (phase + 1) * (2 * n) = phase * (2 * n) + 2 * n := by ring
    obtain ⟨m, hm⟩ : ∃ m, suffixLenOf (2 * n) phase = 2 * m := by
      obtain ⟨c, hc⟩ := Nat.dvd_sub divides (Dvd.intro_left (phase + 1) rfl)
      exact ⟨n * c, hc.trans (by ring)⟩
    have size : 2 * m + (phase + 1) * (2 * n) = 128 := by
      have : 128 - (phase + 1) * (2 * n) = 2 * m := hm
      omega
    have rest : 2 * n ∣ 2 * m := by
      have := Nat.dvd_sub divides (Dvd.intro_left (phase + 1) rfl)
      rwa [show 128 - (phase + 1) * (2 * n) = 2 * m by omega] at this
    unfold WasmTable.CombinesAfter
    rw [hm]
    intro suffixLen suffix remaining
    have point : bitPoint F suffixLen suffix.bits.toNat = bitPoint F (2 * m) index.toNat := by
      obtain ⟨parts, low⟩ := split_suffix index (m := m) (by omega)
      change bitPoint F (2 * m) ((LookupBits.new index 128).split (2 * m)).2.bits.toNat = _
      rw [parts, low, bitPoint_mod]
    rw [point]
    refine combine_suffix aligned valid (by omega) rest ?_ ?_
    · rw [List.length_append, length_bitPoint]
      omega
    · intro p member used
      rw [boundPrefix_eq positive divides inside rounds length
          (Nat.mod_lt _ (Nat.two_pow_pos _))
          (WasmTable.Aligned.of_mem divides aligned member (used.imp_right fun some => by omega)),
        show 128 - (phase + 1) * (2 * n) = 2 * m by omega]
  · intro length
    have whole : 128 / (2 * n) * (2 * n) = 128 := Nat.div_mul_cancel divides
    have empty : ((LookupBits.new index 128).split (2 * 0)).2 = LookupBits.new 0 0 := by
      obtain ⟨suffix, low⟩ := split_suffix index (m := 0) (by omega)
      have zero : index % ((1 : U128) <<< (2 * 0)) = 0 := by
        apply BitVec.eq_of_toNat_eq
        rw [low]
        exact Nat.mod_one _
      rw [suffix, zero]
      rfl
    rw [← empty]
    refine (combine_suffix aligned valid (by omega) (dvd_zero _) length ?_).trans ?_
    · intro p member used
      have extended := WasmTable.Aligned.of_mem divides aligned member
        (used.imp_right fun none => absurd none (lt_irrefl 0))
      rw [checkpointsAt_eq positive divides r whole.le (by omega) (.inr extended), whole,
        List.take_of_length_le length.le]
    · rw [Nat.mul_zero, bitPoint, List.append_nil]

end

theorem combine_phases_srl :
    let index : U128 := 0x550000000000000000000000000000a2
    let r : List ℤ := List.replicate 29 7
    WasmTable.srl.CombinesAfter 8 3 5 index r ∧
      WasmTable.srl.combine (checkpointsAt 8 (r ++ List.replicate 99 5) 16)
          (suffixEvals ℤ .srl (LookupBits.new 0 0)) =
        some (WasmTable.srl.evaluateMle 64 (r ++ List.replicate 99 5)) := by
  intro index r
  have valid : WasmTable.srl.InDomain index := ⟨60, by decide, by decide +kernel⟩
  have aligned : WasmTable.srl.Aligned (2 * 4) := trivial
  exact ⟨(combine_phases (by decide) (by decide) aligned valid r).1 3 5 (by decide) (by decide) rfl,
    (combine_phases (by decide) (by decide) aligned valid _).2 rfl⟩

/-- Every other even phase length has a cut-off of these tables inside a phase. -/
theorem combine_across_cut_off :
    ¬ WasmTable.rangeCheck.CombinesAfter 128 0 1 1 (List.replicate 1 (0 : ℤ)) ∧
      ¬ WasmTable.lowerHalfWord.CombinesAfter 64 1 1 1 (List.replicate 65 (0 : ℤ)) ∧
      ¬ WasmTable.lowerHalfWord.CombinesAfter 128 0 1 1 (List.replicate 1 (0 : ℤ)) ∧
      ¬ WasmTable.signExtendWord.CombinesAfter 64 1 1 1 (List.replicate 65 (0 : ℤ)) ∧
      ¬ WasmTable.signExtendWord.CombinesAfter 128 0 1 1 (List.replicate 1 (0 : ℤ)) ∧
      ¬ WasmTable.pow2.CombinesAfter 4 30 1 48 (List.replicate 121 (0 : ℤ)) ∧
      ¬ WasmTable.pow2.CombinesAfter 2 61 1 48 (List.replicate 123 (0 : ℤ)) ∧
      ¬ WasmTable.shiftRightBitmask.CombinesAfter 4 30 1 48 (List.replicate 121 (0 : ℤ)) ∧
      ¬ WasmTable.shiftRightBitmask.CombinesAfter 2 61 1 48 (List.replicate 123 (0 : ℤ)) := by
  unfold WasmTable.CombinesAfter
  decide +kernel

end JoltWasm
