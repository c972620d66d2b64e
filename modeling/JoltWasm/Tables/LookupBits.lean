import JoltWasm.Tables.Decomposition

/-!
# The bits of a substring

A substring of an index is read three ways: cut in two, pulled apart into the bits of both operands, and
popped bit by bit from the top.  Each way reads the bits of the integer, in order.
-/

namespace JoltWasm

/-! ## Both directions of the interleaving -/

theorem uninterleaveBits_injective {v w : U128} (same : uninterleaveBits v = uninterleaveBits w) : v = w := by
  apply BitVec.eq_of_getLsbD_eq
  intro i inside
  obtain ⟨left, right⟩ := getLsbD_uninterleave v (i := i / 2) (by omega)
  obtain ⟨left', right'⟩ := getLsbD_uninterleave w (i := i / 2) (by omega)
  rw [same] at left right
  rcases Nat.even_or_odd' i with ⟨k, rfl | rfl⟩
  · rw [Nat.mul_div_cancel_left k two_pos] at right right'
    rw [← right, right']
  · rw [Nat.mul_add_div two_pos, Nat.div_eq_of_lt one_lt_two, Nat.add_zero] at left left'
    rw [← left, left']

theorem interleave_uninterleave (v : U128) : interleaveBits (uninterleaveBits v).1 (uninterleaveBits v).2 = v :=
  uninterleaveBits_injective (uninterleave_interleave _ _)

namespace LookupBits

/-! ## Reading a substring -/

/-- `split` as it runs.  The shift by a suffix as long as the integer overflows, and so does the length of the
prefix where the suffix is longer than the substring. -/
def splitChecked (b : LookupBits) (suffixLen : ℕ) : Option (LookupBits × LookupBits) :=
  if 128 ≤ suffixLen ∨ b.len < suffixLen then none else some (b.split suffixLen)

def popMsb (b : LookupBits) : Option (BitVec 8 × LookupBits) :=
  if b.len = 0 then none
  else
    let msb := (b.bits >>> (b.len - 1)) &&& 1
    some (msb.setWidth 8, ⟨b.bits % ((1 : U128) <<< (b.len - 1)), b.len - 1⟩)

/-- `pop_msb`, again and again. -/
def popMsbs : ℕ → LookupBits → Option (List (BitVec 8) × LookupBits)
  | 0, b => some ([], b)
  | n + 1, b => do
      let (bit, b) ← b.popMsb
      let (bits, b) ← popMsbs n b
      return (bit :: bits, b)

/-- What every substring keeps: at most 128 bits, and no others. -/
structure Valid (b : LookupBits) : Prop where
  len : b.len ≤ 128
  short : b.bits.toNat < 2 ^ b.len

/-- The bits of the integer, most significant first. -/
def toBits (b : LookupBits) : List Bool := (List.range b.len).map fun i => b.bits.getLsbD (b.len - 1 - i)

@[simp] theorem length_toBits (b : LookupBits) : b.toBits.length = b.len := by
  rw [toBits, List.length_map, List.length_range]

theorem toNat_mod_shift (v : U128) {n : ℕ} (inside : n < 128) :
    (v % ((1 : U128) <<< n)).toNat = v.toNat % 2 ^ n := by
  have room : 2 ^ n < 2 ^ 128 := Nat.pow_lt_pow_right one_lt_two inside
  have power : ((1 : U128) <<< n).toNat = 2 ^ n := by
    rw [BitVec.toNat_shiftLeft, Nat.shiftLeft_eq]
    change 1 * 2 ^ n % 2 ^ 128 = _
    rw [Nat.one_mul, Nat.mod_eq_of_lt room]
  rw [BitVec.toNat_umod, power]

theorem toNat_new (v : U128) {len : ℕ} (fits : len ≤ 128) : (new v len).bits.toNat = v.toNat % 2 ^ len := by
  rw [new]
  split_ifs with inside
  · exact toNat_mod_shift v inside
  · obtain rfl : len = 128 := by omega
    exact (Nat.mod_eq_of_lt v.isLt).symm

theorem valid_new (v : U128) {len : ℕ} (fits : len ≤ 128) : (new v len).Valid :=
  ⟨fits, (toNat_new v fits).trans_lt (Nat.mod_lt _ (Nat.two_pow_pos len))⟩

theorem getLsbD_new (v : U128) {len i : ℕ} (fits : len ≤ 128) (inside : i < len) :
    (new v len).bits.getLsbD i = v.getLsbD i := by
  rw [← BitVec.testBit_toNat, toNat_new v fits, Nat.testBit_mod_two_pow, decide_eq_true inside, Bool.true_and,
    BitVec.testBit_toNat]

/-- The high bits, then the low ones. -/
theorem toBits_append {high low b : LookupBits} (len : high.len + low.len = b.len)
    (highBits : ∀ i < high.len, high.bits.getLsbD i = b.bits.getLsbD (low.len + i))
    (lowBits : ∀ i < low.len, low.bits.getLsbD i = b.bits.getLsbD i) : high.toBits ++ low.toBits = b.toBits := by
  rw [toBits, toBits, toBits, ← len, List.range_add, List.map_append, List.map_map]
  refine congrArg₂ (· ++ ·) (List.map_congr_left fun i member => ?_) (List.map_congr_left fun i member => ?_)
  · have inside := List.mem_range.mp member
    rw [highBits _ (by omega)]
    congr 1
    omega
  · have inside := List.mem_range.mp member
    rw [lowBits _ (by omega), Function.comp_apply]
    congr 1
    omega

/-! ## Cutting in two -/

theorem split_len (b : LookupBits) (k : ℕ) : (b.split k).1.len = b.len - k ∧ (b.split k).2.len = k := ⟨rfl, rfl⟩

theorem toBits_split {b : LookupBits} (valid : b.Valid) {k : ℕ} (inside : k ≤ b.len) (below : k < 128) :
    (b.split k).1.toBits ++ (b.split k).2.toBits = b.toBits := by
  have fits := valid.len
  refine toBits_append ?_ (fun i small => ?_) fun i small => ?_
  · rw [(b.split_len k).1, (b.split_len k).2, Nat.sub_add_cancel inside]
  · rw [(b.split_len k).1] at small
    rw [split, getLsbD_new _ (by omega) small, BitVec.getLsbD_ushiftRight]
    rfl
  · rw [(b.split_len k).2] at small
    rw [split, getLsbD_new _ (by omega) small, ← BitVec.testBit_toNat, toNat_mod_shift _ below,
      Nat.testBit_mod_two_pow, decide_eq_true small, Bool.true_and, BitVec.testBit_toNat]

/-! ## Pulling apart -/

/-- Bit `i` of the left operand is bit `2i + 1` of the integer, and of the right one bit `2i`. -/
theorem uninterleave_bits {b : LookupBits} (valid : b.Valid) :
    b.uninterleave.1.len = b.len / 2 ∧ b.uninterleave.2.len = b.len - b.len / 2 ∧
      (∀ i < b.len / 2, b.uninterleave.1.bits.getLsbD i = b.bits.getLsbD (2 * i + 1)) ∧
      ∀ i < b.len - b.len / 2, b.uninterleave.2.bits.getLsbD i = b.bits.getLsbD (2 * i) := by
  have fits := valid.len
  have wide (x : U64) {i : ℕ} (inside : i < 64) : (x.setWidth 128).getLsbD i = x.getLsbD i := by
    rw [BitVec.getLsbD_setWidth, decide_eq_true (by omega), Bool.true_and]
  refine ⟨rfl, rfl, fun i inside => ?_, fun i inside => ?_⟩
  · rw [← (getLsbD_uninterleave b.bits (by omega)).1, ← wide _ (by omega)]
    exact getLsbD_new _ (by omega) inside
  · rw [← (getLsbD_uninterleave b.bits (by omega)).2, ← wide _ (by omega)]
    exact getLsbD_new _ (by omega) inside

/-! ## Popping -/

/-- A bit as a byte. -/
def byteOfBit (bit : Bool) : BitVec 8 := if bit then 1 else 0

theorem popMsb_eq {b : LookupBits} (valid : b.Valid) (some_ : 0 < b.len) : ∃ rest,
    b.popMsb = some (byteOfBit (b.bits.getLsbD (b.len - 1)), rest) ∧ rest.Valid ∧ rest.len = b.len - 1 ∧
      ∀ i < b.len - 1, rest.bits.getLsbD i = b.bits.getLsbD i := by
  have fits := valid.len
  have below : b.len - 1 < 128 := by omega
  have top : ((b.bits >>> (b.len - 1)) &&& 1).setWidth 8 = byteOfBit (b.bits.getLsbD (b.len - 1)) := by
    apply BitVec.eq_of_getLsbD_eq
    intro i inside
    rw [BitVec.getLsbD_setWidth, BitVec.getLsbD_and, BitVec.getLsbD_ushiftRight, decide_eq_true inside, Bool.true_and]
    cases i with
    | zero => cases b.bits.getLsbD (b.len - 1) <;> simp [byteOfBit]
    | succ i => cases b.bits.getLsbD (b.len - 1) <;> simp [byteOfBit, BitVec.getLsbD_one]
  refine ⟨⟨b.bits % ((1 : U128) <<< (b.len - 1)), b.len - 1⟩, ?_, ⟨(Nat.sub_le _ _).trans fits, ?_⟩, rfl, fun i inside => ?_⟩
  · rw [popMsb, if_neg some_.ne', ← top]
  · exact (toNat_mod_shift _ below).trans_lt (Nat.mod_lt _ (Nat.two_pow_pos _))
  · rw [← BitVec.testBit_toNat, toNat_mod_shift _ below, Nat.testBit_mod_two_pow, decide_eq_true inside,
      Bool.true_and, BitVec.testBit_toNat]

theorem toBits_cons {b rest : LookupBits} (some_ : 0 < b.len) (len : rest.len = b.len - 1)
    (same : ∀ i < b.len - 1, rest.bits.getLsbD i = b.bits.getLsbD i) :
    b.toBits = b.bits.getLsbD (b.len - 1) :: rest.toBits := by
  obtain ⟨n, size⟩ := Nat.exists_eq_succ_of_ne_zero some_.ne'
  rw [toBits, toBits, len, size, List.range_succ_eq_map, List.map_cons, List.map_map, Nat.sub_zero]
  refine congrArg _ (List.map_congr_left fun i member => ?_)
  have inside := List.mem_range.mp member
  rw [Function.comp_apply, Nat.succ_eq_add_one, same _ (by omega)]
  congr 1
  omega

/-- The bits that are popped, and those that are left. -/
theorem popMsbs_eq {b : LookupBits} (valid : b.Valid) {n : ℕ} (inside : n ≤ b.len) : ∃ rest,
    popMsbs n b = some ((b.toBits.take n).map byteOfBit, rest) ∧ rest.toBits = b.toBits.drop n := by
  induction n generalizing b with
  | zero => exact ⟨b, rfl, rfl⟩
  | succ n ih =>
      obtain ⟨rest, popped, kept, len, same⟩ := popMsb_eq valid (by omega)
      obtain ⟨last, ran, left⟩ := ih kept (by omega)
      rw [toBits_cons (by omega) len same, List.take_succ_cons, List.map_cons, List.drop_succ_cons]
      refine ⟨last, ?_, left⟩
      rw [popMsbs, popped]
      simp only [Option.bind_eq_bind, Option.bind_some, ran]
      rfl

/-! ## All three -/

/-- Cut after its first bits, pulled apart and popped, a substring gives the bits of its integer in order. -/
structure Reads (b : LookupBits) (suffixLen : ℕ) : Prop where
  split : ∃ pre suffix, b.splitChecked suffixLen = some (pre, suffix) ∧ pre.len = b.len - suffixLen ∧
    suffix.len = suffixLen ∧ pre.toBits ++ suffix.toBits = b.toBits
  uninterleave : b.uninterleave.1.len = b.len / 2 ∧ b.uninterleave.2.len = b.len - b.len / 2 ∧
    (∀ i < b.len / 2, b.uninterleave.1.bits.getLsbD i = b.bits.getLsbD (2 * i + 1)) ∧
    ∀ i < b.len - b.len / 2, b.uninterleave.2.bits.getLsbD i = b.bits.getLsbD (2 * i)
  pops : ∀ n ≤ b.len, ∃ rest, popMsbs n b = some ((b.toBits.take n).map byteOfBit, rest) ∧
    rest.toBits = b.toBits.drop n

theorem reads_iff {b : LookupBits} (valid : b.Valid) {suffixLen : ℕ} (inside : suffixLen ≤ b.len) :
    b.Reads suffixLen ↔ suffixLen < 128 := by
  constructor
  · rintro ⟨⟨pre, suffix, ran, -⟩, -, -⟩
    by_contra long
    rw [splitChecked, if_pos (.inl (not_lt.mp long))] at ran
    cases ran
  · intro below
    refine ⟨⟨_, _, ?_, (b.split_len suffixLen).1, (b.split_len suffixLen).2, toBits_split valid inside below⟩,
      uninterleave_bits valid, fun n => popMsbs_eq valid⟩
    rw [splitChecked, if_neg (by omega)]

end LookupBits

/-- Interleaving and its inverse, and the readings of a substring: all but the cut that leaves no prefix of 128
bits. -/
theorem lookupBits_read (x y : U64) (v : U128) {b : LookupBits} (valid : b.Valid) {suffixLen : ℕ}
    (inside : suffixLen ≤ b.len) :
    (uninterleaveBits (interleaveBits x y) = (x, y) ∧
      interleaveBits (uninterleaveBits v).1 (uninterleaveBits v).2 = v ∧ b.Reads suffixLen) ↔ suffixLen < 128 := by
  rw [← LookupBits.reads_iff valid inside]
  exact ⟨fun ⟨_, _, reads⟩ => reads,
    fun reads => ⟨uninterleave_interleave x y, interleave_uninterleave v, reads⟩⟩

/-- 128 bits, cut into all of them and none. -/
theorem lookupBits_read_whole : ¬ ((∀ x y : U64, uninterleaveBits (interleaveBits x y) = (x, y)) ∧
    (∀ v : U128, interleaveBits (uninterleaveBits v).1 (uninterleaveBits v).2 = v) ∧
    ∀ b : LookupBits, b.Valid → ∀ suffixLen ≤ b.len, b.Reads suffixLen) := by
  rintro ⟨-, -, always⟩
  have valid : (LookupBits.new 5 128).Valid := LookupBits.valid_new 5 (le_refl 128)
  obtain ⟨⟨pre, suffix, ran, -⟩, -, -⟩ := always _ valid 128 (le_refl 128)
  rw [LookupBits.splitChecked, if_pos (.inl (le_refl 128))] at ran
  cases ran

/-- An odd number of bits, cut inside a pair. -/
theorem lookupBits_read_odd : uninterleaveBits (interleaveBits 6 (2 ^ 64 - 1)) = (6, 2 ^ 64 - 1) ∧
    interleaveBits (uninterleaveBits 0b100111).1 (uninterleaveBits 0b100111).2 = 0b100111 ∧
    (LookupBits.new 0b1101011 7).Reads 3 :=
  (lookupBits_read 6 (2 ^ 64 - 1) 0b100111 (LookupBits.valid_new _ (by decide)) (by decide)).mpr (by decide)

end JoltWasm
