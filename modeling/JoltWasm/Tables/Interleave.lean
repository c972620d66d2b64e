import JoltWasm.Lib.JoinHom
import JoltWasm.Ir.Alu

/-!
# Interleaved lookup indices

The 128-bit index of a table of two operands holds bit `i` of the left operand at position
`2i + 1` and bit `i` of the right operand at position `2i`.  Both directions are the mask-and-shift
cascades of the source.
-/

namespace JoltWasm

open Lib

/-- Rust's `u128`. -/
abbrev U128 := BitVec 128

/-- Spread the 64 low bits over the even positions. -/
def spreadBits (v : U128) : U128 :=
  let v := (v ||| v <<< 32) &&& 0x00000000FFFFFFFF00000000FFFFFFFF
  let v := (v ||| v <<< 16) &&& 0x0000FFFF0000FFFF0000FFFF0000FFFF
  let v := (v ||| v <<< 8) &&& 0x00FF00FF00FF00FF00FF00FF00FF00FF
  let v := (v ||| v <<< 4) &&& 0x0F0F0F0F0F0F0F0F0F0F0F0F0F0F0F0F
  let v := (v ||| v <<< 2) &&& 0x33333333333333333333333333333333
  (v ||| v <<< 1) &&& 0x55555555555555555555555555555555

def interleaveBits (x y : U64) : U128 :=
  spreadBits (x.setWidth 128) <<< 1 ||| spreadBits (y.setWidth 128)

/-- Gather the even positions into the 64 low bits. -/
def gatherBits (v : U128) : U128 :=
  let v := (v ||| v >>> 1) &&& 0x33333333333333333333333333333333
  let v := (v ||| v >>> 2) &&& 0x0F0F0F0F0F0F0F0F0F0F0F0F0F0F0F0F
  let v := (v ||| v >>> 4) &&& 0x00FF00FF00FF00FF00FF00FF00FF00FF
  let v := (v ||| v >>> 8) &&& 0x0000FFFF0000FFFF0000FFFF0000FFFF
  let v := (v ||| v >>> 16) &&& 0x00000000FFFFFFFF00000000FFFFFFFF
  (v ||| v >>> 32) &&& 0x0000000000000000FFFFFFFFFFFFFFFF

/-- The even positions. -/
def evenMask : U128 := 0x55555555555555555555555555555555

def uninterleaveBits (v : U128) : U64 × U64 :=
  ((gatherBits (v >>> 1 &&& evenMask)).setWidth 64, (gatherBits (v &&& evenMask)).setWidth 64)

/-- One step of a cascade preserves bitwise or. -/
private theorem step_join (s : ℕ) (mask : U128) :
    IsJoinHom (fun v : U128 => (v ||| v <<< s) &&& mask) ∧
      IsJoinHom (fun v : U128 => (v ||| v >>> s) &&& mask) :=
  ⟨(IsJoinHom.and mask).comp (IsJoinHom.id.join (.shiftLeft s)),
    (IsJoinHom.and mask).comp (IsJoinHom.id.join (.ushiftRight s))⟩

theorem spreadBits_join : IsJoinHom spreadBits :=
  (step_join 1 _).1.comp ((step_join 2 _).1.comp ((step_join 4 _).1.comp ((step_join 8 _).1.comp
    ((step_join 16 _).1.comp (step_join 32 _).1))))

theorem gatherBits_join : IsJoinHom gatherBits :=
  (step_join 32 _).2.comp ((step_join 16 _).2.comp ((step_join 8 _).2.comp ((step_join 4 _).2.comp
    ((step_join 2 _).2.comp (step_join 1 _).2))))

/-- Spreading a word. -/
private theorem spread_word_join : IsJoinHom fun x : U64 => spreadBits (x.setWidth 128) :=
  spreadBits_join.comp .setWidth

/-- The left and the right half of an index, of a vector that preserves bitwise or. -/
private theorem halves_join {n : ℕ} {f : BitVec n → U128} (hf : IsJoinHom f) :
    IsJoinHom (fun x => (gatherBits (f x >>> 1 &&& evenMask)).setWidth 64) ∧
      IsJoinHom (fun x => (gatherBits (f x &&& evenMask)).setWidth 64) :=
  ⟨IsJoinHom.setWidth.comp (gatherBits_join.comp ((IsJoinHom.and _).comp
      ((IsJoinHom.ushiftRight 1).comp hf))),
    IsJoinHom.setWidth.comp (gatherBits_join.comp ((IsJoinHom.and _).comp hf))⟩

/-- The constant zero map. -/
private theorem zero_join : IsJoinHom fun _ : U64 => (0 : U64) := ⟨rfl, fun _ _ => rfl⟩

/-- The halves of an index with only a left operand. -/
private theorem uninterleave_left (x : U64) :
    uninterleaveBits (spreadBits (x.setWidth 128) <<< 1) = (x, 0) := by
  have join := halves_join ((IsJoinHom.shiftLeft 1).comp spread_word_join)
  exact Prod.ext (join.1.ext .id (by decide) x) (join.2.ext zero_join (by decide) x)

/-- The halves of an index with only a right operand. -/
private theorem uninterleave_right (y : U64) :
    uninterleaveBits (spreadBits (y.setWidth 128)) = (0, y) := by
  have join := halves_join spread_word_join
  exact Prod.ext (join.1.ext zero_join (by decide) y) (join.2.ext .id (by decide) y)

/-- Uninterleaving recovers the operands. -/
theorem uninterleave_interleave (x y : U64) : uninterleaveBits (interleaveBits x y) = (x, y) := by
  obtain ⟨left, right⟩ := halves_join (IsJoinHom.id (n := 128))
  have split : uninterleaveBits (interleaveBits x y) =
      ((uninterleaveBits (spreadBits (x.setWidth 128) <<< 1)).1 |||
          (uninterleaveBits (spreadBits (y.setWidth 128))).1,
        (uninterleaveBits (spreadBits (x.setWidth 128) <<< 1)).2 |||
          (uninterleaveBits (spreadBits (y.setWidth 128))).2) :=
    Prod.ext (left.or _ _) (right.or _ _)
  rw [split, uninterleave_left, uninterleave_right]
  simp

/-! ## The bits of the halves -/

/-- The halves of an index with a single bit. -/
private theorem uninterleave_twoPow : ∀ j < 128,
    uninterleaveBits (BitVec.twoPow 128 j) =
      if j % 2 = 1 then (BitVec.twoPow 64 (j / 2), 0) else (0, BitVec.twoPow 64 (j / 2)) := by
  decide +kernel

/-- Bit `i` of a vector, as a vector of one bit. -/
private theorem getLsbD_eq_bit {n : ℕ} (v : BitVec n) (i : ℕ) :
    v.getLsbD i = ((v >>> i).setWidth 1).getLsbD 0 := by
  simp

/-- The operands of an index hold its odd and its even bits. -/
theorem getLsbD_uninterleave (v : U128) {i : ℕ} (inside : i < 64) :
    (uninterleaveBits v).1.getLsbD i = v.getLsbD (2 * i + 1) ∧
      (uninterleaveBits v).2.getLsbD i = v.getLsbD (2 * i) := by
  obtain ⟨left, right⟩ := halves_join (IsJoinHom.id (n := 128))
  have bit {f : U128 → U64} (hf : IsJoinHom f) :
      IsJoinHom fun v => (f v >>> i).setWidth 1 :=
    IsJoinHom.setWidth.comp ((IsJoinHom.ushiftRight i).comp hf)
  have source (k : ℕ) : IsJoinHom fun v : U128 => (v >>> k).setWidth 1 :=
    IsJoinHom.setWidth.comp (.ushiftRight k)
  constructor
  · rw [getLsbD_eq_bit, getLsbD_eq_bit v]
    congr 1
    refine (bit left).ext (source (2 * i + 1)) (fun j hj => ?_) v
    change ((uninterleaveBits (BitVec.twoPow 128 j)).1 >>> i).setWidth 1 = _
    rw [uninterleave_twoPow j hj]
    apply BitVec.eq_of_getLsbD_eq
    intro b hb
    obtain rfl : b = 0 := by omega
    split <;> simp [BitVec.getLsbD_twoPow] <;> grind
  · rw [getLsbD_eq_bit, getLsbD_eq_bit v]
    congr 1
    refine (bit right).ext (source (2 * i)) (fun j hj => ?_) v
    change ((uninterleaveBits (BitVec.twoPow 128 j)).2 >>> i).setWidth 1 = _
    rw [uninterleave_twoPow j hj]
    apply BitVec.eq_of_getLsbD_eq
    intro b hb
    obtain rfl : b = 0 := by omega
    split <;> simp [BitVec.getLsbD_twoPow] <;> grind

end JoltWasm
