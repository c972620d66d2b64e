import Mathlib.Data.List.GetD
import JoltWasm.Lib.Extension

/-!
# Permuting the variables of a table

The entries of a table are moved with the bits of their indices.  The extension of the table that comes
out is the old one at the point with its coordinates moved.
-/

namespace JoltWasm.Lib

open Finset

/-- The index whose bit `sources[i]` is bit `i` of `k`. -/
def gatherBits (sources : List ℕ) (k : ℕ) : ℕ :=
  sources.zipIdx.foldl (fun index (old, new) => index ||| (((k >>> new) &&& 1) <<< old)) 0

/-- At each entry of a list, its position. -/
def invertList (l : List ℕ) : List ℕ :=
  l.zipIdx.foldl (fun table (entry, position) => table.set entry position) (List.replicate l.length 0)

/-! ## Inverting a permutation -/

section

/-- Write values at positions. -/
def assign (table : List ℕ) (writes : List (ℕ × ℕ)) : List ℕ :=
  writes.foldl (fun table (position, value) => table.set position value) table

@[simp] theorem length_assign (table : List ℕ) (writes : List (ℕ × ℕ)) :
    (assign table writes).length = table.length := by
  induction writes generalizing table with
  | nil => rfl
  | cons write writes ih => exact (ih _).trans List.length_set

theorem getElem?_assign_other {table : List ℕ} {writes : List (ℕ × ℕ)} {position : ℕ}
    (other : ∀ write ∈ writes, write.1 ≠ position) : (assign table writes)[position]? = table[position]? := by
  induction writes generalizing table with
  | nil => rfl
  | cons write writes ih =>
      refine (ih fun later member => other later (List.mem_cons_of_mem _ member)).trans ?_
      exact List.getElem?_set_ne (other write List.mem_cons_self)

/-- With different positions each write stays. -/
theorem getElem?_assign {table : List ℕ} {writes : List (ℕ × ℕ)} (different : (writes.map Prod.fst).Nodup)
    {position value : ℕ} (member : (position, value) ∈ writes) (inside : position < table.length) :
    (assign table writes)[position]? = some value := by
  induction writes generalizing table with
  | nil => cases member
  | cons write writes ih =>
      rw [List.map_cons, List.nodup_cons] at different
      rcases List.mem_cons.mp member with rfl | member
      · have other : ∀ later ∈ writes, later.1 ≠ position := fun later inLater same =>
          different.1 (List.mem_map.mpr ⟨later, inLater, same⟩)
        exact (getElem?_assign_other other).trans (List.getElem?_set_self inside)
      · exact ih different.2 member (by rwa [List.length_set])

theorem invertList_eq (l : List ℕ) : invertList l = assign (List.replicate l.length 0) l.zipIdx := rfl

@[simp] theorem length_invertList (l : List ℕ) : (invertList l).length = l.length := by
  rw [invertList_eq, length_assign, List.length_replicate]

/-- The inverse of different positions. -/
theorem getElem?_invertList {l : List ℕ} (different : l.Nodup) {entry position : ℕ}
    (at_ : l[position]? = some entry) (inside : entry < l.length) :
    (invertList l)[entry]? = some position := by
  refine getElem?_assign ?_ (List.mk_mem_zipIdx_iff_getElem?.mpr at_) (by rwa [List.length_replicate])
  rwa [List.zipIdx_map_fst]

/-- A permutation of the positions of a list. -/
structure IsPermutation (l : List ℕ) : Prop where
  nodup : l.Nodup
  bounded : ∀ entry ∈ l, entry < l.length

namespace IsPermutation

variable {l : List ℕ} (perm : IsPermutation l)
include perm

theorem mem_of_lt {entry : ℕ} (inside : entry < l.length) : entry ∈ l := by
  have subset : l.toFinset ⊆ range l.length := fun entry member =>
    mem_range.mpr (perm.bounded entry (List.mem_toFinset.mp member))
  have all : l.toFinset = range l.length :=
    eq_of_subset_of_card_le subset (by rw [card_range, List.toFinset_card_of_nodup perm.nodup])
  rw [← List.mem_toFinset, all]
  exact mem_range.mpr inside

theorem exists_position {entry : ℕ} (inside : entry < l.length) : ∃ position : ℕ, l[position]? = some entry :=
  List.mem_iff_getElem?.mp (perm.mem_of_lt inside)

theorem invert_of_getElem? {position entry : ℕ} (at_ : l[position]? = some entry) :
    (invertList l)[entry]? = some position :=
  getElem?_invertList perm.nodup at_ (perm.bounded entry (List.mem_of_getElem? at_))

theorem invert : IsPermutation (invertList l) := by
  have at_ {entry position : ℕ} (found : (invertList l)[entry]? = some position) :
      l[position]? = some entry := by
    have inside : entry < l.length := by
      rw [← length_invertList l]
      exact (List.getElem?_eq_some_iff.mp found).1
    obtain ⟨source, source_⟩ := perm.exists_position inside
    rw [perm.invert_of_getElem? source_, Option.some_inj] at found
    rwa [← found]
  constructor
  · rw [List.nodup_iff_getElem?_ne_getElem?]
    intro first second less inside same
    obtain ⟨position, found⟩ : ∃ position : ℕ, (invertList l)[second]? = some position :=
      ⟨_, List.getElem?_eq_getElem inside⟩
    have both := at_ (same.trans found)
    rw [at_ found, Option.some_inj] at both
    omega
  · intro position member
    obtain ⟨entry, found⟩ := List.mem_iff_getElem?.mp member
    rw [length_invertList]
    exact (List.getElem?_eq_some_iff.mp (at_ found)).1

/-- Inverting twice gives the permutation back. -/
theorem invert_invert : invertList (invertList l) = l := by
  refine List.ext_getElem? fun position => ?_
  rcases Nat.lt_or_ge position l.length with inside | outside
  · have at_ := List.getElem?_eq_getElem inside
    rw [at_]
    exact perm.invert.invert_of_getElem? (perm.invert_of_getElem? at_)
  · rw [List.getElem?_eq_none outside, List.getElem?_eq_none (by simpa using outside)]

end IsPermutation

theorem isPermutation_range (n : ℕ) : IsPermutation (List.range n) :=
  ⟨List.nodup_range, fun entry member => by
    rw [List.length_range]
    exact List.mem_range.mp member⟩

theorem invertList_range (n : ℕ) : invertList (List.range n) = List.range n := by
  refine List.ext_getElem? fun position => ?_
  rcases Nat.lt_or_ge position n with inside | outside
  · have at_ : (List.range n)[position]? = some position := List.getElem?_range inside
    rw [at_]
    exact (isPermutation_range n).invert_of_getElem? at_
  · rw [List.getElem?_eq_none (by simpa using outside), List.getElem?_eq_none (by simpa using outside)]

end

/-! ## Bits -/

theorem testBit_moveBit (k old new b : ℕ) :
    (((k >>> new) &&& 1) <<< old).testBit b = (decide (old = b) && k.testBit new) := by
  rw [Nat.testBit_shiftLeft, Nat.testBit_and, Nat.testBit_shiftRight]
  rcases Nat.lt_trichotomy b old with below | rfl | above
  · simp [below.ne', Nat.not_le.mpr below]
  · simp
  · have later : Nat.testBit 1 (b - old) = false := by
      rw [← Bool.not_eq_true, Nat.testBit_one_eq_true_iff_self_eq_zero]
      omega
    simp [later, above.ne]

theorem testBit_foldMoves (moves : List (ℕ × ℕ)) (k index b : ℕ) :
    (moves.foldl (fun index (old, new) => index ||| (((k >>> new) &&& 1) <<< old)) index).testBit b =
      (index.testBit b || moves.any fun move => decide (move.1 = b) && k.testBit move.2) := by
  induction moves generalizing index with
  | nil => simp
  | cons move moves ih =>
      rw [List.foldl_cons, ih, Nat.testBit_or, testBit_moveBit, List.any_cons, Bool.or_assoc]

variable {sources : List ℕ}

theorem testBit_gatherBits (different : sources.Nodup) (k : ℕ) {old new : ℕ}
    (at_ : sources[new]? = some old) : (gatherBits sources k).testBit old = k.testBit new := by
  rw [gatherBits, testBit_foldMoves, Nat.zero_testBit, Bool.false_or, Bool.eq_iff_iff, List.any_eq_true]
  constructor
  · rintro ⟨⟨old', new'⟩, member, both⟩
    rw [Bool.and_eq_true, decide_eq_true_iff] at both
    obtain ⟨rfl, bit⟩ := both
    have same := List.mk_mem_zipIdx_iff_getElem?.mp member
    have inside : new < sources.length := (List.getElem?_eq_some_iff.mp at_).1
    have := (List.getElem?_inj inside different).mp (at_.trans same.symm)
    rwa [this]
  · intro bit
    exact ⟨(old, new), List.mk_mem_zipIdx_iff_getElem?.mpr at_, by simpa using bit⟩

theorem testBit_gatherBits_other (k : ℕ) {b : ℕ} (other : b ∉ sources) :
    (gatherBits sources k).testBit b = false := by
  rw [gatherBits, testBit_foldMoves, Nat.zero_testBit, Bool.false_or, List.any_eq_false]
  rintro ⟨old, new⟩ member both
  rw [Bool.and_eq_true, decide_eq_true_iff] at both
  have at_ := List.mk_mem_zipIdx_iff_getElem?.mp member
  exact other (both.1 ▸ List.mem_of_getElem? at_)

namespace IsPermutation

variable (perm : IsPermutation sources)
include perm

theorem gatherBits_lt (k : ℕ) : gatherBits sources k < 2 ^ sources.length := by
  refine Nat.lt_pow_two_of_testBit _ fun b high => testBit_gatherBits_other k fun member => ?_
  exact Nat.not_lt.mpr high (perm.bounded b member)

theorem gatherBits_inj {j k : ℕ} (inJ : j < 2 ^ sources.length) (inK : k < 2 ^ sources.length)
    (same : gatherBits sources j = gatherBits sources k) : j = k := by
  refine Nat.eq_of_testBit_eq fun new => ?_
  rcases Nat.lt_or_ge new sources.length with inside | outside
  · have at_ := List.getElem?_eq_getElem inside
    rw [← testBit_gatherBits perm.nodup j at_, ← testBit_gatherBits perm.nodup k at_, same]
  · have wide : 2 ^ sources.length ≤ 2 ^ new := Nat.pow_le_pow_right two_pos outside
    rw [Nat.testBit_lt_two_pow (inJ.trans_le wide), Nat.testBit_lt_two_pow (inK.trans_le wide)]

end IsPermutation

theorem gatherBits_range {n k : ℕ} (small : k < 2 ^ n) : gatherBits (List.range n) k = k := by
  refine Nat.eq_of_testBit_eq fun b => ?_
  rcases Nat.lt_or_ge b n with inside | outside
  · exact testBit_gatherBits List.nodup_range k (List.getElem?_range inside)
  · rw [testBit_gatherBits_other k (by simpa using outside),
      Nat.testBit_lt_two_pow (small.trans_le (Nat.pow_le_pow_right two_pos outside))]

/-! ## Weights -/

/-- A map of the first numbers to themselves that is injective is onto. -/
theorem image_range_eq {n : ℕ} {move : ℕ → ℕ} (maps : ∀ i < n, move i < n)
    (injective : ∀ i < n, ∀ j < n, move i = move j → i = j) : (range n).image move = range n := by
  refine eq_of_subset_of_card_le (image_subset_iff.mpr fun i member => ?_) ?_
  · exact mem_range.mpr (maps i (mem_range.mp member))
  · rw [card_image_of_injOn fun i inI j inJ => injective i (by simpa using inI) j (by simpa using inJ)]

section

variable {F : Type*} [CommRing F]

/-- The weight that a coordinate gives a bit. -/
def bitWeight (c : F) (bit : Bool) : F := if bit then c else 1 - c

/-- The weight of an index, low coordinate first. -/
theorem eqWeight_reverse (point : List F) (k : ℕ) :
    eqWeight point.reverse k = ∏ i ∈ range point.length, bitWeight (point.getD i 0) (k.testBit i) := by
  induction point using List.reverseRecOn with
  | nil => rfl
  | append_singleton point c ih =>
      rw [List.reverse_append, List.reverse_singleton, List.singleton_append, eqWeight, ih,
        List.length_reverse, List.length_append, List.length_singleton, prod_range_succ,
        List.getD_append_right _ _ _ _ le_rfl, Nat.sub_self, mul_comm]
      refine congrArg (· * _) (prod_congr rfl fun i member => ?_)
      rw [List.getD_append _ _ _ _ (mem_range.mp member)]

/-- The indices that are gathered are all indices. -/
theorem sum_gatherBits {M : Type*} [AddCommMonoid M] (perm : IsPermutation sources) (h : ℕ → M) :
    ∑ k ∈ range (2 ^ sources.length), h (gatherBits sources k) = ∑ k ∈ range (2 ^ sources.length), h k := by
  have indices : (range (2 ^ sources.length)).image (gatherBits sources) = range (2 ^ sources.length) :=
    image_range_eq (fun k _ => perm.gatherBits_lt k) fun j inJ k inK => perm.gatherBits_inj inJ inK
  conv_rhs => rw [← indices]
  rw [sum_image fun j inJ k inK same => perm.gatherBits_inj (mem_range.mp inJ) (mem_range.mp inK) same]

/-- The permuted table at the point with its coordinates moved. -/
theorem extension_gatherBits (perm : IsPermutation sources) (f : ℕ → F) {moved point : List F}
    (movedLength : moved.length = sources.length) (pointLength : point.length = sources.length)
    (moves : ∀ new < sources.length, moved.getD new 0 = point.getD (sources.getD new 0) 0) :
    extension (fun k => f (gatherBits sources k)) moved.reverse = extension f point.reverse := by
  have at_ : ∀ new < sources.length, sources[new]? = some (sources.getD new 0) := fun new inside => by
    rw [List.getD_eq_getElem _ _ inside, List.getElem?_eq_getElem inside]
  have injective : ∀ i < sources.length, ∀ j < sources.length,
      sources.getD i 0 = sources.getD j 0 → i = j :=
    fun i inI j inJ => (List.getD_inj inI inJ perm.nodup).mp
  have positions : (range sources.length).image (fun new => sources.getD new 0) = range sources.length :=
    image_range_eq (fun new inside => perm.bounded _ (List.mem_of_getElem? (at_ new inside))) injective
  have weights (k : ℕ) : eqWeight moved.reverse k = eqWeight point.reverse (gatherBits sources k) := by
    rw [eqWeight_reverse, eqWeight_reverse, movedLength, pointLength]
    conv_rhs => rw [← positions]
    rw [prod_image fun i inI j inJ => injective i (mem_range.mp inI) j (mem_range.mp inJ)]
    refine prod_congr rfl fun new member => ?_
    have inside := mem_range.mp member
    rw [moves new inside, testBit_gatherBits perm.nodup k (at_ new inside)]
  unfold extension
  rw [List.length_reverse, List.length_reverse, movedLength, pointLength]
  rw [← sum_gatherBits perm fun k => f k * eqWeight point.reverse k]
  exact sum_congr rfl fun k _ => by rw [weights k]

end

end JoltWasm.Lib
