import JoltWasm.Field.SmallScalar
import JoltWasm.Field.WideReduce
import JoltWasm.R1cs.Field

/-!
# Elements in and out of the accumulators

An element enters an accumulator by its Montgomery limbs and leaves it by the limbs of the reduction.  What a
list of calls leaves is the sum of their values, while the sums stay in range.
-/

namespace JoltWasm

open Lib

namespace Mont

instance : Fact order.Prime := ⟨prime_bn254Order⟩

/-! ## Elements and limbs -/

/-- The integer of an element's Montgomery form. -/
def montgomeryForm (x : ZMod order) : ℕ := (x * 2 ^ 256).val

theorem montgomeryForm_lt (x : ZMod order) : montgomeryForm x < order := ZMod.val_lt _

/-- The limbs of an element. -/
def Fr.ofValue (x : ZMod order) : Fr :=
  ⟨limbsOfNat (montgomeryForm x), by
    rw [toNat_limbsOfNat (montgomeryForm_lt x)]
    exact montgomeryForm_lt x⟩

@[simp] theorem Fr.value_ofValue (x : ZMod order) : (Fr.ofValue x).value = x := by
  rw [value, ofValue, toNat_limbsOfNat (montgomeryForm_lt x), montgomeryForm, ZMod.natCast_zmod_val, mul_assoc,
    r_mul_inv, mul_one]

theorem Fr.toNat_ofValue (x : ZMod order) : (Fr.ofValue x).limbs.toNat = montgomeryForm x :=
  toNat_limbsOfNat (montgomeryForm_lt x)

/-- The element of the limbs that a reduction returns. -/
def element (a : Limbs 4) : ZMod order := a.toNat * (2 ^ 256)⁻¹

theorem IsMontgomery.element_eq {a : Limbs 4} {x : ZMod order} (is : IsMontgomery a x) : element a = x := is.value_eq

/-! ## Lists of calls -/

/-- The history of calls on a fresh accumulator. -/
def History.ofCalls (calls : List Op) : History := calls.foldl .op .default

variable {ark : ArkFr} {A : Type} {acc : Accumulator ark A}

namespace History

theorem ofCalls_concat (calls : List Op) (call : Op) : ofCalls (calls ++ [call]) = .op (ofCalls calls) call :=
  List.foldl_concat _ _ _ _

theorem run_ofCalls_concat (calls : List Op) (call : Op) :
    (ofCalls (calls ++ [call])).run acc = call.apply acc ((ofCalls calls).run acc) := by
  rw [ofCalls_concat, run]

@[simp] theorem value_ofCalls (calls : List Op) : (ofCalls calls).value = (calls.map Op.value).sum := by
  induction calls using List.reverseRecOn with
  | nil => rfl
  | append_singleton calls call ih =>
      rw [ofCalls_concat, value, ih, List.map_append, List.sum_append, List.map_singleton, List.sum_singleton]

@[simp] theorem terms_ofCalls (calls : List Op) : (ofCalls calls).terms = calls.length := by
  induction calls using List.reverseRecOn with
  | nil => rfl
  | append_singleton calls call ih => rw [ofCalls_concat, terms, ih, List.length_append, List.length_singleton]

theorem raw_ofCalls (ark : ArkFr) (calls : List Op) : (ofCalls calls).raw ark = (calls.map (Op.raw ark)).sum := by
  induction calls using List.reverseRecOn with
  | nil => rfl
  | append_singleton calls call ih =>
      rw [ofCalls_concat, raw, ih, List.map_append, List.sum_append, List.map_singleton, List.sum_singleton]

end History

/-! ## Loops -/

/-- A loop that makes one call on each of several accumulators in every step. -/
theorem foldlM_calls {β ι : Type} (slots : List ι) (call : β → ι → Op) {step : List A → β → Option (List A)} (bs : List β)
    (steps : ∀ b ∈ bs, ∀ calls : ι → List Op,
      step (slots.map fun slot => (History.ofCalls (calls slot)).run acc) b =
        some (slots.map fun slot => (History.ofCalls (calls slot ++ [call b slot])).run acc))
    (calls : ι → List Op) :
    bs.foldlM step (slots.map fun slot => (History.ofCalls (calls slot)).run acc) =
      some (slots.map fun slot => (History.ofCalls (calls slot ++ bs.map (call · slot))).run acc) := by
  induction bs generalizing calls with
  | nil => simp
  | cons b bs ih =>
      rw [List.foldlM_cons, steps b List.mem_cons_self, Option.bind_eq_bind, Option.bind_some,
        ih (fun b member => steps b (List.mem_cons_of_mem _ member)) fun slot => calls slot ++ [call b slot]]
      simp only [List.append_assoc, List.singleton_append, List.map_cons]

/-! ## What the accumulators return -/

/-- The reduction of a signed-product accumulator; a build with overflow checks stops at an overflow. -/
def FrSignedProductAccumulator.result (ark : ArkFr) (acc : FrSignedProductAccumulator) : Option (ZMod order) :=
  if acc.pos.overflowed || acc.neg.overflowed then none else some (element (reduce ark acc))

theorem FrSignedProductAccumulator.result_ofCalls (ark : ArkFr) {calls : List Op} (few : calls.length ≤ 2 ^ 61) :
    result ark ((History.ofCalls calls).run (accumulator ark)) = some (calls.map Op.value).sum := by
  obtain ⟨-, ⟨pos, neg⟩, exact_⟩ := wideSums_exact ark (History.ofCalls calls) (by rwa [History.terms_ofCalls])
  rw [result, pos, neg, if_neg (by decide), ← History.value_ofCalls]
  exact congrArg some exact_.element_eq

/-- The reduction of the accumulator of products. -/
def WideAccumulator.result (ark : ArkFr) (acc : Slots) : Option (ZMod order) :=
  if acc.overflowed then none else some (element ((accumulator ark).reduce acc))

theorem WideAccumulator.result_ofCalls (ark : ArkFr) {calls : List Op} (few : calls.length ≤ 2 ^ 61) :
    result ark ((History.ofCalls calls).run (accumulator ark)) = some (calls.map Op.value).sum := by
  obtain ⟨⟨kept, exact_⟩, -⟩ := wideSums_exact ark (History.ofCalls calls) (by rwa [History.terms_ofCalls])
  rw [result, kept, if_neg (by decide), ← History.value_ofCalls]
  exact congrArg some exact_.element_eq

/-- The reduction of a small-scalar accumulator. -/
def FrSmallScalarAccumulator.result (ark : ArkFr) (acc : FrSmallScalarAccumulator) : ZMod order :=
  element (reduce ark acc)

/-- The raw sum of products by unsigned scalars. -/
def rawSum (products : List (ZMod order × U64)) : ℕ :=
  (products.map fun p => montgomeryForm p.1 * p.2.val).sum

/-- The calls of these products. -/
def productCalls (products : List (ZMod order × U64)) : List Op := products.map fun p => .fmaddU64 (.ofValue p.1) p.2

theorem raw_productCalls (ark : ArkFr) (products : List (ZMod order × U64)) :
    (History.ofCalls (productCalls products)).raw ark = (rawSum products, 0) := by
  rw [History.raw_ofCalls]
  induction products with
  | nil => rfl
  | cons p products ih =>
      rw [productCalls, List.map_cons, List.map_cons, List.sum_cons, ← productCalls, ih, Op.raw, Fr.toNat_ofValue]
      rfl

/-- Products by unsigned scalars are summed exactly while their raw sum is below `2^318`. -/
theorem FrSmallScalarAccumulator.result_productCalls (ark : ArkFr) {products : List (ZMod order × U64)}
    (small : rawSum products < 2 ^ 318) :
    result ark ((History.ofCalls (productCalls products)).run (accumulator ark)) =
      (products.map fun p => p.1 * (p.2.val : ZMod order)).sum := by
  have raw := raw_productCalls ark products
  have fits : rawSum products < 2 ^ 320 := small.trans (Nat.pow_lt_pow_right one_lt_two (by omega : 318 < 320))
  have is := (reduce_run_iff ark (History.ofCalls (productCalls products)) (by rwa [raw]) (by rw [raw]; norm_num)).mpr
    (by rwa [raw, Nat.dist_zero_right])
  rw [result, is.element_eq, History.value_ofCalls, productCalls, List.map_map]
  refine congrArg List.sum (List.map_congr_left fun p _ => ?_)
  rw [Function.comp_apply, Op.value, Fr.value_ofValue]

end Mont

end JoltWasm
