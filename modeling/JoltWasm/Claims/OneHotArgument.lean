import JoltWasm.Claims.OneHotRelations
import JoltWasm.Lib.Keeps
import JoltWasm.Lib.OneHot
import JoltWasm.Lib.Scatter

/-!
# The argument for one-hot columns

Over arbitrary columns the booleanity check and the reduction of the Hamming weights hold for every challenge
exactly when each column of an instruction or of the bytecode is hot at one entry in every cycle, and the columns
of the RAM are all hot or all cold, as the weight of the cycle says.
-/

namespace JoltWasm.Stages

open Lib Finset VerifierStop

section

variable {F : Type} [Field F]

theorem eqMle_append {a b c d : List F} (length : a.length = b.length) :
    eqMle (a ++ c) (b ++ d) = eqMle a b * eqMle c d := by
  rw [eqMle, List.zipWith_append length, List.prod_append]
  rfl

theorem eqMle_reverse {a b : List F} (length : a.length = b.length) : eqMle a.reverse b.reverse = eqMle a b := by
  rw [eqMle, ← List.reverse_zipWith length, List.prod_reverse]
  rfl

theorem eqMle_corner {n j : ℕ} {point : List F} (length : point.length = n) (inside : j < 2 ^ n) :
    eqMle (bitPoint F n j) point = eqWeight point j := by
  rw [eqMle_comm, eqMle_eq (length.trans (length_bitPoint _ _).symm), extension_bitPoint _ inside]

/-- The sum over the corners of a grid, with the weights of an address and of a cycle. -/
theorem cubeSum_eqMle_eqMle {m n : ℕ} {address cycle : List F} (width : address.length = m) (length : cycle.length = n)
    (g : List F → List F → F) :
    cubeSum m (fun a => cubeSum n fun c => eqMle a address * (eqMle c cycle * g a c)) =
      extension (gridColumn n fun k j => g (bitPoint F m k) (bitPoint F n j)) (address ++ cycle) := by
  rw [extension_gridColumn _ _ length]
  simp only [cubeSum_mul]
  rw [cubeSum_weights width fun k inside => eqMle_corner width inside]
  exact extension_congr fun k _ => cubeSum_weights length fun j inside => eqMle_corner length inside

/-- Every point of the width of a chunk is a reference address. -/
theorem exists_referenceAddress (addressBits : ℕ) {reference : List F} {chunkBits : ℕ} (width : reference.length = chunkBits) :
    ∃ instructionRAddress drawn : List F, instructionRAddress.length = addressBits ∧
      drawn.length = chunkBits - addressBits ∧ referenceAddress instructionRAddress chunkBits drawn = reference := by
  by_cases wide : addressBits < chunkBits
  · refine ⟨(reference.take addressBits).reverse, reference.drop addressBits, ?_, ?_, ?_⟩
    · rw [List.length_reverse, List.length_take, width, Nat.min_eq_left wide.le]
    · rw [List.length_drop, width]
    · have short : (reference.take addressBits).length < chunkBits := by
        rw [List.length_take, width]
        omega
      rw [referenceAddress, List.reverse_reverse]
      exact (if_pos short).trans (List.take_append_drop _ _)
  · have long : (List.replicate (addressBits - chunkBits) (0 : F) ++ reference).length = addressBits := by
      rw [List.length_append, List.length_replicate, width]
      omega
    refine ⟨(List.replicate (addressBits - chunkBits) 0 ++ reference).reverse, [], ?_, ?_, ?_⟩
    · rw [List.length_reverse, long]
    · rw [List.length_nil]
      omega
    · rw [referenceAddress, List.reverse_reverse]
      refine (if_neg (by rwa [long])).trans ?_
      rw [long, List.drop_append, List.length_replicate, List.drop_replicate, Nat.sub_self]
      simp

omit [Field F] in
theorem length_referenceAddress {instructionRAddress drawn : List F} {chunkBits : ℕ}
    (enough : drawn.length = chunkBits - instructionRAddress.length) :
    (referenceAddress instructionRAddress chunkBits drawn).length = chunkBits := by
  rw [referenceAddress]
  simp only [List.length_reverse]
  split_ifs with short
  · rw [List.length_append, List.length_reverse, enough]
    omega
  · rw [List.length_drop, List.length_reverse]
    omega

/-! ## The columns and their relations -/

/-- The committed columns, by address and cycle, and the weight of the RAM columns by cycle. -/
structure OneHotColumns (F : Type) where
  ra : JoltRaPolynomial → ℕ → ℕ → F
  ramHammingWeight : ℕ → F

end

namespace OneHotColumns

variable {F : Type} [Field F] (columns : OneHotColumns F)

def polys (logT : ℕ) (polynomial : JoltRaPolynomial) : List F → F := extension (gridColumn logT (columns.ra polynomial))

/-- The claims that the reduction takes in, as evaluations at the cycle it shares. -/
def hammingWeightClaims (d : BooleanityDimensions) (rCycle rAddress : List F) (virtualizationPoints : List (List F)) :
    HammingWeightClaimReductionInputClaims F where
  ramHammingWeight := extension columns.ramHammingWeight rCycle
  booleanity polynomial := columns.polys d.logT polynomial (rAddress ++ rCycle)
  virtualization polynomial := columns.polys d.logT polynomial
    (virtualizationPoints.getD (d.layout.polynomials.idxOf polynomial) [] ++ rCycle)

/-- The relations of the committed columns hold at every point and for every challenge. -/
structure Holds (d : BooleanityDimensions) (addressBits : ℕ) : Prop where
  booleanity : ∀ (gamma : F) (instructionRAddress drawn instructionRCycle : List F),
    instructionRAddress.length = addressBits → drawn.length = d.logKChunk - addressBits → instructionRCycle.length = d.logT →
    ∃ intermediate : List F → F,
      SumsTo d.logKChunk (BooleanityAddressPhase.summand intermediate) BooleanityAddressPhase.inputExpression ∧
      ∀ rAddress : List F, rAddress.length = d.logKChunk →
        SumsTo d.logT (Booleanity.summand ⟨d, rAddress, referenceAddress instructionRAddress d.logKChunk drawn,
          referenceCycle instructionRCycle⟩ gamma (columns.polys d.logT)) (Booleanity.inputExpression (intermediate rAddress))
  hammingBooleanity : ∀ stage1CycleBinding : List F, stage1CycleBinding.length = d.logT →
    SumsTo d.logT (RamHammingBooleanity.summand ⟨⟨d.logT⟩, stage1CycleBinding⟩ (extension columns.ramHammingWeight))
      RamHammingBooleanity.inputExpression
  hammingWeight : ∀ (gamma : F) (rCycle rAddress : List F) (virtualizationPoints : List (List F)),
    rCycle.length = d.logT → rAddress.length = d.logKChunk → virtualizationPoints.length = d.layout.total →
    (∀ point ∈ virtualizationPoints, point.length = d.logKChunk) →
    SumsTo d.logKChunk (HammingWeightClaimReduction.summand ⟨⟨d.layout, d.logKChunk⟩, rCycle, rAddress,
        virtualizationPoints⟩ gamma (columns.polys d.logT))
      (HammingWeightClaimReduction.inputExpression ⟨⟨d.layout, d.logKChunk⟩, rCycle, rAddress, virtualizationPoints⟩ gamma
        (columns.hammingWeightClaims d rCycle rAddress virtualizationPoints))

/-- The place in the canonical order. -/
def column (d : BooleanityDimensions) (i : ℕ) : JoltRaPolynomial := d.layout.polynomials.getD i (.ram 0)

omit [Field F] in
theorem column_mem {d : BooleanityDimensions} {i : ℕ} (inside : i < d.layout.total) : column d i ∈ d.layout.polynomials := by
  rw [← d.layout.length_polynomials] at inside
  rw [column, List.getD_eq_getElem _ _ inside]
  exact List.getElem_mem inside

omit [Field F] in
theorem exists_column {d : BooleanityDimensions} {polynomial : JoltRaPolynomial} (member : polynomial ∈ d.layout.polynomials) :
    ∃ i < d.layout.total, column d i = polynomial := by
  obtain ⟨i, inside, rfl⟩ := List.getElem_of_mem member
  exact ⟨i, d.layout.length_polynomials ▸ inside, List.getD_eq_getElem _ _ inside⟩

/-- How far an entry is from a bit. -/
def defect (polynomial : JoltRaPolynomial) (k j : ℕ) : F :=
  columns.ra polynomial k j * columns.ra polynomial k j - columns.ra polynomial k j

/-! ## Booleanity -/

variable {columns} {d : BooleanityDimensions}

omit [Field F] in
theorem head_points {α : Type} {layout : JoltRaPolynomialLayout} (positive : 0 < layout.total) (point : α) :
    (layout.polynomials.map fun _ => point).head? = some point := by
  have nonempty : layout.polynomials ≠ [] := fun empty => by
    rw [← layout.length_polynomials, empty] at positive
    exact absurd positive (lt_irrefl 0)
  obtain ⟨first, rest, split⟩ := List.exists_cons_of_ne_nil nonempty
  rw [split]
  rfl

omit [Field F] in
theorem zipWith_points {α : Type} (layout : JoltRaPolynomialLayout) (ra : JoltRaPolynomial → α → F) (point : α) :
    List.zipWith ra layout.polynomials (layout.polynomials.map fun _ => point) =
      layout.polynomials.map fun polynomial => ra polynomial point := by
  rw [List.zipWith_map_right, List.zipWith_self]

/-- The batched defects at a point. -/
def defects (columns : OneHotColumns F) (d : BooleanityDimensions) (gamma : F) (point : List F) : F :=
  ∑ i ∈ range d.layout.total, gamma ^ (2 * i) * (columns.polys d.logT (column d i) point * columns.polys d.logT (column d i) point -
    columns.polys d.logT (column d i) point)

theorem outputExpression_eq (eqAddressCycle gamma : F) (point : List F) :
    Booleanity.outputExpression eqAddressCycle gamma (d.layout.polynomials.map fun polynomial => columns.polys d.logT polynomial point) =
      eqAddressCycle * defects columns d gamma point := by
  rw [Booleanity.outputExpression, sum_zipIdx _ 0, List.length_map, d.layout.length_polynomials, defects]
  refine congrArg _ (sum_congr rfl fun i member => ?_)
  have inside : i < d.layout.polynomials.length := d.layout.length_polynomials.symm ▸ mem_range.mp member
  have entry : (d.layout.polynomials.map fun polynomial => columns.polys d.logT polynomial point).getD i 0 =
      columns.polys d.logT (column d i) point := by
    rw [column, List.getD_eq_getElem _ _ (by rwa [List.length_map]), List.getElem_map, List.getD_eq_getElem _ _ inside]
  simp only [entry]

/-- The cycle phase sums to the weighted defects. -/
theorem booleanity_sumsTo (positive : 0 < d.layout.total) (gamma : F) {rAddress reference rCycle : List F}
    (width : rAddress.length = d.logKChunk) (width' : reference.length = d.logKChunk) (length : rCycle.length = d.logT) :
    SumsTo d.logT (Booleanity.summand ⟨d, rAddress, reference, referenceCycle rCycle⟩ gamma (columns.polys d.logT))
      (cubeSum d.logT fun c => eqMle rAddress reference *
        (eqMle c (referenceCycle rCycle) * defects columns d gamma (rAddress ++ c))) := by
  refine sumsTo_reversed fun x drawn => ?_
  have weight : Booleanity.eqAddressCycle ⟨d, rAddress, reference, referenceCycle rCycle⟩
      (d.layout.polynomials.map fun _ => rAddress ++ x.reverse) =
      .ok (eqMle rAddress reference * eqMle x.reverse (referenceCycle rCycle)) := by
    have arity : (rAddress.reverse ++ x.reverse.reverse).length = (reference.reverse ++ (referenceCycle rCycle).reverse).length := by
      simp only [List.length_append, List.length_reverse, referenceCycle, width, width', drawn, length]
    unfold Booleanity.eqAddressCycle
    rw [head_points positive]
    refine except_bind_eq_ok.mpr ⟨_, splitAt_append rAddress x.reverse width, (eqTerm_eq _ arity).trans (congrArg Except.ok ?_)⟩
    rw [eqMle_append (by rw [List.length_reverse, List.length_reverse, width, width']),
      eqMle_reverse (width.trans width'.symm),
      eqMle_reverse (by rw [List.length_reverse, referenceCycle, List.length_reverse, drawn, length])]
  refine except_bind_eq_ok.mpr ⟨_, weight, congrArg Except.ok ?_⟩
  rw [Booleanity.deriveOpeningPoints, zipWith_points, outputExpression_eq, mul_assoc]

theorem defects_corner (gamma : F) {k j : ℕ} (inside : k < 2 ^ d.logKChunk) (inside' : j < 2 ^ d.logT) :
    defects columns d gamma (bitPoint F d.logKChunk k ++ bitPoint F d.logT j) =
      ∑ i ∈ range d.layout.total, gamma ^ (2 * i) * columns.defect (column d i) k j := by
  refine sum_congr rfl fun i _ => ?_
  rw [polys, extension_gridColumn_corner _ _ inside', extension_bitPoint _ inside, defect]

theorem booleanity_iff (positive : 0 < d.layout.total) (apart : Apart F (d.layout.total * 2)) (addressBits : ℕ) :
    (∀ (gamma : F) (instructionRAddress drawn instructionRCycle : List F),
      instructionRAddress.length = addressBits → drawn.length = d.logKChunk - addressBits → instructionRCycle.length = d.logT →
      ∃ intermediate : List F → F,
        SumsTo d.logKChunk (BooleanityAddressPhase.summand intermediate) BooleanityAddressPhase.inputExpression ∧
        ∀ rAddress : List F, rAddress.length = d.logKChunk →
          SumsTo d.logT (Booleanity.summand ⟨d, rAddress, referenceAddress instructionRAddress d.logKChunk drawn,
            referenceCycle instructionRCycle⟩ gamma (columns.polys d.logT))
            (Booleanity.inputExpression (intermediate rAddress))) ↔
      ∀ i < d.layout.total, ∀ k < 2 ^ d.logKChunk, ∀ j < 2 ^ d.logT, columns.defect (column d i) k j = 0 := by
  -- The phases together: the weighted defects of all corners add up to zero.
  have phases (gamma : F) {reference rCycle : List F} (width : reference.length = d.logKChunk) (length : rCycle.length = d.logT) :
      (∃ intermediate : List F → F,
        SumsTo d.logKChunk (BooleanityAddressPhase.summand intermediate) BooleanityAddressPhase.inputExpression ∧
        ∀ rAddress : List F, rAddress.length = d.logKChunk →
          SumsTo d.logT (Booleanity.summand ⟨d, rAddress, reference, referenceCycle rCycle⟩ gamma (columns.polys d.logT))
            (Booleanity.inputExpression (intermediate rAddress))) ↔
      extension (gridColumn d.logT fun k j => defects columns d gamma (bitPoint F d.logKChunk k ++ bitPoint F d.logT j))
        (reference ++ referenceCycle rCycle) = 0 := by
    have reversed : (referenceCycle rCycle).length = d.logT := by rw [referenceCycle, List.length_reverse, length]
    rw [← cubeSum_eqMle_eqMle width reversed fun a c => defects columns d gamma (a ++ c)]
    constructor
    · rintro ⟨intermediate, address, cycle⟩
      have total := address.unique (sumsTo_reversed (g := intermediate) fun x _ => rfl)
      rw [BooleanityAddressPhase.inputExpression] at total
      rw [total]
      exact cubeSum_congr fun rAddress width' =>
        ((cycle rAddress width').unique (booleanity_sumsTo positive gamma width' width length)).symm
    · intro zero
      refine ⟨fun rAddress => cubeSum d.logT fun c => eqMle rAddress reference *
        (eqMle c (referenceCycle rCycle) * defects columns d gamma (rAddress ++ c)), ?_, fun rAddress width' =>
          booleanity_sumsTo positive gamma width' width length⟩
      rw [BooleanityAddressPhase.inputExpression, ← zero]
      exact sumsTo_reversed fun x _ => rfl
  constructor
  · intro holds i inside k small j below
    have all (gamma : F) : ∑ i ∈ range d.layout.total, gamma ^ (2 * i) * columns.defect (column d i) k j = 0 := by
      rw [← defects_corner gamma small below]
      refine (forall_grid_eq_iff (f := fun k j => defects columns d gamma (bitPoint F d.logKChunk k ++ bitPoint F d.logT j))
        (g := fun _ _ => 0)).mp (fun reference rCycle width length => ?_) k small j below
      obtain ⟨instructionRAddress, drawn, bits, missing, rfl⟩ := exists_referenceAddress addressBits width
      have reversed : rCycle.reverse.length = d.logT := by rwa [List.length_reverse]
      have zero := (phases gamma width reversed).mp
        (holds gamma instructionRAddress drawn rCycle.reverse bits missing reversed)
      rw [referenceCycle, List.reverse_reverse] at zero
      rw [zero]
      exact (extension_zero _).symm
    exact (forall_spaced_powers_eq_zero_iff two_pos apart _).mp all i inside
  · intro zero gamma instructionRAddress drawn instructionRCycle bits missing length
    have address := length_referenceAddress (missing.trans (by rw [bits]))
    have cycle : (referenceCycle instructionRCycle).length = d.logT := by rw [referenceCycle, List.length_reverse, length]
    refine (phases gamma address length).mpr ?_
    refine ((forall_grid_eq_iff (g := fun _ _ => 0)).mpr (fun k small j below => ?_) _ _ address cycle).trans (extension_zero _)
    rw [defects_corner gamma small below]
    exact (forall_spaced_powers_eq_zero_iff two_pos apart _).mpr (fun i inside => zero i inside k small j below) gamma

/-! ## The weight of the RAM columns -/

theorem hammingBooleanity_iff :
    (∀ stage1CycleBinding : List F, stage1CycleBinding.length = d.logT →
      SumsTo d.logT (RamHammingBooleanity.summand ⟨⟨d.logT⟩, stage1CycleBinding⟩ (extension columns.ramHammingWeight))
        RamHammingBooleanity.inputExpression) ↔
      ∀ j < 2 ^ d.logT, columns.ramHammingWeight j * columns.ramHammingWeight j - columns.ramHammingWeight j = 0 := by
  have sums {binding : List F} (length : binding.length = d.logT) :
      SumsTo d.logT (RamHammingBooleanity.summand ⟨⟨d.logT⟩, binding⟩ (extension columns.ramHammingWeight))
        (extension (fun j => columns.ramHammingWeight j * columns.ramHammingWeight j - columns.ramHammingWeight j) binding.reverse) := by
    have reversed : binding.reverse.length = d.logT := (List.length_reverse).trans length
    have corners : extension (fun j => columns.ramHammingWeight j * columns.ramHammingWeight j - columns.ramHammingWeight j)
        binding.reverse = cubeSum d.logT fun c => eqMle c binding.reverse *
          (extension columns.ramHammingWeight c * extension columns.ramHammingWeight c - extension columns.ramHammingWeight c) := by
      rw [cubeSum_weights reversed fun j inside => eqMle_corner reversed inside]
      exact extension_congr fun j inside => by rw [extension_bitPoint _ (reversed ▸ inside)]
    rw [corners]
    refine sumsTo_reversed fun x drawn => except_bind_eq_ok.mpr ⟨_, TraceDimensions.cyclePoint_eq _ drawn, ?_⟩
    have weight : RamHammingBooleanity.eqCycle ⟨⟨d.logT⟩, binding⟩ x.reverse = .ok (eqMle x.reverse binding.reverse) := by
      have arity : x.length = binding.length := drawn.trans length.symm
      rw [RamHammingBooleanity.eqCycle, List.reverse_reverse, eqTerm_eq _ arity, eqMle_reverse arity]
    exact except_bind_eq_ok.mpr ⟨_, weight, rfl⟩
  rw [← forall_extension_eq_iff (g := fun _ => 0)]
  constructor
  · intro holds point length
    have reversed : point.reverse.length = d.logT := (List.length_reverse).trans length
    have zero := (holds _ reversed).unique (sums reversed)
    rw [List.reverse_reverse] at zero
    rw [← zero, extension_zero]
    rfl
  · intro zero binding length
    have reversed : binding.reverse.length = d.logT := (List.length_reverse).trans length
    refine ((sums length).iff _).mpr ?_
    rw [zero _ reversed, extension_zero]
    rfl

/-! ## The weight of every column -/

/-- The weight that the reduction asks of a column in a cycle. -/
def weightOf (columns : OneHotColumns F) (polynomial : JoltRaPolynomial) (j : ℕ) : F :=
  HammingWeightClaimReduction.hammingWeightClaim (columns.ramHammingWeight j) polynomial

theorem extension_weightOf (polynomial : JoltRaPolynomial) (rCycle : List F) :
    extension (columns.weightOf polynomial) rCycle =
      HammingWeightClaimReduction.hammingWeightClaim (extension columns.ramHammingWeight rCycle) polynomial := by
  cases polynomial with
  | instruction _ => exact extension_one rCycle
  | bytecode _ => exact extension_one rCycle
  | ram _ => rfl

/-- The weight that a column has in a cycle. -/
def columnSum (columns : OneHotColumns F) (d : BooleanityDimensions) (polynomial : JoltRaPolynomial) (j : ℕ) : F :=
  ∑ k ∈ range (2 ^ d.logKChunk), columns.ra polynomial k j

theorem cubeSum_polys (polynomial : JoltRaPolynomial) {rCycle : List F} (length : rCycle.length = d.logT) :
    (cubeSum d.logKChunk fun a => columns.polys d.logT polynomial (a ++ rCycle)) =
      extension (columnSum columns d polynomial) rCycle := by
  unfold columnSum
  rw [cubeSum_eq_sum, extension_sum]
  refine sum_congr rfl fun k member => ?_
  rw [polys, extension_gridColumn _ _ length, extension_bitPoint _ (mem_range.mp member)]

/-- An opening at another address, as a weighted sum over the chunk. -/
theorem cubeSum_eqMle_polys (polynomial : JoltRaPolynomial) {address rCycle : List F} (width : address.length = d.logKChunk)
    (length : rCycle.length = d.logT) :
    (cubeSum d.logKChunk fun a => eqMle a address * columns.polys d.logT polynomial (a ++ rCycle)) =
      columns.polys d.logT polynomial (address ++ rCycle) := by
  rw [cubeSum_weights width fun k inside => eqMle_corner width inside, polys, extension_gridColumn _ _ length]
  refine extension_congr fun k inside => ?_
  rw [extension_gridColumn _ _ length, extension_bitPoint _ (width ▸ inside)]

/-- The batch of the three claims of each column, against the weights that the columns have. -/
theorem hammingWeight_sumsTo (positive : 0 < d.layout.total) (gamma : F) {rCycle rAddress : List F}
    {virtualizationPoints : List (List F)} (length : rCycle.length = d.logT) (width : rAddress.length = d.logKChunk)
    (count : virtualizationPoints.length = d.layout.total) (widths : ∀ point ∈ virtualizationPoints, point.length = d.logKChunk) :
    SumsTo d.logKChunk (HammingWeightClaimReduction.summand ⟨⟨d.layout, d.logKChunk⟩, rCycle, rAddress, virtualizationPoints⟩
        gamma (columns.polys d.logT))
      (∑ i ∈ range d.layout.total, (gamma ^ (3 * i) * extension (columnSum columns d (column d i)) rCycle +
        gamma ^ (3 * i + 1) * columns.polys d.logT (column d i) (rAddress ++ rCycle) +
        gamma ^ (3 * i + 2) * columns.polys d.logT (column d i) (virtualizationPoints.getD i [] ++ rCycle))) := by
  have width' {i : ℕ} (inside : i < d.layout.total) : (virtualizationPoints.getD i []).length = d.logKChunk := by
    rw [List.getD_eq_getElem _ _ (count.symm ▸ inside)]
    exact widths _ (List.getElem_mem _)
  have whole : (cubeSum d.logKChunk fun a => ∑ i ∈ range d.layout.total,
      (gamma ^ (3 * i) + gamma ^ (3 * i + 1) * eqMle a rAddress +
        gamma ^ (3 * i + 2) * eqMle a (virtualizationPoints.getD i [])) * columns.polys d.logT (column d i) (a ++ rCycle)) =
      ∑ i ∈ range d.layout.total, (gamma ^ (3 * i) * extension (columnSum columns d (column d i)) rCycle +
        gamma ^ (3 * i + 1) * columns.polys d.logT (column d i) (rAddress ++ rCycle) +
        gamma ^ (3 * i + 2) * columns.polys d.logT (column d i) (virtualizationPoints.getD i [] ++ rCycle)) := by
    rw [cubeSum_sum]
    refine sum_congr rfl fun i member => ?_
    rw [← cubeSum_polys _ length, ← cubeSum_eqMle_polys _ width length, ← cubeSum_eqMle_polys _ (width' (mem_range.mp member)) length,
      ← cubeSum_mul, ← cubeSum_mul, ← cubeSum_mul, ← cubeSum_add, ← cubeSum_add]
    exact cubeSum_congr fun a _ => by ring
  rw [← whole]
  refine sumsTo_reversed fun x drawn => ?_
  have reversed : x.reverse.length = d.logKChunk := (List.length_reverse).trans drawn
  let this : HammingWeightClaimReduction F := ⟨⟨d.layout, d.logKChunk⟩, rCycle, rAddress, virtualizationPoints⟩
  have points : this.deriveOpeningPoints x = .ok (d.layout.polynomials.map fun _ => x.reverse ++ rCycle) := by
    rw [HammingWeightClaimReduction.deriveOpeningPoints, if_neg (not_not.mpr drawn)]
    rfl
  have rho : this.rhoReversed (d.layout.polynomials.map fun _ => x.reverse ++ rCycle) = .ok x.reverse := by
    rw [HammingWeightClaimReduction.rhoReversed, head_points positive]
    exact getTo_append _ _ _ _ reversed
  have atBooleanity : this.eqBooleanity (d.layout.polynomials.map fun _ => x.reverse ++ rCycle) = .ok (eqMle x.reverse rAddress) :=
    except_bind_eq_ok.mpr ⟨_, rho, eqTerm_eq _ (reversed.trans width.symm)⟩
  have atVirtualization : (List.range d.layout.total).mapM (this.eqVirtualization (d.layout.polynomials.map fun _ => x.reverse ++ rCycle)) =
      .ok ((List.range d.layout.total).map fun i => eqMle x.reverse (virtualizationPoints.getD i [])) := by
    refine mapM_ok fun i member => except_bind_eq_ok.mpr ⟨_, rho, ?_⟩
    have inside := List.mem_range.mp member
    have here : virtualizationPoints[i]? = some (virtualizationPoints.getD i []) := by
      rw [List.getD_eq_getElem _ _ (count.symm ▸ inside), List.getElem?_eq_getElem]
    simp only [this, here]
    exact eqTerm_eq _ (reversed.trans (width' inside).symm)
  refine except_bind_eq_ok.mpr ⟨_, points, except_bind_eq_ok.mpr ⟨_, atBooleanity, except_bind_eq_ok.mpr ⟨_, atVirtualization,
    congrArg Except.ok ?_⟩⟩⟩
  rw [zipWith_points, HammingWeightClaimReduction.outputExpression, sum_zipIdx _ 0, List.length_map, d.layout.length_polynomials]
  refine sum_congr rfl fun i member => ?_
  have inside := mem_range.mp member
  have inside' : i < d.layout.polynomials.length := d.layout.length_polynomials.symm ▸ inside
  have entry : (d.layout.polynomials.map fun polynomial => columns.polys d.logT polynomial (x.reverse ++ rCycle)).getD i 0 =
      columns.polys d.logT (column d i) (x.reverse ++ rCycle) := by
    rw [column, List.getD_eq_getElem _ _ (by rwa [List.length_map]), List.getElem_map, List.getD_eq_getElem _ _ inside']
  have weight : ((List.range d.layout.total).map fun i => eqMle x.reverse (virtualizationPoints.getD i [])).getD i 0 =
      eqMle x.reverse (virtualizationPoints.getD i []) := by
    rw [List.getD_eq_getElem _ _ (by rwa [List.length_map, List.length_range]), List.getElem_map, List.getElem_range]
  simp only [entry, weight]

theorem idxOf_column {i : ℕ} (inside : i < d.layout.total) : d.layout.polynomials.idxOf (column d i) = i := by
  have inside' : i < d.layout.polynomials.length := d.layout.length_polynomials.symm ▸ inside
  rw [column, List.getD_eq_getElem _ _ inside']
  exact d.layout.nodup_polynomials.idxOf_getElem i inside'

theorem hammingWeight_iff (positive : 0 < d.layout.total) (apart : Apart F (d.layout.total * 3)) :
    (∀ (gamma : F) (rCycle rAddress : List F) (virtualizationPoints : List (List F)),
      rCycle.length = d.logT → rAddress.length = d.logKChunk → virtualizationPoints.length = d.layout.total →
      (∀ point ∈ virtualizationPoints, point.length = d.logKChunk) →
      SumsTo d.logKChunk (HammingWeightClaimReduction.summand ⟨⟨d.layout, d.logKChunk⟩, rCycle, rAddress,
          virtualizationPoints⟩ gamma (columns.polys d.logT))
        (HammingWeightClaimReduction.inputExpression ⟨⟨d.layout, d.logKChunk⟩, rCycle, rAddress, virtualizationPoints⟩ gamma
          (columns.hammingWeightClaims d rCycle rAddress virtualizationPoints))) ↔
      ∀ i < d.layout.total, ∀ j < 2 ^ d.logT, columnSum columns d (column d i) j = columns.weightOf (column d i) j := by
  -- The openings on both sides cancel; what is left are the weights.
  have weights (gamma : F) {rCycle rAddress : List F} {virtualizationPoints : List (List F)} (length : rCycle.length = d.logT)
      (width : rAddress.length = d.logKChunk) (count : virtualizationPoints.length = d.layout.total)
      (widths : ∀ point ∈ virtualizationPoints, point.length = d.logKChunk) :
      SumsTo d.logKChunk (HammingWeightClaimReduction.summand ⟨⟨d.layout, d.logKChunk⟩, rCycle, rAddress,
          virtualizationPoints⟩ gamma (columns.polys d.logT))
        (HammingWeightClaimReduction.inputExpression ⟨⟨d.layout, d.logKChunk⟩, rCycle, rAddress, virtualizationPoints⟩ gamma
          (columns.hammingWeightClaims d rCycle rAddress virtualizationPoints)) ↔
      ∑ i ∈ range d.layout.total, gamma ^ (3 * i) * (extension (columns.weightOf (column d i)) rCycle -
        extension (columnSum columns d (column d i)) rCycle) = 0 := by
    rw [(hammingWeight_sumsTo positive gamma length width count widths).iff, ← sub_eq_zero,
      HammingWeightClaimReduction.inputExpression, sum_zipIdx _ (.ram 0), d.layout.length_polynomials, ← sum_sub_distrib]
    refine iff_of_eq (congrArg (· = 0) (sum_congr rfl fun i member => ?_))
    rw [← column, extension_weightOf]
    simp only [hammingWeightClaims, idxOf_column (mem_range.mp member)]
    ring
  constructor
  · intro holds i inside
    refine forall_extension_eq_iff.mp fun rCycle length => ?_
    have all (gamma : F) := (weights gamma length List.length_replicate List.length_replicate
      (fun point member => (List.eq_of_mem_replicate member).symm ▸ List.length_replicate)).mp
      (holds gamma rCycle (List.replicate _ 0) (List.replicate d.layout.total (List.replicate _ 0)) length List.length_replicate
        List.length_replicate fun point member => (List.eq_of_mem_replicate member).symm ▸ List.length_replicate)
    exact (sub_eq_zero.mp ((forall_spaced_powers_eq_zero_iff three_pos apart _).mp all i inside)).symm
  · intro same gamma rCycle rAddress virtualizationPoints length width count widths
    refine (weights gamma length width count widths).mpr (sum_eq_zero fun i member => ?_)
    rw [forall_extension_eq_iff.mpr (same i (mem_range.mp member)) rCycle length, sub_self, mul_zero]

/-! ## The accesses of the columns -/

/-- The columns are hot at one entry in each cycle; only the columns of the RAM may be cold, all at once. -/
structure Hot (columns : OneHotColumns F) (d : BooleanityDimensions) (hots : JoltRaPolynomial → ℕ → Option ℕ) : Prop where
  hot : ∀ polynomial ∈ d.layout.polynomials, ∀ j < 2 ^ d.logT,
    HotColumn (2 ^ d.logKChunk) (fun k => columns.ra polynomial k j) (hots polynomial j)
  weight : ∀ polynomial ∈ d.layout.polynomials, ∀ j < 2 ^ d.logT,
    columns.weightOf polynomial j = if (hots polynomial j).isSome then 1 else 0
  bit : ∀ j < 2 ^ d.logT, columns.ramHammingWeight j = 0 ∨ columns.ramHammingWeight j = 1

/-- The relations of the committed columns hold for every challenge exactly when the columns are one-hot. -/
theorem holds_iff_hot (positive : 0 < d.layout.total) (apart : Apart F (d.layout.total * 3))
    (apart' : Apart F (2 ^ d.logKChunk + 1)) (addressBits : ℕ) :
    columns.Holds d addressBits ↔ ∃ hots, columns.Hot d hots := by
  have holds : columns.Holds d addressBits ↔ _ ∧ _ ∧ _ :=
    ⟨fun h => ⟨h.booleanity, h.hammingBooleanity, h.hammingWeight⟩, fun h => ⟨h.1, h.2.1, h.2.2⟩⟩
  rw [holds, booleanity_iff positive (apart.mono (by omega)) addressBits, hammingBooleanity_iff, hammingWeight_iff positive apart]
  constructor
  · rintro ⟨bits, weights, sums⟩
    have bit (j : ℕ) (below : j < 2 ^ d.logT) : columns.ramHammingWeight j = 0 ∨ columns.ramHammingWeight j = 1 :=
      IsIdempotentElem.iff_eq_zero_or_one.mp (sub_eq_zero.mp (weights j below))
    have columnHot (polynomial : JoltRaPolynomial) (j : ℕ) : ∃ hot, polynomial ∈ d.layout.polynomials → j < 2 ^ d.logT →
        HotColumn (2 ^ d.logKChunk) (fun k => columns.ra polynomial k j) hot ∧
          columns.weightOf polynomial j = if hot.isSome then 1 else 0 := by
      by_cases inside : polynomial ∈ d.layout.polynomials ∧ j < 2 ^ d.logT
      · obtain ⟨member, below⟩ := inside
        obtain ⟨i, small, rfl⟩ := exists_column member
        have idempotent : columns.weightOf (column d i) j * columns.weightOf (column d i) j = columns.weightOf (column d i) j := by
          cases column d i with
          | instruction _ => exact one_mul 1
          | bytecode _ => exact one_mul 1
          | ram _ => exact sub_eq_zero.mp (weights j below)
        obtain ⟨hot, isHot, weight⟩ := exists_hotColumn apart' (fun k inside => sub_eq_zero.mp (bits i small k inside j below))
          (sums i small j below) idempotent
        exact ⟨hot, fun _ _ => ⟨isHot, weight⟩⟩
      · exact ⟨none, fun member below => absurd ⟨member, below⟩ inside⟩
    choose hots isHot using columnHot
    exact ⟨hots, fun polynomial member j below => (isHot polynomial j member below).1,
      fun polynomial member j below => (isHot polynomial j member below).2, bit⟩
  · rintro ⟨hots, isHot⟩
    refine ⟨fun i small k inside j below => ?_, fun j below => ?_, fun i small j below => ?_⟩
    · rw [defect, (isHot.hot _ (column_mem small) j below).entry k inside]
      split_ifs <;> ring
    · rcases isHot.bit j below with zero | one
      · rw [zero, mul_zero, sub_zero]
      · rw [one, one_mul, sub_self]
    · have total := (isHot.hot _ (column_mem small) j below).sum fun _ => 1
      simp only [mul_one] at total
      rw [columnSum, total, isHot.weight _ (column_mem small) j below]
      cases hots (column d i) j <;> rfl

end OneHotColumns

end JoltWasm.Stages
