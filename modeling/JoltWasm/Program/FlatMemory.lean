import JoltWasm.Program.ImageAgreement

/-!
# The memory as a flat array

The proof has one array of words, the machine has regions and bytes.  While the bytes past the backing store are
zero and no store takes bytes away, an access of the machine is an access of the array.
-/

namespace JoltWasm

open Layout Lib

namespace Memory

/-- The bytes past the whole cells of the backing store are zero. -/
def Settled (m : Memory) : Prop := ∀ i, m.linearLen / 4 * 4 ≤ i → m.linear i = 0

/-- Whether a store would take bytes of the backing store away: it lowers the size word. -/
def Shrinks (m : Memory) (address value : U64) : Prop :=
  address = BitVec.ofNat 64 memorySizeAddr ∧
    min value.toNat (m.maxPages * pageSize) + wasmWordBytes < m.linearLen

instance (m : Memory) (address value : U64) : Decidable (m.Shrinks address value) :=
  inferInstanceAs (Decidable (_ ∧ _))

section

variable {m next : Memory} {address value previous : U64}

theorem aligned_of_locate {slot : Slot} (located : m.locate address = .ok slot) : address.toNat % 8 = 0 := by
  by_contra unaligned
  rw [locate, wordBytes, if_pos unaligned] at located
  cases located

theorem locateWord_ok {region : Region} {slot : Slot} (located : locateWord address region = .ok slot) :
    slot = .word region ((address.toNat - region.base) / 8) ∧ address.toNat - region.base + 8 ≤ region.size := by
  rw [locateWord] at located
  by_cases past : region.size < address.toNat - region.base + 8
  · rw [if_pos past] at located
    split at located <;> cases located
  · rw [if_neg past] at located
    cases located
    exact ⟨rfl, Nat.not_lt.mp past⟩

/-- A located word is a cell of the backing store or in a region. -/
theorem locate_ok {slot : Slot} (located : m.locate address = .ok slot) :
    (linearMemoryBase ≤ address.toNat ∧ slot = .cell ((address.toNat - linearMemoryBase) / 8 * 4) ∧
        (address.toNat - linearMemoryBase) / 8 * 4 + 4 ≤ m.linearLen) ∨
      ∃ region : Region, region.base ≤ address.toNat ∧ address.toNat < region.base + region.size ∧
        slot = .word region ((address.toNat - region.base) / 8) := by
  have aligned := aligned_of_locate located
  have word {region : Region} (found : locateWord address region = .ok slot) (above : region.base ≤ address.toNat) :
      ∃ region : Region, region.base ≤ address.toNat ∧ address.toNat < region.base + region.size ∧
        slot = .word region ((address.toNat - region.base) / 8) := by
    obtain ⟨same, room⟩ := locateWord_ok found
    exact ⟨region, above, by omega, same⟩
  rw [locate, wordBytes, if_neg (not_not.mpr aligned)] at located
  by_cases inside : linearMemoryBase ≤ address.toNat
  · rw [if_pos inside] at located
    simp only at located
    split at located
    · cases located
    · next room =>
        cases located
        exact .inl ⟨inside, rfl, Nat.not_lt.mp room⟩
  · rw [if_neg inside] at located
    right
    split at located
    · next above => exact word located above
    split at located
    · next above => exact word located above
    split at located
    · cases located
    split at located
    · next above => exact word located above
    split at located
    · next above => exact word located above
    split at located
    · next above => exact word located above
    split at located
    · next above => exact word located above
    · cases located

/-- A word that is read is the word of the array. -/
theorem readWord_flat (read : m.readWord address = .ok value) : m.wordOf address.toNat = value := by
  unfold wordOf
  rw [if_pos address.isLt, BitVec.ofNat_toNat, BitVec.setWidth_eq, read]

/-- Past the backing store a cell is zero, as the array has it. -/
theorem Settled.wordOf_cell (settled : m.Settled) {x : ℕ} (fits : x < 2 ^ 64) (aligned : x % 8 = 0)
    (inside : linearMemoryBase ≤ x) :
    m.wordOf x = (cellAt m.linear ((x - linearMemoryBase) / 8 * 4)).setWidth 64 := by
  rw [m.wordOf_cell fits aligned inside]
  split
  · next past =>
      have zero (k : ℕ) : m.linear ((x - linearMemoryBase) / 8 * 4 + k) = 0 := settled _ (by omega)
      unfold cellAt
      rw [zero 3, zero 2, zero 1, ← Nat.add_zero ((x - linearMemoryBase) / 8 * 4), zero 0]
      rfl
  · rfl

theorem cellAt_setCell (linear : ℕ → BitVec 8) (start : ℕ) (v : BitVec 32) :
    cellAt (setCell linear start v) start = v := by
  refine BitVec.eq_of_getLsbD_eq fun i small => ?_
  rw [getLsbD_cellAt _ _ small, setCell, if_pos (by omega), BitVec.getLsbD_extractLsb']
  have index : 8 * (start + i / 8 - start) + i % 8 = i := by omega
  rw [index, decide_eq_true (Nat.mod_lt i (by decide)), Bool.true_and]

theorem cellAt_setCell_of_ne (linear : ℕ → BitVec 8) {start other : ℕ} (v : BitVec 32)
    (apart : other + 4 ≤ start ∨ start + 4 ≤ other) : cellAt (setCell linear start v) other = cellAt linear other := by
  unfold cellAt setCell
  rw [if_neg (by omega), if_neg (by omega), if_neg (by omega), if_neg (by omega)]

/-- Below linear memory an address is in a region or has no word. -/
theorem region_or_none {x : ℕ} (below : ¬ linearMemoryBase ≤ x) :
    (x < 0x90000000 ∨ 0x90103000 ≤ x ∧ x < 0x90104000) ∨
      ∃ region : Region, region.base ≤ x ∧ x < region.base + region.size := by
  rw [linearMemoryBase_eq] at below
  by_cases outside : x < 0x90000000 ∨ 0x90103000 ≤ x ∧ x < 0x90104000
  · exact .inl outside
  · refine .inr ?_
    rw [Region.bases, Region.sizes]
    by_cases table : 0x90114000 ≤ x
    · exact ⟨.table, table, by simp only; omega⟩
    by_cases globals : 0x90104000 ≤ x
    · exact ⟨.globals, globals, by simp only; omega⟩
    by_cases shadow : 0x90003000 ≤ x
    · exact ⟨.shadow, shadow, by simp only; omega⟩
    by_cases outputs : 0x90002000 ≤ x
    · exact ⟨.outputs, outputs, by simp only; omega⟩
    by_cases inputs : 0x90001000 ≤ x
    · exact ⟨.inputs, inputs, by simp only; omega⟩
    · exact ⟨.system, by simp only; omega, by simp only; omega⟩

/-- Below linear memory the words are those of the regions. -/
theorem wordOf_below {x : ℕ} (fits : x < 2 ^ 64) (aligned : x % 8 = 0) (below : ¬ linearMemoryBase ≤ x)
    (words : ∀ region : Region, region.base ≤ x → x < region.base + region.size →
      next.words region ((x - region.base) / 8) = m.words region ((x - region.base) / 8)) :
    next.wordOf x = m.wordOf x := by
  rcases region_or_none below with outside | ⟨region, above, under⟩
  · rw [m.wordOf_none fits aligned outside, next.wordOf_none fits aligned outside]
  · rw [m.wordOf_region fits aligned above under, next.wordOf_region fits aligned above under, words region above under]

/-- A store of a word of a region is a write to the array. -/
theorem wordOf_setWord (settled : m.Settled) {region : Region} {x y : ℕ} (fits : x < 2 ^ 64) (aligned : x % 8 = 0)
    (above : region.base ≤ x) (below : x < region.base + region.size)
    (settled' : next.Settled) (linear : next.linear = m.linear)
    (words : next.words = (m.setWord region ((x - region.base) / 8) value).words) (fits' : y < 2 ^ 64)
    (aligned' : y % 8 = 0) : next.wordOf y = if y = x then value else m.wordOf y := by
  split_ifs with here
  · rw [here, next.wordOf_region fits aligned above below, words]
    exact if_pos ⟨rfl, rfl⟩
  · by_cases cell : linearMemoryBase ≤ y
    · rw [settled.wordOf_cell fits' aligned' cell, settled'.wordOf_cell fits' aligned' cell, linear]
    · refine wordOf_below fits' aligned' cell fun region' above' below' => ?_
      rw [words]
      refine if_neg ?_
      rintro ⟨rfl, same⟩
      have base : region'.base % 8 = 0 := by cases region' <;> rfl
      omega

/-- A store of a cell of the backing store is a write to the array. -/
theorem wordOf_setCell (settled : m.Settled) {x y : ℕ} (fits : x < 2 ^ 64) (aligned : x % 8 = 0)
    (inside : linearMemoryBase ≤ x) (small : value.toNat < 2 ^ 32)
    (settled' : Settled { m with linear := setCell m.linear ((x - linearMemoryBase) / 8 * 4) (value.setWidth 32) })
    (fits' : y < 2 ^ 64) (aligned' : y % 8 = 0) :
    wordOf { m with linear := setCell m.linear ((x - linearMemoryBase) / 8 * 4) (value.setWidth 32) } y =
      if y = x then value else m.wordOf y := by
  have narrow : (value.setWidth 32).setWidth 64 = value := by
    refine BitVec.eq_of_toNat_eq ?_
    rw [BitVec.toNat_setWidth, BitVec.toNat_setWidth]
    omega
  split_ifs with here
  · rw [here, settled'.wordOf_cell fits aligned inside, cellAt_setCell, narrow]
  · by_cases cell : linearMemoryBase ≤ y
    · rw [settled'.wordOf_cell fits' aligned' cell, settled.wordOf_cell fits' aligned' cell]
      refine congrArg _ (cellAt_setCell_of_ne _ _ ?_)
      have base : linearMemoryBase % 8 = 0 := rfl
      omega
    · exact wordOf_below fits' aligned' cell fun _ _ _ => rfl

/-- A store that the machine accepts and that takes no bytes away is a write to the array. -/
theorem writeWord_flat (settled : m.Settled) (written : m.writeWord address value = .ok (previous, next))
    (keeps : ¬ m.Shrinks address value) :
    next.Settled ∧ m.wordOf address.toNat = previous ∧
      ∀ x, x < 2 ^ 64 → x % 8 = 0 → next.wordOf x = if x = address.toNat then value else m.wordOf x := by
  obtain ⟨slot, located, written⟩ := except_bind_eq_ok.mp written
  have aligned := aligned_of_locate located
  have fits := address.isLt
  rcases locate_ok located with ⟨inside, rfl, room⟩ | ⟨region, above, below, rfl⟩
  · simp only at written
    split at written
    · cases written
    · next small =>
        cases written
        have settled' : Settled { m with
            linear := setCell m.linear ((address.toNat - linearMemoryBase) / 8 * 4) (value.setWidth 32) } := fun i past => by
          change m.linearLen / 4 * 4 ≤ i at past
          exact (if_neg (by omega)).trans (settled i past)
        exact ⟨settled', readWord_flat (except_bind_eq_ok.mpr ⟨_, located, rfl⟩), fun x fits' aligned' =>
          wordOf_setCell settled fits aligned inside (Nat.not_le.mp small) settled' fits' aligned'⟩
  · have read := readWord_flat (m := m) (except_bind_eq_ok.mpr ⟨_, located, rfl⟩)
    simp only at written
    split at written
    · next size =>
        cases written
        -- The store grows by zeros, which it held past its end before.
        have grown : m.linearLen ≤ min value.toNat (m.maxPages * pageSize) + wasmWordBytes :=
          Nat.not_lt.mp fun less => keeps ⟨size, less⟩
        have linear : ((m.setWord region ((address.toNat - region.base) / 8) value).resize
            (min value.toNat (m.maxPages * pageSize) + wasmWordBytes)).linear = m.linear := by
          funext i
          change (if i < min m.linearLen _ then m.linear i else 0) = m.linear i
          split_ifs with inside
          · rfl
          · exact (settled i (by omega)).symm
        have settled' : ((m.setWord region ((address.toNat - region.base) / 8) value).resize
            (min value.toNat (m.maxPages * pageSize) + wasmWordBytes)).Settled := fun i past => by
          rw [linear]
          change (min value.toNat (m.maxPages * pageSize) + wasmWordBytes) / 4 * 4 ≤ i at past
          exact settled i (by omega)
        exact ⟨settled', read, fun x fits' aligned' =>
          wordOf_setWord settled fits aligned above below settled' linear rfl fits' aligned'⟩
    · cases written
      have settled' : (m.setWord region ((address.toNat - region.base) / 8) value).Settled := settled
      exact ⟨settled', read, fun x fits' aligned' =>
        wordOf_setWord settled fits aligned above below settled' rfl rfl fits' aligned'⟩

end

end Memory

end JoltWasm
