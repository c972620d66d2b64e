import JoltWasm.Claims.PhaseSplit

/-!
# The points of a phase split

A split that fits cuts the window of the read-write check in four blocks: cycle variables, address
variables, the other cycle variables, the other address variables.  All members read their address from the
second and the fourth block; a split that does not fit is refused, and nothing panics.
-/

namespace JoltWasm

open VerifierStop

variable {F : Type}

namespace ReadWriteDimensions

variable {d : ReadWriteDimensions}

/-- The first phases leave no more rounds than there are variables. -/
structure Fits (d : ReadWriteDimensions) : Prop where
  phase1 : d.phase1NumRounds ≤ d.logT
  phase2 : d.phase2NumRounds ≤ d.logK

theorem fits_iff : d.Fits ↔ d.phase1NumRounds ≤ d.logT ∧ d.phase2NumRounds ≤ d.logK :=
  ⟨fun fits => ⟨fits.phase1, fits.phase2⟩, fun both => ⟨both.1, both.2⟩⟩

theorem validatePhaseSplit_of_fits (fits : d.Fits) : d.validatePhaseSplit = .ok () :=
  if_neg (not_or.mpr ⟨Nat.not_lt.mpr fits.phase1, Nat.not_lt.mpr fits.phase2⟩)

theorem validatePhaseSplit_of_not_fits (wide : ¬ d.Fits) : ∃ error, d.validatePhaseSplit = .error error := by
  refine ⟨_, if_pos ?_⟩
  rw [fits_iff, not_and_or, Nat.not_le, Nat.not_le] at wide
  exact wide

/-- The four blocks of a window. -/
structure Blocks (d : ReadWriteDimensions) (F : Type) where
  phase1 : List F
  phase2 : List F
  phase3Cycle : List F
  phase3Address : List F
  length_phase1 : phase1.length = d.phase1NumRounds
  length_phase2 : phase2.length = d.phase2NumRounds
  length_phase3Cycle : phase3Cycle.length = d.logT - d.phase1NumRounds
  length_phase3Address : phase3Address.length = d.logK - d.phase2NumRounds

namespace Blocks

variable (blocks : d.Blocks F)

/-- The part of the window that the members without a first phase are bound on. -/
def tail : List F := blocks.phase2 ++ (blocks.phase3Cycle ++ blocks.phase3Address)

def window : List F := blocks.phase1 ++ blocks.tail

/-- The cycle, the variable bound first last. -/
def cycle : List F := (blocks.phase1 ++ blocks.phase3Cycle).reverse

def address : List F := (blocks.phase2 ++ blocks.phase3Address).reverse

theorem length_tail (fits : d.Fits) : blocks.tail.length = d.logT + d.logK - d.phase1NumRounds := by
  have := fits.phase1
  have := fits.phase2
  rw [tail, List.length_append, List.length_append, blocks.length_phase2, blocks.length_phase3Cycle,
    blocks.length_phase3Address]
  omega

theorem length_window (fits : d.Fits) : blocks.window.length = d.logT + d.logK := by
  have := fits.phase1
  rw [window, List.length_append, blocks.length_tail fits, blocks.length_phase1]
  omega

theorem length_cycle (fits : d.Fits) : blocks.cycle.length = d.logT := by
  have := fits.phase1
  rw [cycle, List.length_reverse, List.length_append, blocks.length_phase1, blocks.length_phase3Cycle]
  omega

theorem length_address (fits : d.Fits) : blocks.address.length = d.logK := by
  have := fits.phase2
  rw [address, List.length_reverse, List.length_append, blocks.length_phase2, blocks.length_phase3Address]
  omega

end Blocks

/-- A window is cut in one way. -/
theorem exists_blocks (fits : d.Fits) {window : List F} (length : window.length = d.logT + d.logK) :
    ∃ blocks : d.Blocks F, blocks.window = window := by
  have := fits.phase1
  have := fits.phase2
  refine ⟨⟨window.take d.phase1NumRounds, (window.drop d.phase1NumRounds).take d.phase2NumRounds,
    ((window.drop d.phase1NumRounds).drop d.phase2NumRounds).take (d.logT - d.phase1NumRounds),
    ((window.drop d.phase1NumRounds).drop d.phase2NumRounds).drop (d.logT - d.phase1NumRounds),
    ?_, ?_, ?_, ?_⟩, ?_⟩
  · rw [List.length_take]
    omega
  · rw [List.length_take, List.length_drop]
    omega
  · rw [List.length_take, List.length_drop, List.length_drop]
    omega
  · rw [List.length_drop, List.length_drop, List.length_drop]
    omega
  · rw [Blocks.window, Blocks.tail, List.take_append_drop, List.take_append_drop, List.take_append_drop]

theorem readWriteOpeningPoint_window (fits : d.Fits) (blocks : d.Blocks F) :
    d.readWriteOpeningPoint blocks.window =
      .ok ⟨blocks.address, blocks.cycle, blocks.address ++ blocks.cycle⟩ := by
  unfold readWriteOpeningPoint
  rw [validatePhaseSplit_of_fits fits, ofResult_ok]
  simp only [bind, Except.bind, blocks.length_window fits, ne_eq, not_true_eq_false, if_false]
  rw [Blocks.window, splitAt_append _ _ blocks.length_phase1]
  simp only
  rw [Blocks.tail, splitAt_append _ _ blocks.length_phase2]
  simp only
  rw [checkedSub_of_le fits.phase1]
  simp only
  rw [splitAt_append _ _ blocks.length_phase3Cycle]
  simp only [Blocks.address, Blocks.cycle, List.reverse_append]
  rfl

theorem addressOpeningPoint_tail (fits : d.Fits) (blocks : d.Blocks F) :
    d.addressOpeningPoint blocks.tail = .ok blocks.address := by
  have expected : blocks.tail.length = d.logK + (d.logT - d.phase1NumRounds) := by
    have := fits.phase1
    rw [blocks.length_tail fits]
    omega
  have start : (blocks.phase2 ++ blocks.phase3Cycle).length = d.phase2NumRounds + (d.logT - d.phase1NumRounds) := by
    rw [List.length_append, blocks.length_phase2, blocks.length_phase3Cycle]
  unfold addressOpeningPoint phase3CycleRounds
  rw [validatePhaseSplit_of_fits fits, ofResult_ok, checkedSub_of_le fits.phase1]
  simp only [bind, Except.bind, expected, ne_eq, not_true_eq_false, if_false]
  rw [Blocks.tail, sliceTo_append _ _ blocks.length_phase2]
  simp only
  rw [← List.append_assoc, sliceFrom_append _ _ start]
  rfl

/-- A split that does not fit is refused at every point. -/
theorem readWriteOpeningPoint_of_not_fits (wide : ¬ d.Fits) (challenges : List F) :
    ∃ error, d.readWriteOpeningPoint challenges = .error (.refused error) := by
  obtain ⟨error, refused⟩ := validatePhaseSplit_of_not_fits wide
  refine ⟨error, ?_⟩
  rw [readWriteOpeningPoint, refused]
  rfl

/-! ### The rounds of the variables -/

/-- The round of the window that binds a variable of the cycle, the low one first. -/
def cycleRound (d : ReadWriteDimensions) (v : ℕ) : ℕ :=
  if v < d.phase1NumRounds then v else d.phase2NumRounds + v

/-- The round of the window that binds a variable of the address. -/
def addressRound (d : ReadWriteDimensions) (v : ℕ) : ℕ :=
  if v < d.phase2NumRounds then d.phase1NumRounds + v else d.logT + v

def boundAt (d : ReadWriteDimensions) : Fin d.logT ⊕ Fin d.logK → ℕ
  | .inl v => d.cycleRound v
  | .inr v => d.addressRound v

theorem cycleRound_strictMono (d : ReadWriteDimensions) : StrictMono d.cycleRound := by
  intro v w less
  unfold cycleRound
  split_ifs <;> omega

theorem addressRound_strictMono (fits : d.Fits) : StrictMono d.addressRound := by
  have := fits.phase1
  intro v w less
  unfold addressRound
  split_ifs <;> omega

/-- Every round of the window binds one variable. -/
theorem boundAt_bijective (fits : d.Fits) (round : ℕ) :
    round < d.logT + d.logK ↔ ∃! variable_, d.boundAt variable_ = round := by
  have h1 := fits.phase1
  have h2 := fits.phase2
  have distinct (v w : Fin d.logT ⊕ Fin d.logK) (same : d.boundAt v = d.boundAt w) : v = w := by
    rcases v with v | v <;> rcases w with w | w
    · exact congrArg _ (Fin.ext (d.cycleRound_strictMono.injective same))
    · have := v.isLt
      have := w.isLt
      simp only [boundAt, cycleRound, addressRound] at same
      split_ifs at same <;> omega
    · have := v.isLt
      have := w.isLt
      simp only [boundAt, cycleRound, addressRound] at same
      split_ifs at same <;> omega
    · exact congrArg _ (Fin.ext ((addressRound_strictMono fits).injective same))
  constructor
  · intro inside
    suffices found : ∃ variable_, d.boundAt variable_ = round by
      obtain ⟨variable_, at_⟩ := found
      exact ⟨variable_, at_, fun other same => distinct other variable_ (same.trans at_.symm)⟩
    by_cases first : round < d.phase1NumRounds
    · exact ⟨.inl ⟨round, by omega⟩, if_pos first⟩
    by_cases second : round < d.phase1NumRounds + d.phase2NumRounds
    · refine ⟨.inr ⟨round - d.phase1NumRounds, by omega⟩, ?_⟩
      rw [boundAt, addressRound, if_pos (by simp only; omega)]
      simp only
      omega
    by_cases third : round < d.phase2NumRounds + d.logT
    · refine ⟨.inl ⟨round - d.phase2NumRounds, by omega⟩, ?_⟩
      rw [boundAt, cycleRound, if_neg (by simp only; omega)]
      simp only
      omega
    · refine ⟨.inr ⟨round - d.logT, by omega⟩, ?_⟩
      rw [boundAt, addressRound, if_neg (by simp only; omega)]
      simp only
      omega
  · rintro ⟨variable_ | variable_, rfl, -⟩
    · have := variable_.isLt
      simp only [boundAt, cycleRound]
      split_ifs <;> omega
    · have := variable_.isLt
      simp only [boundAt, addressRound]
      split_ifs <;> omega

namespace Blocks

variable (blocks : d.Blocks F)

/-- The coordinate of a cycle variable is the challenge of its round. -/
theorem getElem?_cycle (fits : d.Fits) {v : ℕ} (inside : v < d.logT) :
    blocks.cycle[d.logT - 1 - v]? = blocks.window[d.cycleRound v]? := by
  have h1 := fits.phase1
  have total : (blocks.phase1 ++ blocks.phase3Cycle).length = d.logT := by
    rw [← blocks.length_cycle fits, cycle, List.length_reverse]
  rw [cycle, List.getElem?_reverse (by omega), total, show d.logT - 1 - (d.logT - 1 - v) = v by omega,
    cycleRound, window, tail]
  split_ifs with first
  · rw [List.getElem?_append_left (by rw [blocks.length_phase1]; exact first),
      List.getElem?_append_left (by rw [blocks.length_phase1]; exact first)]
  · rw [List.getElem?_append_right (by rw [blocks.length_phase1]; omega),
      List.getElem?_append_right (by rw [blocks.length_phase1]; omega),
      List.getElem?_append_right (by rw [blocks.length_phase1, blocks.length_phase2]; omega),
      List.getElem?_append_left (by
        rw [blocks.length_phase1, blocks.length_phase2, blocks.length_phase3Cycle]; omega),
      blocks.length_phase1, blocks.length_phase2]
    congr 1
    omega

theorem getElem?_address (fits : d.Fits) {v : ℕ} (inside : v < d.logK) :
    blocks.address[d.logK - 1 - v]? = blocks.window[d.addressRound v]? := by
  have h1 := fits.phase1
  have h2 := fits.phase2
  have total : (blocks.phase2 ++ blocks.phase3Address).length = d.logK := by
    rw [← blocks.length_address fits, address, List.length_reverse]
  rw [address, List.getElem?_reverse (by omega), total, show d.logK - 1 - (d.logK - 1 - v) = v by omega,
    addressRound, window, tail]
  split_ifs with first
  · rw [List.getElem?_append_left (by rw [blocks.length_phase2]; exact first),
      List.getElem?_append_right (by rw [blocks.length_phase1]; omega),
      List.getElem?_append_left (by rw [blocks.length_phase1, blocks.length_phase2]; omega),
      blocks.length_phase1]
    congr 1
    omega
  · rw [List.getElem?_append_right (by rw [blocks.length_phase2]; omega),
      List.getElem?_append_right (by rw [blocks.length_phase1]; omega),
      List.getElem?_append_right (by rw [blocks.length_phase1, blocks.length_phase2]; omega),
      List.getElem?_append_right (by
        rw [blocks.length_phase1, blocks.length_phase2, blocks.length_phase3Cycle]; omega),
      blocks.length_phase1, blocks.length_phase2, blocks.length_phase3Cycle]
    congr 1
    omega

end Blocks

end ReadWriteDimensions

end JoltWasm
