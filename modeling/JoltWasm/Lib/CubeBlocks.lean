import JoltWasm.Lib.Rounds

/-!
# Sums over a cube, block by block

The coordinates of a cube come in blocks.  A sum over the cube is the sum over each block in turn, in any
order of the blocks and in any order within a block; a block that the summand does not read multiplies the
sum by the number of its corners.
-/

namespace JoltWasm.Lib

variable {F : Type*} [Field F]

theorem cubeSum_add (n : ℕ) (f g : List F → F) :
    cubeSum n (fun x => f x + g x) = cubeSum n f + cubeSum n g := by
  induction n generalizing f g with
  | zero => rfl
  | succ n ih =>
      rw [cubeSum, ih, ih, cubeSum, cubeSum]
      ring

theorem cubeSum_const (n : ℕ) (c : F) : cubeSum n (fun _ => c) = 2 ^ n * c := by
  induction n with
  | zero => rw [cubeSum, pow_zero, one_mul]
  | succ n ih =>
      rw [cubeSum, ih]
      ring

/-- The first coordinates before the others. -/
theorem cubeSum_append (m n : ℕ) (f : List F → F) :
    cubeSum (m + n) f = cubeSum m fun x => cubeSum n fun y => f (x ++ y) := by
  induction m generalizing f with
  | zero =>
      rw [Nat.zero_add]
      rfl
  | succ m ih =>
      rw [Nat.add_right_comm, cubeSum, ih, ih]
      rfl

theorem cubeSum_comm (m n : ℕ) (f : List F → List F → F) :
    cubeSum m (fun x => cubeSum n fun y => f x y) = cubeSum n fun y => cubeSum m fun x => f x y := by
  induction m generalizing f with
  | zero => rfl
  | succ m ih =>
      rw [cubeSum, ih, ih, ← cubeSum_add]
      rfl

/-- The coordinates in the other direction. -/
theorem cubeSum_reverse (n : ℕ) (f : List F → F) : cubeSum n (fun x => f x.reverse) = cubeSum n f := by
  induction n generalizing f with
  | zero => rfl
  | succ n ih =>
      rw [cubeSum_concat n f, cubeSum]
      simp only [List.reverse_cons]
      rw [ih fun x => f (x ++ [0]), ih fun x => f (x ++ [1])]

/-- Two lists of coordinates, each read in reverse from two blocks, that take turns. -/
theorem cubeSum_interleaved (m n k l : ℕ) (g : List F → List F → F) :
    (cubeSum m fun a => cubeSum n fun b => cubeSum k fun c => cubeSum l fun e =>
      g (b ++ e).reverse (a ++ c).reverse) =
      cubeSum (n + l) fun x => cubeSum (m + k) fun y => g x y := by
  have inner (x : List F) : (cubeSum m fun a => cubeSum k fun c => g x (a ++ c).reverse) =
      cubeSum (m + k) fun y => g x y := by
    rw [← cubeSum_append m k fun y => g x y.reverse, cubeSum_reverse (m + k) (g x)]
  calc (cubeSum m fun a => cubeSum n fun b => cubeSum k fun c => cubeSum l fun e =>
        g (b ++ e).reverse (a ++ c).reverse)
      = cubeSum n fun b => cubeSum m fun a => cubeSum l fun e => cubeSum k fun c =>
          g (b ++ e).reverse (a ++ c).reverse := by
        rw [cubeSum_comm m n]
        simp only [cubeSum_comm k l]
    _ = cubeSum n fun b => cubeSum l fun e => cubeSum (m + k) fun y => g (b ++ e).reverse y := by
        simp only [cubeSum_comm m l, inner]
    _ = cubeSum (n + l) fun x => cubeSum (m + k) fun y => g x y := by
        rw [← cubeSum_append n l fun x => cubeSum (m + k) fun y => g x.reverse y,
          cubeSum_reverse (n + l) fun x => cubeSum (m + k) fun y => g x y]

/-- A block that is not read doubles the sum for each of its coordinates. -/
theorem cubeSum_gap (n k l : ℕ) (g : List F → F) :
    (cubeSum n fun b => cubeSum k fun _ => cubeSum l fun e => g (b ++ e).reverse) =
      2 ^ k * cubeSum (n + l) g := by
  simp only [cubeSum_const]
  rw [cubeSum_mul, ← cubeSum_append n l fun x => g x.reverse, cubeSum_reverse (n + l) g]

/-- The fallible summand has a value at every point, and the corners add up to the total. -/
def SumsTo {ε : Type*} (n : ℕ) (summand : List F → Except ε F) (total : F) : Prop :=
  ∃ f : List F → F, (∀ x, x.length = n → summand x = .ok (f x)) ∧ cubeSum n f = total

theorem SumsTo.unique {ε : Type*} {n : ℕ} {summand : List F → Except ε F} {a b : F}
    (first : SumsTo n summand a) (second : SumsTo n summand b) : a = b := by
  obtain ⟨f, values, rfl⟩ := first
  obtain ⟨g, values', rfl⟩ := second
  exact cubeSum_congr fun x length => Except.ok.inj ((values x length).symm.trans (values' x length))

/-- A summand with values sums to their sum. -/
theorem SumsTo.of_values {ε : Type*} {n : ℕ} {summand : List F → Except ε F} {total : F}
    (values : ∀ x, x.length = n → ∃ v, summand x = .ok v)
    (sum : ∀ f : List F → F, (∀ x v, summand x = .ok v → f x = v) → cubeSum n f = total) :
    SumsTo n summand total := by
  have known (x : List F) (v : F) (value : summand x = .ok v) : (summand x).toOption.getD 0 = v := by
    rw [value]
    rfl
  refine ⟨fun x => (summand x).toOption.getD 0, fun x length => ?_, sum _ known⟩
  obtain ⟨v, value⟩ := values x length
  exact value.trans (congrArg Except.ok (known x v value).symm)

theorem SumsTo.iff {ε : Type*} {n : ℕ} {summand : List F → Except ε F} {a : F}
    (sums : SumsTo n summand a) (b : F) : SumsTo n summand b ↔ b = a :=
  ⟨fun other => other.unique sums, fun same => same ▸ sums⟩

end JoltWasm.Lib
