import Mathlib.Tactic.TypeStar
import JoltWasm.Lib.Keeps

/-!
# Computations that agree until one stops

`Agrees f stop x`: a run of `x` stops with `stop`, or the run from the state that `f` changes has the
same outcome, with its state changed by `f`.
-/

namespace JoltWasm.Lib

variable {σ ε α β : Type}

def Agrees (f : σ → σ) (stop : ε) (x : StateT σ (Except ε) α) : Prop :=
  ∀ s, x s = .error stop ∨ x (f s) = (x s).map fun p => (p.1, f p.2)

namespace Agrees

variable {f : σ → σ} {stop : ε}

@[simp]
theorem pure (a : α) : Agrees f stop (Pure.pure a : StateT σ (Except ε) α) :=
  fun _ => .inr rfl

@[simp]
theorem throw (e : ε) : Agrees f stop (MonadExcept.throw e : StateT σ (Except ε) α) :=
  fun _ => .inr rfl

@[simp]
theorem bind {x : StateT σ (Except ε) α} {g : α → StateT σ (Except ε) β} (first : Agrees f stop x)
    (rest : ∀ a, Agrees f stop (g a)) : Agrees f stop (x >>= g) := by
  intro s
  change (x s).bind (fun p => g p.1 p.2) = _ ∨
    (x (f s)).bind (fun p => g p.1 p.2) = ((x s).bind fun p => g p.1 p.2).map _
  rcases first s with stopped | same
  · rw [stopped]
    exact .inl rfl
  · rw [same]
    cases x s with
    | error e => exact .inr rfl
    | ok p => exact rest p.1 p.2

@[simp]
theorem map {x : StateT σ (Except ε) α} (g : α → β) (agrees : Agrees f stop x) :
    Agrees f stop (g <$> x) := by
  rw [map_eq_pure_bind]
  exact agrees.bind fun a => pure (g a)

theorem get_bind {g : σ → StateT σ (Except ε) β}
    (each : ∀ s, g s s = .error stop ∨ g (f s) (f s) = (g s s).map fun p => (p.1, f p.2)) :
    Agrees f stop (MonadState.get >>= g) :=
  each

/-- A change of the state that commutes with `f`. -/
theorem modify {g : σ → σ} (commutes : ∀ s, g (f s) = f (g s)) :
    Agrees f stop (modifyGet (fun s => (PUnit.unit, g s)) : StateT σ (Except ε) PUnit) := by
  intro s
  right
  change Except.ok (PUnit.unit, g (f s)) = Except.ok (PUnit.unit, f (g s))
  rw [commutes]

@[simp]
theorem ite {c : Prop} [Decidable c] {x y : StateT σ (Except ε) α} (yes : Agrees f stop x)
    (no : Agrees f stop y) : Agrees f stop (if c then x else y) := by
  split
  · exact yes
  · exact no

@[simp]
theorem forM {g : α → StateT σ (Except ε) PUnit} (xs : List α) (each : ∀ a, Agrees f stop (g a)) :
    Agrees f stop (xs.forM g) := by
  induction xs with
  | nil => exact pure _
  | cons x xs ih => exact bind (each x) fun _ => ih

end Agrees

end JoltWasm.Lib
