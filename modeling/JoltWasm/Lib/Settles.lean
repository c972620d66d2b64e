import Mathlib.Order.Nat
import JoltWasm.Lib.Keeps

/-!
# Outcomes of stateful computations that may fail

`Settles μ I E n x Q`: from a state with `I` whose size is at least `n`, a run of `x` either fails
with `E`, or ends in a state with `I` that is no smaller, with a result and a size in `Q`.
-/

namespace JoltWasm.Lib

variable {σ ε α β : Type}

def Settles (μ : σ → ℕ) (I : σ → Prop) (E : ε → Prop) (n : ℕ) (x : StateT σ (Except ε) α)
    (Q : α → ℕ → Prop) : Prop :=
  ∀ s, I s → n ≤ μ s →
    match x s with
    | .ok (a, s') => I s' ∧ μ s ≤ μ s' ∧ Q a (μ s')
    | .error e => E e

namespace Settles

variable {μ : σ → ℕ} {I : σ → Prop} {E : ε → Prop} {n : ℕ}

theorem pure {Q : α → ℕ → Prop} {a : α} (holds : ∀ k, n ≤ k → Q a k) :
    Settles μ I E n (Pure.pure a : StateT σ (Except ε) α) Q :=
  fun _ inv size => ⟨inv, le_rfl, holds _ size⟩

theorem throw {Q : α → ℕ → Prop} {e : ε} (holds : E e) :
    Settles μ I E n (MonadExcept.throw e : StateT σ (Except ε) α) Q :=
  fun _ _ _ => holds

theorem bind {x : StateT σ (Except ε) α} {f : α → StateT σ (Except ε) β} {Q : α → ℕ → Prop}
    {R : β → ℕ → Prop} (first : Settles μ I E n x Q)
    (rest : ∀ a k, n ≤ k → Q a k → Settles μ I E k (f a) R) : Settles μ I E n (x >>= f) R := by
  intro s inv size
  have firstRun := first s inv size
  change match (x s).bind (fun p => f p.1 p.2) with
    | .ok (b, s') => I s' ∧ μ s ≤ μ s' ∧ R b (μ s')
    | .error e => E e
  cases ran : x s with
  | error e =>
      rw [ran] at firstRun
      exact firstRun
  | ok p =>
      obtain ⟨a, t⟩ := p
      rw [ran] at firstRun
      obtain ⟨invT, grown, holds⟩ := firstRun
      have restRun := rest a (μ t) (size.trans grown) holds t invT le_rfl
      change match f a t with
        | .ok (b, s') => I s' ∧ μ s ≤ μ s' ∧ R b (μ s')
        | .error e => E e
      cases next : f a t with
      | error e =>
          rw [next] at restRun
          exact restRun
      | ok p =>
          rw [next] at restRun
          exact ⟨restRun.1, grown.trans restRun.2.1, restRun.2.2⟩

/-- A sequence whose first result is not used. -/
theorem seq {x : StateT σ (Except ε) α} {f : α → StateT σ (Except ε) β} {R : β → ℕ → Prop}
    (first : Settles μ I E n x fun _ _ => True)
    (rest : ∀ a k, n ≤ k → Settles μ I E k (f a) R) : Settles μ I E n (x >>= f) R :=
  first.bind fun a k grown _ => rest a k grown

/-- A sequence whose first part never succeeds. -/
theorem stop {x : StateT σ (Except ε) α} {f : α → StateT σ (Except ε) β} {R : β → ℕ → Prop}
    (first : Settles μ I E n x fun _ _ => False) : Settles μ I E n (x >>= f) R :=
  first.bind fun _ _ _ absurd => absurd.elim

theorem mono {E' : ε → Prop} {x : StateT σ (Except ε) α} {Q R : α → ℕ → Prop}
    (settles : Settles μ I E n x Q) (weaker : ∀ a k, n ≤ k → Q a k → R a k)
    (failures : ∀ e, E e → E' e) : Settles μ I E' n x R := by
  intro s inv size
  have run := settles s inv size
  cases ran : x s with
  | error e =>
      rw [ran] at run
      exact failures e run
  | ok p =>
      rw [ran] at run
      exact ⟨run.1, run.2.1, weaker _ _ (size.trans run.2.1) run.2.2⟩

theorem get : Settles μ I E n (MonadState.get : StateT σ (Except ε) σ) fun s k => I s ∧ μ s = k :=
  fun _ inv _ => ⟨inv, le_rfl, inv, rfl⟩

theorem modify {f : σ → σ} (preserved : ∀ s, I s → n ≤ μ s → I (f s) ∧ μ s ≤ μ (f s)) :
    Settles μ I E n (modifyGet (fun s => (PUnit.unit, f s)) : StateT σ (Except ε) PUnit)
      fun _ _ => True :=
  fun s inv size => ⟨(preserved s inv size).1, (preserved s inv size).2, trivial⟩

theorem ok {x : StateT σ (Except ε) α} {Q : α → ℕ → Prop} (settles : Settles μ I E n x Q) {s s' : σ}
    {a : α} (inv : I s) (size : n ≤ μ s) (ran : x s = .ok (a, s')) :
    I s' ∧ μ s ≤ μ s' ∧ Q a (μ s') := by
  have run := settles s inv size
  rwa [ran] at run

theorem error {x : StateT σ (Except ε) α} {Q : α → ℕ → Prop} (settles : Settles μ I E n x Q) {s : σ}
    {e : ε} (inv : I s) (size : n ≤ μ s) (ran : x s = .error e) : E e := by
  have run := settles s inv size
  rwa [ran] at run

theorem ite {c : Prop} [Decidable c] {x y : StateT σ (Except ε) α} {Q : α → ℕ → Prop}
    (yes : c → Settles μ I E n x Q) (no : ¬ c → Settles μ I E n y Q) :
    Settles μ I E n (if c then x else y) Q := by
  by_cases h : c
  · rw [if_pos h]
    exact yes h
  · rw [if_neg h]
    exact no h

theorem forM {f : α → StateT σ (Except ε) PUnit} (xs : List α)
    (each : ∀ a ∈ xs, ∀ k, n ≤ k → Settles μ I E k (f a) fun _ _ => True) :
    Settles μ I E n (xs.forM f) fun _ _ => True := by
  induction xs generalizing n with
  | nil => exact pure fun _ _ => trivial
  | cons x xs ih =>
      change Settles μ I E n (f x >>= fun _ => xs.forM f) _
      refine seq (each x List.mem_cons_self n le_rfl) fun _ k grown => ih ?_
      intro a member k' further
      exact each a (List.mem_cons_of_mem _ member) k' (grown.trans further)

/-- A loop whose first round never succeeds. -/
theorem forM_stop {f : α → StateT σ (Except ε) PUnit} {x : α} {xs : List α} {Q : PUnit → ℕ → Prop}
    (first : Settles μ I E n (f x) fun _ _ => False) : Settles μ I E n ((x :: xs).forM f) Q :=
  stop first

end Settles

/-- A sequence fails with `e` where its first part does, or the rest after it. -/
theorem bind_ne_error {x : StateT σ (Except ε) α} {f : α → StateT σ (Except ε) β} {s : σ} {e : ε} :
    (x >>= f) s ≠ .error e ↔
      x s ≠ .error e ∧ ∀ a s', x s = .ok (a, s') → f a s' ≠ .error e := by
  change (x s).bind (fun p => f p.1 p.2) ≠ .error e ↔ _
  cases ran : x s with
  | error e' =>
      constructor
      · intro other
        refine ⟨?_, nofun⟩
        rintro ⟨⟩
        exact other rfl
      · rintro ⟨first, -⟩ ⟨⟩
        exact first rfl
  | ok p =>
      obtain ⟨a, t⟩ := p
      refine ⟨fun rest => ⟨nofun, ?_⟩, fun both => both.2 a t rfl⟩
      rintro a s' ⟨⟩
      exact rest

end JoltWasm.Lib
