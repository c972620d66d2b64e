import Mathlib.Data.List.Basic

/-!
# Invariants of stateful computations that may fail

`Keeps I x Q`: from a state with `I`, a run of `x` that succeeds ends in a state with `I` and returns
a result with `Q`.
-/

namespace JoltWasm.Lib

variable {σ ε α β : Type}

def Keeps (I : σ → Prop) (x : StateT σ (Except ε) α) (Q : α → Prop) : Prop :=
  ∀ s, I s → ∀ a s', x s = .ok (a, s') → I s' ∧ Q a

/-- A result of a sequence comes from a result of its first part. -/
theorem except_bind_eq_ok {x : Except ε α} {f : α → Except ε β} {b : β} :
    x >>= f = .ok b ↔ ∃ a, x = .ok a ∧ f a = .ok b := by
  change x.bind f = _ ↔ _
  cases x <;> simp [Except.bind]

/-- A sequence of checks succeeds when the first does and the rest succeeds. -/
theorem except_check_eq_ok {c : Prop} [Decidable c] {e : ε} {k : PUnit → Except ε β} {b : β} :
    (if c then Except.error e >>= k else k ⟨⟩) = .ok b ↔ ¬c ∧ k ⟨⟩ = .ok b := by
  by_cases failed : c
  · rw [if_pos failed]
    exact ⟨nofun, fun h => absurd failed h.1⟩
  · rw [if_neg failed]
    exact ⟨fun h => ⟨failed, h⟩, And.right⟩

/-- A list whose entries all succeed. -/
theorem mapM_ok {f : α → Except ε β} {g : α → β} {items : List α}
    (each : ∀ item ∈ items, f item = .ok (g item)) : items.mapM f = .ok (items.map g) := by
  induction items with
  | nil => rfl
  | cons item items ih =>
      rw [List.mapM_cons, each item List.mem_cons_self,
        ih fun other member => each other (List.mem_cons_of_mem _ member)]
      rfl

theorem forM_ok {f : α → Except ε PUnit} {items : List α} (each : ∀ item ∈ items, f item = .ok ⟨⟩) :
    items.forM f = .ok ⟨⟩ := by
  induction items with
  | nil => rfl
  | cons item items ih =>
      change (f item >>= fun _ => items.forM f) = _
      rw [each item List.mem_cons_self]
      exact ih fun other member => each other (List.mem_cons_of_mem _ member)

theorem bind_eq_ok {x : StateT σ (Except ε) α} {f : α → StateT σ (Except ε) β} {s s' : σ} {b : β} :
    (x >>= f) s = .ok (b, s') ↔ ∃ a t, x s = .ok (a, t) ∧ f a t = .ok (b, s') := by
  change (x s).bind (fun p => f p.1 p.2) = _ ↔ _
  cases x s with
  | error e => simp [Except.bind]
  | ok p =>
      obtain ⟨a, t⟩ := p
      simp [Except.bind]

namespace Keeps

variable {I : σ → Prop}

theorem pure {Q : α → Prop} {a : α} (holds : Q a) :
    Keeps I (Pure.pure a : StateT σ (Except ε) α) Q := by
  rintro s inv a s' ⟨⟩
  exact ⟨inv, holds⟩

theorem throw {Q : α → Prop} (e : ε) : Keeps I (MonadExcept.throw e : StateT σ (Except ε) α) Q := by
  rintro s inv a s' ⟨⟩

theorem bind {x : StateT σ (Except ε) α} {f : α → StateT σ (Except ε) β} {Q : α → Prop}
    {R : β → Prop} (first : Keeps I x Q) (rest : ∀ a, Q a → Keeps I (f a) R) :
    Keeps I (x >>= f) R := by
  intro s inv b s' run
  obtain ⟨a, t, ran, next⟩ := bind_eq_ok.mp run
  obtain ⟨invT, holds⟩ := first s inv a t ran
  exact rest a holds t invT b s' next

/-- A sequence whose first result is not used. -/
theorem seq {x : StateT σ (Except ε) α} {f : α → StateT σ (Except ε) β} {R : β → Prop}
    (first : Keeps I x fun _ => True) (rest : ∀ a, Keeps I (f a) R) : Keeps I (x >>= f) R :=
  first.bind fun a _ => rest a

theorem mono {x : StateT σ (Except ε) α} {Q R : α → Prop} (keeps : Keeps I x Q)
    (weaker : ∀ a, Q a → R a) : Keeps I x R := by
  intro s inv a s' run
  obtain ⟨invS, holds⟩ := keeps s inv a s' run
  exact ⟨invS, weaker a holds⟩

theorem get : Keeps I (MonadState.get : StateT σ (Except ε) σ) I := by
  rintro s inv a s' ⟨⟩
  exact ⟨inv, inv⟩

theorem set {s : σ} (holds : I s) :
    Keeps I (MonadState.set s : StateT σ (Except ε) PUnit) fun _ => True := by
  rintro t - a s' ⟨⟩
  exact ⟨holds, trivial⟩

theorem modify {f : σ → σ} (preserved : ∀ s, I s → I (f s)) :
    Keeps I (modifyGet (fun s => (PUnit.unit, f s)) : StateT σ (Except ε) PUnit) fun _ => True := by
  rintro s inv a s' ⟨⟩
  exact ⟨preserved s inv, trivial⟩

theorem ite {c : Prop} [Decidable c] {x y : StateT σ (Except ε) α} {Q : α → Prop}
    (yes : c → Keeps I x Q) (no : ¬ c → Keeps I y Q) : Keeps I (if c then x else y) Q := by
  by_cases h : c
  · rw [if_pos h]
    exact yes h
  · rw [if_neg h]
    exact no h

theorem forM {f : α → StateT σ (Except ε) PUnit} (xs : List α)
    (each : ∀ a ∈ xs, Keeps I (f a) fun _ => True) : Keeps I (xs.forM f) fun _ => True := by
  induction xs with
  | nil => exact pure trivial
  | cons x xs ih =>
      change Keeps I (f x >>= fun _ => xs.forM f) _
      refine seq (each x List.mem_cons_self) fun _ => ih fun a member => ?_
      exact each a (List.mem_cons_of_mem _ member)

end Keeps

end JoltWasm.Lib
