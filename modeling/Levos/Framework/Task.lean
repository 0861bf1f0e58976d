import Levos.Framework.Fault

namespace Levos.Framework

/-- Code that runs on a state. It may stop with a fault, and it may not come back. -/
def Task (τ α : Type) := τ → Except Fault (Option (α × τ))

namespace Task

variable {τ κ α β : Type}

/-- One task after another. -/
protected def bind (c : Task τ α) (f : α → Task τ β) : Task τ β := fun t =>
  match c t with
  | .error e => .error e
  | .ok none => .ok none
  | .ok (some (a, t)) => f a t

instance : Monad (Task τ) where
  pure := fun a t => .ok (some (a, t))
  bind := Task.bind

/-- A computation that does not look at the state. -/
def check (x : Except Fault α) : Task τ α := fun t => x.map fun a => some (a, t)

/-- The task comes back, with an answer and a state. -/
def Returns (c : Task τ α) (t : τ) (a : α) (t' : τ) : Prop := c t = .ok (some (a, t'))

/-- Whenever the task comes back, what `g` sees of the state is as it was. -/
def Keeps (g : τ → κ) (c : Task τ α) : Prop := ∀ t a t', c.Returns t a t' → g t' = g t

section Rules

variable {g : τ → κ} {c : Task τ α} {f : α → Task τ β} {t t' : τ} {a b : α}

theorem returns_pure : (pure a : Task τ α).Returns t b t' ↔ a = b ∧ t = t' := by
  simp [Returns, pure]

theorem returns_bind {b : β} : (c >>= f).Returns t b t' ↔
    ∃ a t₁, c.Returns t a t₁ ∧ (f a).Returns t₁ b t' := by
  have hbind : (c >>= f) t = Task.bind c f t := rfl
  rw [Returns, hbind, Task.bind]
  simp only [Returns]
  cases c t with
  | error e => simp
  | ok res =>
    cases res with
    | none => simp
    | some at₁ =>
      simp only [Except.ok.injEq, Option.some.injEq]
      constructor
      · intro h
        exact ⟨at₁.1, at₁.2, rfl, h⟩
      · intro h
        obtain ⟨a, t₁, rfl, h⟩ := h
        exact h

theorem returns_check {x : Except Fault α} : (check x : Task τ α).Returns t a t' ↔ x = .ok a ∧ t = t' := by
  cases x with
  | error e => simp [Returns, check, Except.map]
  | ok b => simp [Returns, check, Except.map]

theorem Keeps.pure (a : α) : Keeps g (pure a : Task τ α) := by
  intro t b t' h
  rw [(returns_pure.mp h).2]

theorem Keeps.check (x : Except Fault α) : Keeps g (check x : Task τ α) := by
  intro t b t' h
  rw [(returns_check.mp h).2]

theorem Keeps.bind (hc : Keeps g c) (hf : ∀ a, Keeps g (f a)) : Keeps g (c >>= f) := by
  intro t b t' h
  obtain ⟨a, t₁, hfirst, hrest⟩ := returns_bind.mp h
  rw [hf a t₁ b t' hrest, hc t a t₁ hfirst]

theorem Keeps.ite {p : Prop} [Decidable p] {d : Task τ α} (hc : Keeps g c) (hd : Keeps g d) :
    Keeps g (if p then c else d) := by
  split
  · exact hc
  · exact hd

end Rules

end Task

end Levos.Framework
