import Mathlib.Algebra.Group.Nat.Defs
import Mathlib.Logic.Basic

namespace Levos

/-- The ways in which the kernel stops, or C stops giving its code a meaning. A panic carries its
format text. -/
inductive Fault
  | panic (msg : String)
  | nullPointer
  | outOfBounds
  | uninitialised
  | divideByZero
  | shiftTooFar
  | diverges
  deriving DecidableEq, Repr

variable {α β : Type}

/-- A computation that returns has run each of its parts. -/
theorem bind_eq_ok {x : Except Fault α} {f : α → Except Fault β} {b : β} :
    x >>= f = .ok b ↔ ∃ a, x = .ok a ∧ f a = .ok b := by
  cases x with
  | error e =>
    constructor
    · intro h
      cases h
    · rintro ⟨_, h, _⟩
      cases h
  | ok a =>
    constructor
    · intro h
      exact ⟨a, rfl, h⟩
    · rintro ⟨_, h, k⟩
      cases h
      exact k

/-- Whatever stops a computation, it is not one of the faults `F`. -/
def Avoids (F : Fault → Prop) (x : Except Fault α) : Prop := ∀ e, x = .error e → ¬F e

theorem Avoids.ok {F : Fault → Prop} (a : α) : Avoids F (.ok a) := fun _ h => by cases h

theorem Avoids.error {F : Fault → Prop} {e : Fault} (h : ¬F e) :
    Avoids F (.error e : Except Fault α) := by
  intro e' he
  cases he
  exact h

theorem Avoids.bind {F : Fault → Prop} {x : Except Fault α} {f : α → Except Fault β}
    (hx : Avoids F x) (hf : ∀ a, Avoids F (f a)) : Avoids F (x >>= f) := by
  cases x with
  | error e => exact Avoids.error (hx e rfl)
  | ok a => exact hf a

/-- What a computation returns satisfies `P`, and what stops it satisfies `E`. -/
def Outcome (P : α → Prop) (E : Fault → Prop) : Except Fault α → Prop
  | .ok a => P a
  | .error e => E e

namespace Outcome

variable {P : α → Prop} {Q : β → Prop} {E : Fault → Prop} {x : Except Fault α}

theorem bind {f : α → Except Fault β} (hx : Outcome P E x) (hf : ∀ a, P a → Outcome Q E (f a)) :
    Outcome Q E (x >>= f) := by
  cases x with
  | error e => exact hx
  | ok a => exact hf a hx

theorem imp {Q : α → Prop} (hx : Outcome P E x) (h : ∀ a, P a → Q a) : Outcome Q E x := by
  cases x with
  | error e => exact hx
  | ok a => exact h a hx

theorem map {f : α → β} (hx : Outcome P E x) (hf : ∀ a, P a → Q (f a)) : Outcome Q E (x.map f) := by
  cases x with
  | error e => exact hx
  | ok a => exact hf a hx

end Outcome

/-- Two computations stop for the same reason, or return values that `R` relates. -/
def Alike {γ δ : Type} (R : γ → δ → Prop) : Except Fault γ → Except Fault δ → Prop
  | .ok a, .ok b => R a b
  | .error e, .error e' => e = e'
  | _, _ => False

namespace Alike

variable {γ δ : Type} {R : α → β → Prop} {S : γ → δ → Prop} {x : Except Fault α} {y : Except Fault β}

theorem bind {f : α → Except Fault γ} {g : β → Except Fault δ} (h : Alike R x y)
    (hf : ∀ a b, R a b → Alike S (f a) (g b)) : Alike S (x >>= f) (y >>= g) := by
  cases x with
  | error e =>
    cases y with
    | error e' => exact h
    | ok b => exact h.elim
  | ok a =>
    cases y with
    | error e' => exact h.elim
    | ok b => exact hf a b h

theorem same {x : Except Fault α} {f : α → Except Fault γ} {g : α → Except Fault δ}
    (hf : ∀ a, Alike S (f a) (g a)) : Alike S (x >>= f) (x >>= g) := by
  cases x with
  | error e => exact rfl
  | ok a => exact hf a

/-- What the relation does not tell apart is the same. -/
theorem map_eq {f : α → γ} {g : β → γ} (h : Alike R x y) (hf : ∀ a b, R a b → f a = g b) :
    x.map f = y.map g := by
  cases x with
  | error e =>
    cases y with
    | error e' => exact congrArg _ h
    | ok b => exact h.elim
  | ok a =>
    cases y with
    | error e' => exact h.elim
    | ok b => exact congrArg _ (hf a b h)

end Alike

@[simp] theorem ok_bind (a : α) (f : α → Except Fault β) : (.ok a : Except Fault α) >>= f = f a := rfl

@[simp] theorem error_bind (e : Fault) (f : α → Except Fault β) :
    (.error e : Except Fault α) >>= f = .error e := rfl

end Levos
