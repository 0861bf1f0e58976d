import Levos.Framework.Run

namespace Levos.Framework

variable {β : Type*}

/-- A store of blocks: what lies behind each pointer that was given away. No two blocks overlap. -/
@[ext] structure BlockStore (β : Type*) where
  held : Nat → Option (List β)
  apart : ∀ p q bs cs, held p = some bs → held q = some cs → p ≠ q →
    p + bs.length ≤ q ∨ q + cs.length ≤ p

inductive BlockEvent (β : Type*)
  | alloc (n p : Nat)
  | free (p : Nat)
  | write (a : Nat) (v : β)

namespace BlockStore

def empty : BlockStore β := ⟨fun _ => none, by simp⟩

/-- What is done with a store: a new block is given away, with any contents; a block is given back, or
the null pointer, which is none; and whoever has a block writes to it. -/
inductive Step : BlockStore β → BlockEvent β → BlockStore β → Prop
  | alloc {σ τ : BlockStore β} {p : Nat} (bs : List β) (hnew : σ.held p = none)
      (h : ∀ q, τ.held q = if q = p then some bs else σ.held q) : Step σ (.alloc bs.length p) τ
  | free {σ τ : BlockStore β} {p : Nat} (hp : σ.held p ≠ none)
      (h : ∀ q, τ.held q = if q = p then none else σ.held q) : Step σ (.free p) τ
  | null {σ : BlockStore β} (h0 : σ.held 0 = none) : Step σ (.free 0) σ
  | write {σ τ : BlockStore β} {p i : Nat} {bs : List β} (v : β) (hp : σ.held p = some bs)
      (hi : i < bs.length) (h : ∀ q, τ.held q = if q = p then some (bs.set i v) else σ.held q) :
      Step σ (.write (p + i) v) τ

/-- What an event leaves in a block at `p`. -/
def written (p : Nat) (bs : List β) : BlockEvent β → List β
  | .alloc _ _ => bs
  | .free _ => bs
  | .write a v => if p ≤ a then bs.set (a - p) v else bs

variable {σ τ : BlockStore β} {e : BlockEvent β} {es : List (BlockEvent β)} {p : Nat} {bs : List β}

/-- A block that is not given back keeps its bytes but for those that its owner writes. -/
theorem Step.kept (h : Step σ e τ) (hp : σ.held p = some bs) (hfree : e ≠ .free p) :
    τ.held p = some (written p bs e) := by
  cases h with
  | alloc cs hnew h =>
    rw [h, if_neg, hp]
    · rfl
    · rintro rfl
      rw [hnew] at hp
      cases hp
  | @free _ q hq h =>
    rw [h, if_neg, hp]
    · rfl
    · rintro rfl
      exact hfree rfl
  | null h0 => exact hp
  | @write _ q i cs v hq hi h =>
    rw [h]
    by_cases hpq : p = q
    · subst hpq
      obtain rfl := Option.some.inj (hp.symm.trans hq)
      simp [written]
    · rw [if_neg hpq, hp, written]
      split_ifs with hle
      · have hapart := σ.apart p q bs cs hp hq hpq
        rw [List.set_eq_of_length_le (by omega)]
      · rfl

/-- What a block holds is told by its contents at the beginning and by what its owner wrote. -/
theorem run_kept (h : Run Step σ es τ) (hp : σ.held p = some bs) (hfree : .free p ∉ es) :
    τ.held p = some (es.foldl (written p) bs) := by
  induction h generalizing bs with
  | nil σ => exact hp
  | cons hst _ ih =>
    rw [List.mem_cons, not_or] at hfree
    rw [List.foldl_cons]
    exact ih (hst.kept hp (Ne.symm hfree.1)) hfree.2

end BlockStore

end Levos.Framework
