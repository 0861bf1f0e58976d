import Levos.Framework.Fault

namespace Levos.Framework

variable {α β : Type} {f : α → Except Fault (Option β)} {l l' : List α} {a : α} {b : β}

/-- A scan passes an element that has nothing to say. -/
theorem findSomeM?_passed (h : f a = .ok none) : (a :: l).findSomeM? f = l.findSomeM? f := by
  rw [List.findSomeM?_cons, h]
  rfl

/-- It stops at any other one. -/
theorem findSomeM?_stopped (h : f a ≠ .ok none) : (a :: l).findSomeM? f = f a := by
  rw [List.findSomeM?_cons]
  cases hf : f a with
  | error e => rfl
  | ok o =>
    cases o with
    | none => exact absurd hf h
    | some b => rfl

/-- A scan that finds nothing goes on behind the list. -/
theorem findSomeM?_append_none (h : l.findSomeM? f = .ok none) :
    (l ++ l').findSomeM? f = l'.findSomeM? f := by
  induction l with
  | nil => rfl
  | cons a l ih =>
    by_cases ha : f a = .ok none
    · rw [findSomeM?_passed ha] at h
      rw [List.cons_append, findSomeM?_passed ha]
      exact ih h
    · rw [findSomeM?_stopped ha] at h
      exact absurd h ha

/-- Any other one does not. -/
theorem findSomeM?_append_stopped (h : l.findSomeM? f ≠ .ok none) :
    (l ++ l').findSomeM? f = l.findSomeM? f := by
  induction l with
  | nil => exact absurd rfl h
  | cons a l ih =>
    by_cases ha : f a = .ok none
    · rw [findSomeM?_passed ha] at h
      rw [List.cons_append, findSomeM?_passed ha, findSomeM?_passed ha]
      exact ih h
    · rw [List.cons_append, findSomeM?_stopped ha, findSomeM?_stopped ha]

/-- Nothing is found when every element is passed. -/
theorem findSomeM?_eq_none : l.findSomeM? f = .ok none ↔ ∀ a ∈ l, f a = .ok none := by
  induction l with
  | nil => simp [pure, Except.pure]
  | cons a l ih =>
    rw [List.forall_mem_cons]
    by_cases ha : f a = .ok none
    · rw [findSomeM?_passed ha, ih]
      simp [ha]
    · rw [findSomeM?_stopped ha]
      simp [ha]

/-- What is found is found at the first element that is not passed. -/
theorem findSomeM?_eq_some : l.findSomeM? f = .ok (some b) ↔
    ∃ pre a post, l = pre ++ a :: post ∧ (∀ x ∈ pre, f x = .ok none) ∧ f a = .ok (some b) := by
  constructor
  · intro h
    induction l with
    | nil => cases h
    | cons a l ih =>
      by_cases ha : f a = .ok none
      · rw [findSomeM?_passed ha] at h
        obtain ⟨pre, a', post, rfl, hpre, ha'⟩ := ih h
        exact ⟨a :: pre, a', post, rfl, List.forall_mem_cons.mpr ⟨ha, hpre⟩, ha'⟩
      · rw [findSomeM?_stopped ha] at h
        exact ⟨[], a, l, rfl, by simp, h⟩
  · intro ⟨pre, a, post, hl, hpre, ha⟩
    rw [hl, findSomeM?_append_none (findSomeM?_eq_none.mpr hpre), findSomeM?_stopped (by simp [ha]), ha]

/-- A scan gets through when it gets through each element that it comes to. -/
theorem findSomeM?_ok_iff : (∃ o, l.findSomeM? f = .ok o) ↔
    ∀ pre a post, l = pre ++ a :: post → (∀ x ∈ pre, f x = .ok none) → ∃ o, f a = .ok o := by
  constructor
  · intro ⟨o, h⟩ pre a post hl hpre
    rw [hl, findSomeM?_append_none (findSomeM?_eq_none.mpr hpre)] at h
    by_cases ha : f a = .ok none
    · exact ⟨none, ha⟩
    · rw [findSomeM?_stopped ha] at h
      exact ⟨o, h⟩
  · intro h
    induction l with
    | nil => exact ⟨none, rfl⟩
    | cons a l ih =>
      by_cases ha : f a = .ok none
      · rw [findSomeM?_passed ha]
        apply ih
        intro pre a' post hl hpre
        exact h (a :: pre) a' post (by rw [hl]; rfl) (List.forall_mem_cons.mpr ⟨ha, hpre⟩)
      · rw [findSomeM?_stopped ha]
        exact h [] a l rfl (by simp)

end Levos.Framework
