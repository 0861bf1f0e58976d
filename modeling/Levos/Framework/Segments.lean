import Mathlib.Algebra.GroupWithZero.Nat
import Mathlib.Data.List.Pairwise
import Mathlib.Order.Basic

namespace Levos.Framework

variable {α : Type*}

/-- The segments lie between `lo` and `hi`, one behind the other, each from its `start` to its
`stop`. -/
def Packed (start stop : α → Nat) (lo hi : Nat) : List α → Prop
  | [] => lo ≤ hi
  | x :: xs => lo ≤ start x ∧ start x ≤ stop x ∧ Packed start stop (stop x) hi xs

/-- Where the segments end that begin at `lo`. -/
def endOf (stop : α → Nat) (lo : Nat) : List α → Nat
  | [] => lo
  | x :: xs => endOf stop (stop x) xs

/-- Where the first of the segments begins that go up to `hi`. -/
def startOf (start : α → Nat) (hi : Nat) : List α → Nat
  | [] => hi
  | x :: _ => start x

theorem endOf_getLast? (stop : α → Nat) (lo : Nat) (xs : List α) :
    endOf stop lo xs = xs.getLast?.elim lo stop := by
  induction xs generalizing lo with
  | nil => rfl
  | cons x xs ih =>
    rw [endOf, ih, List.getLast?_cons]
    cases xs.getLast? <;> rfl

namespace Packed

variable {start stop : α → Nat} {lo hi lo' : Nat} {xs pre post : List α} {x y : α}

theorem le (h : Packed start stop lo hi xs) : lo ≤ hi := by
  induction xs generalizing lo with
  | nil => exact h
  | cons x xs ih =>
    obtain ⟨h1, h2, h3⟩ := h
    have := ih h3
    omega

theorem lower (h : Packed start stop lo hi xs) (hle : lo' ≤ lo) : Packed start stop lo' hi xs := by
  cases xs with
  | nil => exact Nat.le_trans hle h
  | cons x xs => exact ⟨Nat.le_trans hle h.1, h.2⟩

theorem bounds (h : Packed start stop lo hi xs) (hx : x ∈ xs) :
    lo ≤ start x ∧ start x ≤ stop x ∧ stop x ≤ hi := by
  induction xs generalizing lo with
  | nil => cases hx
  | cons y xs ih =>
    obtain ⟨h1, h2, h3⟩ := h
    rcases List.mem_cons.mp hx with rfl | hx
    · exact ⟨h1, h2, h3.le⟩
    · have := ih h3 hx
      omega

/-- A segment behind another one begins where that one has ended. -/
theorem pairwise (h : Packed start stop lo hi xs) : xs.Pairwise fun x y => stop x ≤ start y := by
  induction xs generalizing lo with
  | nil => exact .nil
  | cons x xs ih =>
    obtain ⟨-, -, h3⟩ := h
    exact .cons (fun y hy => (h3.bounds hy).1) (ih h3)

/-- Different segments do not overlap. -/
theorem apart (h : Packed start stop lo hi xs) (hx : x ∈ xs) (hy : y ∈ xs) (hne : x ≠ y) :
    stop x ≤ start y ∨ stop y ≤ start x := by
  have hsymm : Std.Symm fun x y => stop x ≤ start y ∨ stop y ≤ start x := ⟨fun _ _ h => h.symm⟩
  have hpairs : xs.Pairwise fun x y => stop x ≤ start y ∨ stop y ≤ start x := h.pairwise.imp .inl
  exact hpairs.forall hx hy hne

/-- The segments in front of the last one end before it begins. -/
theorem before_last (h : Packed start stop lo hi xs) (hy : xs.getLast? = some y)
    (hx : x ∈ xs.dropLast) : stop x ≤ start y := by
  obtain ⟨ys, rfl⟩ := List.getLast?_eq_some_iff.mp hy
  rw [List.dropLast_concat] at hx
  exact (List.pairwise_append.mp h.pairwise).2.2 x hx y (List.mem_singleton_self y)

/-- The segments behind the first one begin where it has ended. -/
theorem behind_head (h : Packed start stop lo hi xs) (hy : xs.head? = some y) (hx : x ∈ xs.tail) :
    stop y ≤ start x := by
  cases xs with
  | nil => cases hx
  | cons z zs =>
    obtain rfl : z = y := by simpa using hy
    exact List.rel_of_pairwise_cons h.pairwise hx

theorem append (h : Packed start stop lo hi (pre ++ post)) :
    Packed start stop lo (endOf stop lo pre) pre ∧ endOf stop lo pre ≤ startOf start hi post ∧
      Packed start stop (endOf stop lo pre) hi post := by
  induction pre generalizing lo with
  | nil =>
    refine ⟨Nat.le_refl _, ?_, h⟩
    cases post with
    | nil => exact h
    | cons y ys => exact h.1
  | cons x pre ih =>
    obtain ⟨h1, h2, h3⟩ := h
    obtain ⟨k1, k2, k3⟩ := ih h3
    exact ⟨⟨h1, h2, k1⟩, k2, k3⟩

/-- The first segment begins inside the range. -/
theorem head_le (h : Packed start stop lo hi xs) : lo ≤ startOf start hi xs := by
  cases xs with
  | nil => exact h
  | cons x xs => exact h.1

/-- Behind the beginning of the first segment there is room for all of them. -/
theorem startOf_add_le (h : Packed start stop lo hi xs) :
    startOf start hi xs + (xs.map fun x => stop x - start x).sum ≤ hi := by
  induction xs generalizing lo with
  | nil => exact Nat.le_of_eq rfl
  | cons x xs ih =>
    obtain ⟨-, h2, h3⟩ := h
    have hrest := ih h3
    have hstart : stop x ≤ startOf start hi xs := head_le h3
    simp only [startOf, List.map_cons, List.sum_cons]
    omega

/-- No gap is longer than the room that the segments leave. -/
theorem gap_le (h : Packed start stop lo hi (pre ++ post)) :
    lo + (((pre ++ post).map fun x => stop x - start x).sum) +
      (startOf start hi post - endOf stop lo pre) ≤ hi := by
  induction pre generalizing lo with
  | nil =>
    have hpost := h.startOf_add_le
    have hstart : lo ≤ startOf start hi post := head_le h
    simp only [List.nil_append, endOf] at hpost ⊢
    omega
  | cons x pre ih =>
    obtain ⟨h1, h2, h3⟩ := h
    have hrest := ih h3
    simp only [List.cons_append, List.map_cons, List.sum_cons, endOf]
    omega

/-- A new segment in a gap that holds it. -/
theorem insert (h : Packed start stop lo hi (pre ++ post)) (h1 : endOf stop lo pre ≤ start x)
    (h2 : start x ≤ stop x) (h3 : stop x ≤ startOf start hi post) :
    Packed start stop lo hi (pre ++ x :: post) := by
  induction pre generalizing lo with
  | nil =>
    refine ⟨h1, h2, ?_⟩
    cases post with
    | nil => exact h3
    | cons y ys => exact ⟨h3, h.2⟩
  | cons y pre ih => exact ⟨h.1, h.2.1, ih h.2.2 h1⟩

theorem remove (h : Packed start stop lo hi (pre ++ x :: post)) :
    Packed start stop lo hi (pre ++ post) := by
  induction pre generalizing lo with
  | nil => exact h.2.2.lower (Nat.le_trans h.1 h.2.1)
  | cons y pre ih => exact ⟨h.1, h.2.1, ih h.2.2⟩

/-- The gap between two parts of the list meets no segment. -/
theorem gap (h : Packed start stop lo hi (pre ++ post)) (hy : y ∈ pre ++ post) :
    stop y ≤ endOf stop lo pre ∨ startOf start hi post ≤ start y := by
  obtain ⟨h1, -, h3⟩ := h.append
  rcases List.mem_append.mp hy with hy | hy
  · exact .inl (h1.bounds hy).2.2
  · right
    cases post with
    | nil => cases hy
    | cons z zs =>
      rcases List.mem_cons.mp hy with rfl | hz
      · exact Nat.le_refl _
      · exact Nat.le_trans h3.2.1 (h3.2.2.bounds hz).1

end Packed

end Levos.Framework
