import Levos.Framework.ByteMemory
import Mathlib.Data.List.Basic

namespace Levos.Framework

/-- Where a list that is read from a pointer has its next node, `w` if it has come to its end. -/
def headWord (w : BitVec 32) : List Nat → BitVec 32
  | [] => w
  | x :: _ => BitVec.ofNat 32 x

/-- The pointer behind the last of the nodes, `cell` if there is none. -/
def lastCell (off cell : Nat) (xs : List Nat) : Nat := xs.getLast?.elim cell (· + off)

/-- The nodes at `xs` follow each other, from the pointer at `cell` on to the pointer `w`. Each of them
points to the next one at `off`. -/
def Linked (off : Nat) (m : Memory) : Nat → List Nat → BitVec 32 → Prop
  | cell, [], w => m.word cell = w
  | cell, x :: xs, w => m.word cell = BitVec.ofNat 32 x ∧ Linked off m (x + off) xs w

/-- Each of the nodes points at `off` to the one before it, the first of them to `p`. -/
def LinkedBack (off : Nat) (m : Memory) : Nat → List Nat → Prop
  | _, [] => True
  | p, x :: xs => m.word (x + off) = BitVec.ofNat 32 p ∧ LinkedBack off m x xs

section Last

variable {off cell x : Nat} {xs ys : List Nat}

@[simp] theorem lastCell_nil : lastCell off cell [] = cell := rfl

@[simp] theorem lastCell_snoc : lastCell off cell (xs ++ [x]) = x + off := by
  simp [lastCell]

theorem lastCell_cons : lastCell off cell (x :: xs) = lastCell off (x + off) xs := by
  unfold lastCell
  rw [List.getLast?_cons]
  cases xs.getLast? <;> rfl

theorem getLast?_cons_getD {p : Nat} : (x :: xs).getLast?.getD p = xs.getLast?.getD x := by
  rw [List.getLast?_cons]
  rfl

end Last

namespace Linked

variable {off cell cell' : Nat} {m m' : Memory} {xs ys pre post : List Nat} {w w' : BitVec 32}

/-- The first pointer. -/
theorem head (h : Linked off m cell xs w) : m.word cell = headWord w xs := by
  cases xs with
  | nil => exact h
  | cons x xs => exact h.1

/-- Two lists, one of which leads to the other. -/
theorem append : Linked off m cell (xs ++ ys) w ↔
    Linked off m cell xs (headWord w ys) ∧ Linked off m (lastCell off cell xs) ys w := by
  induction xs generalizing cell with
  | nil => exact ⟨fun h => ⟨h.head, h⟩, fun h => h.2⟩
  | cons x xs ih =>
    rw [lastCell_cons]
    constructor
    · rintro ⟨hw, hrest⟩
      obtain ⟨hxs, hys⟩ := ih.mp hrest
      exact ⟨⟨hw, hxs⟩, hys⟩
    · rintro ⟨⟨hw, hxs⟩, hys⟩
      exact ⟨hw, ih.mpr ⟨hxs, hys⟩⟩

/-- The last pointer. -/
theorem last (h : Linked off m cell xs w) : m.word (lastCell off cell xs) = w := by
  rw [← List.append_nil xs] at h
  exact (append.mp h).2

/-- Where the last pointer is another one and those before it are kept. -/
theorem retarget (h : Linked off m cell xs w) (hkeep : xs ≠ [] → m'.word cell = m.word cell)
    (hnodes : ∀ y ∈ xs.dropLast, m'.word (y + off) = m.word (y + off))
    (hlast : m'.word (lastCell off cell xs) = w') : Linked off m' cell xs w' := by
  induction xs generalizing cell with
  | nil => exact hlast
  | cons x xs ih =>
    obtain ⟨hw, hrest⟩ := h
    rw [lastCell_cons] at hlast
    refine ⟨(hkeep (List.cons_ne_nil _ _)).trans hw, ?_⟩
    cases xs with
    | nil => exact hlast
    | cons z zs =>
      apply ih hrest (fun _ => hnodes x List.mem_cons_self) ?_ hlast
      exact fun y hy => hnodes y (List.mem_cons_of_mem _ hy)

/-- The same list is read from another cell with the same pointer, where its nodes are kept. -/
theorem moved (h : Linked off m cell xs w) (hcell : m'.word cell' = m.word cell)
    (hnodes : ∀ y ∈ xs, m'.word (y + off) = m.word (y + off)) : Linked off m' cell' xs w := by
  induction xs generalizing cell cell' with
  | nil => exact hcell.trans h
  | cons x xs ih =>
    obtain ⟨hw, hrest⟩ := h
    refine ⟨hcell.trans hw, ih hrest (hnodes x List.mem_cons_self) ?_⟩
    exact fun y hy => hnodes y (List.mem_cons_of_mem _ hy)

/-- The nodes between `pre` and `post` are exchanged for `ys`: the last cell in front of them takes
another pointer. -/
theorem exchange (h : Linked off m cell (pre ++ xs ++ post) w)
    (hkeep : pre ≠ [] → m'.word cell = m.word cell)
    (hpre : ∀ y ∈ pre.dropLast, m'.word (y + off) = m.word (y + off))
    (hpost : ∀ y ∈ post, m'.word (y + off) = m.word (y + off))
    (hys : Linked off m' (lastCell off cell pre) ys (headWord w post)) :
    Linked off m' cell (pre ++ ys ++ post) w := by
  obtain ⟨hfirst, hrest⟩ := append.mp h
  obtain ⟨hbefore, -⟩ := append.mp hfirst
  have hends := hys.last
  rw [List.append_assoc, append]
  refine ⟨hbefore.retarget hkeep hpre ?_, append.mpr ⟨hys, ?_⟩⟩
  · rw [hys.head]
    cases ys <;> rfl
  · cases post with
    | nil => exact hends
    | cons z zs =>
      refine ⟨hends, hrest.2.moved (hpost z List.mem_cons_self) ?_⟩
      exact fun y hy => hpost y (List.mem_cons_of_mem _ hy)

end Linked

/-- The nodes that a walk comes to which begins with the pointer at `cell` and goes on to the null
pointer. -/
def walk (off : Nat) (m : Memory) : Nat → Nat → List Nat
  | 0, _ => []
  | fuel + 1, cell =>
    if m.word cell = 0 then []
    else (m.word cell).toNat :: walk off m fuel ((m.word cell).toNat + off)

namespace LinkedBack

variable {off p : Nat} {m m' : Memory} {xs ys pre post : List Nat}

theorem append : LinkedBack off m p (xs ++ ys) ↔
    LinkedBack off m p xs ∧ LinkedBack off m (xs.getLast?.getD p) ys := by
  induction xs generalizing p with
  | nil => exact ⟨fun h => ⟨trivial, h⟩, fun h => h.2⟩
  | cons x xs ih =>
    rw [getLast?_cons_getD]
    constructor
    · rintro ⟨hw, hrest⟩
      obtain ⟨hxs, hys⟩ := ih.mp hrest
      exact ⟨⟨hw, hxs⟩, hys⟩
    · rintro ⟨⟨hw, hxs⟩, hys⟩
      exact ⟨hw, ih.mpr ⟨hxs, hys⟩⟩

/-- Nodes whose pointers are kept. -/
theorem frame (h : LinkedBack off m p xs) (hkeep : ∀ y ∈ xs, m'.word (y + off) = m.word (y + off)) :
    LinkedBack off m' p xs := by
  induction xs generalizing p with
  | nil => trivial
  | cons x xs ih =>
    obtain ⟨hw, hrest⟩ := h
    refine ⟨(hkeep x List.mem_cons_self).trans hw, ih hrest ?_⟩
    exact fun y hy => hkeep y (List.mem_cons_of_mem _ hy)

/-- The nodes between `pre` and `post` are exchanged for `ys`: the first node behind them takes another
pointer. -/
theorem exchange (h : LinkedBack off m p (pre ++ xs ++ post))
    (hpre : ∀ y ∈ pre, m'.word (y + off) = m.word (y + off))
    (hys : LinkedBack off m' (pre.getLast?.getD p) ys)
    (hfirst : ∀ z, post.head? = some z →
      m'.word (z + off) = BitVec.ofNat 32 ((pre ++ ys).getLast?.getD p))
    (hpost : ∀ y ∈ post.tail, m'.word (y + off) = m.word (y + off)) :
    LinkedBack off m' p (pre ++ ys ++ post) := by
  obtain ⟨hold, hrest⟩ := append.mp h
  obtain ⟨hbefore, -⟩ := append.mp hold
  refine append.mpr ⟨append.mpr ⟨hbefore.frame hpre, hys⟩, ?_⟩
  cases post with
  | nil => trivial
  | cons z zs => exact ⟨hfirst z rfl, hrest.2.frame hpost⟩

end LinkedBack

end Levos.Framework
