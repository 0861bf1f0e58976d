import Levos.Framework.Fault
import Mathlib.Data.List.GetD

namespace Levos.Framework

/-- A place in a block of the heap. -/
structure Ptr where
  block : Nat
  off : Nat
  deriving DecidableEq

def Ptr.next (p : Ptr) : Ptr := { p with off := p.off + 1 }

/-- The blocks that were given out, each with its bytes. No block is given back. -/
abbrev Heap := List (List (BitVec 8))

namespace Heap

def alloc (h : Heap) (bytes : List (BitVec 8)) : Ptr × Heap := (⟨h.length, 0⟩, h ++ [bytes])

/-- The bytes from `p` to the end of its block. -/
def rest (h : Heap) (p : Ptr) : List (BitVec 8) := (h.getD p.block []).drop p.off

def load (h : Heap) (p : Ptr) : Except Fault (BitVec 8) :=
  match h.rest p with
  | [] => .error .outOfBounds
  | b :: _ => .ok b

def store (h : Heap) (p : Ptr) (b : BitVec 8) : Except Fault Heap :=
  match h.rest p with
  | [] => .error .outOfBounds
  | _ :: _ => .ok (h.set p.block ((h.getD p.block []).set p.off b))

variable {h h' : Heap} {p q : Ptr} {b c : BitVec 8} {bs cs : List (BitVec 8)}

@[simp] theorem rest_alloc (h : Heap) (bs : List (BitVec 8)) :
    (h.alloc bs).2.rest (h.alloc bs).1 = bs := by
  simp [alloc, rest]

theorem load_of_rest (h' : h.rest p = c :: cs) : h.load p = .ok c := by
  rw [load, h']

theorem rest_next (h' : h.rest p = c :: cs) : h.rest p.next = cs := by
  have hdrop : (h.getD p.block []).drop (p.off + 1) = ((h.getD p.block []).drop p.off).drop 1 := by
    rw [List.drop_drop]
  rw [rest, Ptr.next, hdrop]
  change (h.rest p).drop 1 = cs
  rw [h']
  rfl

theorem rest_lt (h' : h.rest p = c :: cs) : p.block < h.length := by
  rcases Nat.lt_or_ge p.block h.length with hlt | hge
  · exact hlt
  · rw [rest, List.getD_eq_getElem?_getD, List.getElem?_eq_none hge] at h'
    simp at h'

theorem rest_alloc_old (h' : h.rest p = c :: cs) (bs : List (BitVec 8)) :
    (h.alloc bs).2.rest p = c :: cs := by
  rw [← h']
  simp only [alloc, rest, List.getD_eq_getElem?_getD]
  rw [List.getElem?_append_left (rest_lt h')]

/-- A byte is stored behind the bytes `bs` at `q`. -/
theorem store_spec (hq : h.rest q = bs ++ c :: cs) (hp : p = { q with off := q.off + bs.length }) :
    ∃ h', h.store p b = .ok h' ∧ h'.rest q = bs ++ b :: cs ∧ h'.rest p.next = cs ∧
      ∀ r, r.block ≠ p.block → h'.rest r = h.rest r := by
  subst hp
  obtain ⟨block, off⟩ := q
  have hdrop : h.rest ⟨block, off + bs.length⟩ = c :: cs := by
    have : (h.getD block []).drop (off + bs.length) = ((h.getD block []).drop off).drop bs.length := by
      rw [List.drop_drop]
    rw [rest, this]
    change (h.rest ⟨block, off⟩).drop bs.length = c :: cs
    rw [hq]
    simp
  have hblock : block < h.length := rest_lt hdrop
  refine ⟨h.set block ((h.getD block []).set (off + bs.length) b), ?_, ?_, ?_, ?_⟩
  · simp only [store, hdrop]
  · simp only [rest] at hq ⊢
    rw [List.getD_eq_getElem?_getD, List.getElem?_set_self hblock, Option.getD_some,
      List.drop_set, if_neg (by omega), hq]
    simp
  · simp only [rest, Ptr.next] at hdrop ⊢
    rw [List.getD_eq_getElem?_getD, List.getElem?_set_self hblock, Option.getD_some,
      List.drop_set_of_lt (by omega)]
    have : (h.getD block []).drop (off + bs.length + 1) =
        ((h.getD block []).drop (off + bs.length)).drop 1 := by rw [List.drop_drop]
    rw [this, hdrop]
    rfl
  · intro r hr
    simp only [rest]
    rw [List.getD_eq_getElem?_getD, List.getElem?_set_ne (Ne.symm hr), List.getD_eq_getElem?_getD]

section Bytes

variable {h : Heap} {b j r : Nat} {bs : List (BitVec 8)} {v : BitVec 8}

theorem load_byte (hj : j < (h.getD b []).length) : h.load ⟨b, j⟩ = .ok ((h.getD b []).getD j 0) := by
  have hrest : h.rest ⟨b, j⟩ = (h.getD b []).getD j 0 :: (h.getD b []).drop (j + 1) := by
    rw [rest, List.drop_eq_getElem_cons hj, List.getD_eq_getElem _ _ hj]
  exact load_of_rest hrest

theorem store_byte (hj : j < (h.getD b []).length) :
    h.store ⟨b, j⟩ v = .ok (h.set b ((h.getD b []).set j v)) := by
  have hrest : h.rest ⟨b, j⟩ = (h.getD b [])[j] :: (h.getD b []).drop (j + 1) :=
    List.drop_eq_getElem_cons hj
  rw [store, hrest]

theorem block_set_self (hb : b < h.length) : (h.set b bs).getD b [] = bs := by
  rw [List.getD_eq_getElem?_getD, List.getElem?_set_self hb, Option.getD_some]

theorem block_set_of_ne (hr : r ≠ b) : (h.set b bs).getD r [] = h.getD r [] := by
  rw [List.getD_eq_getElem?_getD, List.getElem?_set_ne (Ne.symm hr), List.getD_eq_getElem?_getD]

/-- Storing a block over itself changes nothing. -/
theorem set_block (h : Heap) (b : Nat) : h.set b (h.getD b []) = h := by
  rcases Nat.lt_or_ge b h.length with hb | hb
  · rw [List.getD_eq_getElem _ _ hb, List.set_getElem_self]
  · exact List.set_eq_of_length_le hb

end Bytes

end Heap

end Levos.Framework
