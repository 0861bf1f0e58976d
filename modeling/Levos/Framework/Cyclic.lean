import Mathlib.Data.List.Range
import Mathlib.Data.List.Rotate

namespace Levos.Framework.Cyclic

/-- The slots of a ring of `n` in the order a cursor at `c` meets them. -/
def order (n c : Nat) : List Nat := List.range' c (n - c) ++ List.range c

/-- The first slot from the cursor on that satisfies `p`. -/
def scan (p : Nat → Bool) (n c : Nat) : Option Nat := (order n c).find? p

/-- How many slots the cursor passes before it stands on slot `i`. -/
def dist (n c i : Nat) : Nat := if c ≤ i then i - c else i + n - c

/-- Where the cursor stands after slot `i` was taken. -/
def next (n i : Nat) : Nat := if i + 1 < n then i + 1 else 0

theorem mem_order {n c i : Nat} (hc : c ≤ n) : i ∈ order n c ↔ i < n := by
  simp only [order, List.mem_append, List.mem_range'_1, List.mem_range]
  omega

theorem order_nodup (n c : Nat) : (order n c).Nodup := by
  refine List.nodup_append.mpr ⟨List.nodup_range', List.nodup_range, ?_⟩
  intro a ha b hb hab
  rw [List.mem_range'_1] at ha
  rw [List.mem_range] at hb
  omega

theorem dist_lt {n c i : Nat} (hc : c < n) (hi : i < n) : dist n c i < n := by
  unfold dist
  split_ifs <;> omega

theorem scan_eq_none {p : Nat → Bool} {n c : Nat} (hc : c ≤ n) :
    scan p n c = none ↔ ∀ i < n, p i = false := by
  simp only [scan, List.find?_eq_none, mem_order hc, Bool.not_eq_true]

theorem scan_isSome {p : Nat → Bool} {n c i : Nat} (hc : c ≤ n) (hi : i < n) (hp : p i = true) :
    ∃ j, scan p n c = some j := by
  rcases h : scan p n c with _ | j
  · have := (scan_eq_none hc).mp h i hi
    simp [hp] at this
  · exact ⟨j, rfl⟩

theorem scan_mem {p : Nat → Bool} {n c i : Nat} (hc : c ≤ n) (h : scan p n c = some i) :
    p i = true ∧ i < n :=
  ⟨List.find?_some h, (mem_order hc).mp (List.mem_of_find?_eq_some h)⟩

/-- The ring order split at one of its slots: what comes before it is nearer to the cursor. -/
theorem order_split {n c i : Nat} (hc : c < n) (hi : i < n) :
    ∃ pre post, order n c = pre ++ i :: post ∧
      (∀ j < n, dist n c j < dist n c i → j ∈ pre) ∧ order n (next n i) = post ++ pre ++ [i] := by
  by_cases h : c ≤ i
  · refine ⟨List.range' c (i - c), List.range' (i + 1) (n - (i + 1)) ++ List.range c, ?_, ?_, ?_⟩
    · have h1 : List.range' c (n - c) = List.range' c (i - c) ++ List.range' i (n - i) := by
        rw [show n - c = (i - c) + (n - i) by omega, ← List.range'_append_1,
          show c + (i - c) = i by omega]
      have h2 : List.range' i (n - i) = i :: List.range' (i + 1) (n - (i + 1)) := by
        rw [show n - i = (n - (i + 1)) + 1 by omega, List.range'_succ]
      simp [order, h1, h2]
    · intro j hj hd
      rw [List.mem_range'_1]
      unfold dist at hd
      split_ifs at hd <;> omega
    · have h3 : List.range (i + 1) = List.range c ++ List.range' c (i - c) ++ [i] := by
        rw [List.range_succ, List.range_eq_range', List.range_eq_range']
        congr 1
        rw [show i = c + (i - c) by omega, ← List.range'_append_1]
        simp
      unfold next order
      split_ifs with hlt
      · rw [h3]
        simp
      · have hin : i + 1 = n := by omega
        rw [← hin, Nat.sub_zero, ← List.range_eq_range', h3]
        simp
  · refine ⟨List.range' c (n - c) ++ List.range i, List.range' (i + 1) (c - (i + 1)), ?_, ?_, ?_⟩
    · have h1 : List.range c = List.range i ++ i :: List.range' (i + 1) (c - (i + 1)) := by
        rw [List.range_eq_range', List.range_eq_range', show c = i + (c - i) by omega,
          ← List.range'_append_1, show c - i = (c - (i + 1)) + 1 by omega, List.range'_succ]
        simp
        omega
      simp [order, h1]
    · intro j hj hd
      rw [List.mem_append, List.mem_range'_1, List.mem_range]
      unfold dist at hd
      split_ifs at hd <;> omega
    · have hlt : i + 1 < n := by omega
      have h3 : List.range' (i + 1) (n - (i + 1)) =
          List.range' (i + 1) (c - (i + 1)) ++ List.range' c (n - c) := by
        rw [show n - (i + 1) = (c - (i + 1)) + (n - c) by omega, ← List.range'_append_1,
          show i + 1 + (c - (i + 1)) = c by omega]
      simp [next, order, hlt, h3, List.range_succ]

/-- The ring order split at the slot the scan took: nothing before it satisfies `p`. -/
theorem scan_split {p : Nat → Bool} {n c i : Nat} (hc : c < n) (h : scan p n c = some i) :
    ∃ pre post, order n c = pre ++ i :: post ∧ (∀ a ∈ pre, p a = false) ∧
      (∀ j < n, dist n c j < dist n c i → j ∈ pre) ∧ order n (next n i) = post ++ pre ++ [i] := by
  obtain ⟨pre, post, hsplit, hpre, hnext⟩ := order_split hc (scan_mem hc.le h).2
  refine ⟨pre, post, hsplit, ?_, hpre, hnext⟩
  have hi : i ∉ pre := by
    have hnd := order_nodup n c
    rw [hsplit, List.nodup_append] at hnd
    exact fun hi => hnd.2.2 i hi i (by simp) rfl
  have hnone : pre.find? p = none := by
    rw [scan, hsplit, List.find?_append] at h
    rcases hk : pre.find? p with _ | k
    · rfl
    · have hki : k = i := by simpa [hk] using h
      exact absurd (hki ▸ List.mem_of_find?_eq_some hk) hi
  simpa using List.find?_eq_none.mp hnone

/-- The scan stops at the nearest slot that satisfies `p`. -/
theorem scan_first {p : Nat → Bool} {n c i : Nat} (hc : c < n) (h : scan p n c = some i) :
    ∀ j < n, dist n c j < dist n c i → p j = false := by
  intro j hj hd
  obtain ⟨pre, post, -, hnone, hpre, -⟩ := scan_split hc h
  exact hnone j (hpre j hj hd)

/-- A slot that the scan passed over comes nearer with every scan. -/
theorem dist_scan_lt {p : Nat → Bool} {n c i j : Nat} (hc : c < n) (h : scan p n c = some i)
    (hj : j < n) (hp : p j = true) (hne : j ≠ i) : dist n (next n i) j < dist n c j := by
  have hle : dist n c i ≤ dist n c j := by
    by_contra hlt
    have := scan_first hc h j hj (by omega)
    simp [hp] at this
  have hi := (scan_mem hc.le h).2
  unfold dist next at *
  split_ifs at * <;> omega

/-- The slots that satisfy `p`, in the order the cursor meets them. -/
def turns (p : Nat → Bool) (n c : Nat) : List Nat := (order n c).filter p

theorem turns_isRotated (p : Nat → Bool) {n c : Nat} (hc : c ≤ n) :
    turns p n c ~r (List.range n).filter p := by
  have hrange : List.range n = List.range c ++ List.range' c (n - c) := by
    rw [List.range_eq_range', List.range_eq_range']
    conv_lhs => rw [show n = c + (n - c) by omega, ← List.range'_append_1, Nat.zero_add]
  rw [turns, order, hrange, List.filter_append, List.filter_append]
  exact List.isRotated_append

/-- One scan takes the head of the turns and puts it at their end. -/
theorem turns_scan {p : Nat → Bool} {n c i : Nat} (hc : c < n) (h : scan p n c = some i) :
    ∃ rest, turns p n c = i :: rest ∧ turns p n (next n i) = rest ++ [i] := by
  have hp := (scan_mem hc.le h).1
  obtain ⟨pre, post, hsplit, hnone, -, hnext⟩ := scan_split hc h
  have hpre : pre.filter p = [] := by
    rw [List.filter_eq_nil_iff]
    intro a ha
    simp [hnone a ha]
  exact ⟨post.filter p, by simp [turns, hsplit, hpre, hp], by simp [turns, hnext, hpre, hp]⟩

end Levos.Framework.Cyclic
