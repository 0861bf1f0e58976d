import Mathlib.Algebra.Group.Nat.Defs
import Mathlib.Logic.Basic
import Mathlib.Order.Nat

namespace Levos.Framework

/-- The `n` places from `i` on are a longest stretch, of the first `len` places, without a delimiter. -/
structure Stretch (D : Nat → Prop) (len i n : Nat) : Prop where
  pos : 0 < n
  inside : i + n ≤ len
  free : ∀ j, i ≤ j → j < i + n → ¬D j
  left : 0 < i → D (i - 1)
  right : i + n < len → D (i + n)

/-- A place at which no stretch has begun before. -/
def Between (D : Nat → Prop) (len c : Nat) : Prop := c ≤ len ∧ (c = 0 ∨ c = len ∨ D (c - 1))

section Stretches

variable {D : Nat → Prop} {len c i e i' n' : Nat}

theorem between_zero (D : Nat → Prop) (len : Nat) : Between D len 0 := ⟨Nat.zero_le _, .inl rfl⟩

/-- Where only delimiters are left there is no stretch. -/
theorem Stretch.not_of_delims (h : Stretch D len i' n') (hc : c ≤ i')
    (hall : ∀ j, c ≤ j → j < len → D j) : False := by
  have hpos := h.pos
  have hinside := h.inside
  exact h.free i' (Nat.le_refl _) (by omega) (hall i' hc (by omega))

/-- The first place `i` behind `c` that is no delimiter begins a stretch, up to the next delimiter. -/
theorem Between.stretch (h : Between D len c) (hc : c ≤ i) (hie : i < e) (he : e ≤ len)
    (hskip : ∀ j, c ≤ j → j < i → D j) (hfree : ∀ j, i ≤ j → j < e → ¬D j) (hstop : e < len → D e) :
    Stretch D len i (e - i) := by
  have hsum : i + (e - i) = e := by omega
  refine ⟨by omega, by omega, ?_, ?_, ?_⟩
  · intro j hij hje
    exact hfree j hij (by omega)
  · intro hpos
    by_cases hfirst : c = i
    · obtain ⟨-, hzero | hend | hdelim⟩ := h
      · omega
      · omega
      · rwa [hfirst] at hdelim
    · exact hskip (i - 1) (by omega) (by omega)
  · intro hlt
    rw [hsum] at hlt ⊢
    exact hstop hlt

/-- It is the first stretch, and the next one begins behind the delimiter. -/
theorem Stretch.first (h : Stretch D len i' n') (hci : c ≤ i') (hie : i < e) (he : e ≤ len)
    (hskip : ∀ j, c ≤ j → j < i → D j) (hfree : ∀ j, i ≤ j → j < e → ¬D j) (hstop : e < len → D e) :
    (i' = i ∧ n' = e - i) ∨ (e < i' ∧ e < len) := by
  obtain ⟨hpos, hinside, hown, hleft, hright⟩ := h
  have hbegin : ¬D i' := hown i' (Nat.le_refl _) (by omega)
  by_cases hbefore : i' < i
  · exact absurd (hskip i' hci hbefore) hbegin
  · by_cases hsame : i' = i
    · left
      refine ⟨hsame, ?_⟩
      by_cases hshort : i' + n' < e
      · exact absurd (hright (by omega)) (hfree (i' + n') (by omega) hshort)
      · by_cases hlong : e < i' + n'
        · exact absurd (hstop (by omega)) (hown e (by omega) hlong)
        · omega
    · right
      by_cases hin : i' ≤ e
      · by_cases hend : i' = e
        · exact absurd (hstop (by omega)) (hend ▸ hbegin)
        · exact absurd (hleft (by omega)) (hfree (i' - 1) (by omega) (by omega))
      · omega

end Stretches

/-- The first place from `c` on that satisfies `P`, if there is one up to `len`. -/
theorem exists_first (P : Nat → Prop) {c len : Nat} (hc : c ≤ len) (hlen : P len) :
    ∃ e, c ≤ e ∧ e ≤ len ∧ P e ∧ ∀ j, c ≤ j → j < e → ¬P j := by
  classical
  have hex : ∃ e, c ≤ e ∧ P e := ⟨len, hc, hlen⟩
  obtain ⟨hce, he⟩ := Nat.find_spec hex
  refine ⟨Nat.find hex, hce, Nat.find_min' hex ⟨hc, hlen⟩, he, ?_⟩
  intro j hcj hj hPj
  exact Nat.find_min hex hj ⟨hcj, hPj⟩

end Levos.Framework
