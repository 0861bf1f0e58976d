import Mathlib.Data.Nat.Digits.Lemmas

namespace Levos.Framework

variable {α : Type} {digit : Nat → α} {base n k : Nat}

/-- The numeral of `n` to a base, its highest digit first. -/
def numeral (digit : Nat → α) (base n : Nat) : List α :=
  if n = 0 then [digit 0] else ((Nat.digits base n).map digit).reverse

/-- The same with a sign in front where the number is negative. -/
def signedNumeral (minus : α) (digit : Nat → α) (base : Nat) (z : Int) : List α :=
  if z < 0 then minus :: numeral digit base z.natAbs else numeral digit base z.natAbs

theorem numeral_of_pos (hn : 0 < n) : numeral digit base n = ((Nat.digits base n).map digit).reverse :=
  if_neg (by omega)

/-- Every place of a numeral is a digit. -/
theorem mem_numeral (hbase : 1 < base) {a : α} (ha : a ∈ numeral digit base n) :
    ∃ d < base, a = digit d := by
  by_cases hn : n = 0
  · rw [numeral, if_pos hn, List.mem_singleton] at ha
    exact ⟨0, by omega, ha⟩
  · rw [numeral, if_neg hn, List.mem_reverse] at ha
    obtain ⟨d, hd, hdigit⟩ := List.mem_map.mp ha
    exact ⟨d, Nat.digits_lt_base hbase hd, hdigit.symm⟩

theorem numeral_ne_nil : numeral digit base n ≠ [] := by
  by_cases hn : n = 0
  · rw [numeral, if_pos hn]
    exact List.cons_ne_nil _ _
  · rw [numeral, if_neg hn, ne_eq, List.reverse_eq_nil_iff, List.map_eq_nil_iff]
    exact Nat.digits_ne_nil_iff_ne_zero.mpr hn

theorem length_numeral_le (hbase : 1 < base) (hk : 0 < k) (hn : n < base ^ k) :
    (numeral digit base n).length ≤ k := by
  by_cases hzero : n = 0
  · rw [numeral, if_pos hzero]
    exact hk
  · rw [numeral, if_neg hzero, List.length_reverse, List.length_map]
    exact (Nat.digits_length_le_iff hbase n).mpr hn

/-- The number that digits stand for, the highest digit first. -/
def numeralValue (value : α → Nat) (base : Nat) (l : List α) : Nat :=
  l.foldl (fun n a => n * base + value a) 0

section Value

variable {value : α → Nat}

/-- Reading a numeral gives the number back. -/
theorem numeralValue_numeral (hbase : 1 < base) (hvalue : ∀ d < base, value (digit d) = d) (n : Nat) :
    numeralValue value base (numeral digit base n) = n := by
  have hdigits (ds : List Nat) (hds : ∀ d ∈ ds, d < base) :
      numeralValue value base (ds.map digit).reverse = Nat.ofDigits base ds := by
    rw [numeralValue, List.foldl_reverse]
    induction ds with
    | nil => rfl
    | cons d ds ih =>
      rw [List.map_cons, List.foldr_cons, ih fun e he => hds e (List.mem_cons_of_mem _ he),
        hvalue d (hds d List.mem_cons_self), Nat.ofDigits_cons]
      rw [Nat.mul_comm, Nat.add_comm]
  by_cases hn : n = 0
  · rw [numeral, if_pos hn, hn]
    simp [numeralValue, hvalue 0 (by omega)]
  · rw [numeral, if_neg hn, hdigits _ fun d hd => Nat.digits_lt_base hbase hd, Nat.ofDigits_digits]

/-- Numerals of different numbers are different. -/
theorem numeral_inj (hbase : 1 < base) (hvalue : ∀ d < base, value (digit d) = d) {m : Nat}
    (h : numeral digit base n = numeral digit base m) : n = m := by
  rw [← numeralValue_numeral hbase hvalue n, h, numeralValue_numeral hbase hvalue]

/-- A number other than 0 has a numeral that does not begin with 0. -/
theorem head_numeral (hbase : 1 < base) (hvalue : ∀ d < base, value (digit d) = d) (hn : 0 < n) :
    (numeral digit base n).head? ≠ some (digit 0) := by
  have hne : Nat.digits base n ≠ [] := Nat.digits_ne_nil_iff_ne_zero.mpr (by omega)
  rw [numeral_of_pos hn, List.head?_reverse, List.getLast?_map, List.getLast?_eq_getLast_of_ne_nil hne,
    Option.map_some]
  intro hhead
  have hlast : (Nat.digits base n).getLast hne < base := Nat.digits_lt_base hbase (List.getLast_mem hne)
  have hzero := congrArg value (Option.some.inj hhead)
  rw [hvalue _ hlast, hvalue 0 (by omega)] at hzero
  exact Nat.getLast_digit_ne_zero base (by omega) hzero

end Value

/-- A numeral with a sign is never one without. -/
theorem numeral_ne_signed (hbase : 1 < base) {minus : α} (hminus : ∀ d < base, digit d ≠ minus) {m : Nat}
    (xs ys : List α) : numeral digit base n ++ xs ≠ (minus :: numeral digit base m) ++ ys := by
  intro h
  cases hdigits : numeral digit base n with
  | nil => exact numeral_ne_nil hdigits
  | cons a rest =>
    rw [hdigits] at h
    injection h with hhead
    obtain ⟨d, hd, ha⟩ := mem_numeral (n := n) hbase (by rw [hdigits]; exact List.mem_cons_self)
    exact hminus d hd (ha.symm.trans hhead)

end Levos.Framework
