import Levos.Lib.String
import Mathlib.Data.List.Basic

namespace Levos.Lib

/-- The loop of `strcmp`, on the bytes that are left of both strings. -/
def strcmpFrom : List (BitVec 8) → List (BitVec 8) → Except Fault (BitVec 32)
  | a :: str1, b :: str2 =>
    if a ≠ b then .ok (BitVec.ofInt 32 (a.toNat - b.toNat))
    else if b = 0 then .ok 0
    else strcmpFrom str1 str2
  | _, _ => .error .outOfBounds

/-- `strcmp`. -/
def strcmp (str1 str2 : CString) : Except Fault (BitVec 32) :=
  strcmpFrom (str1.bytes ++ [0]) (str2.bytes ++ [0])

/-- Byte `i` of a string, whose zero is the last that may be read. -/
def CString.at (s : CString) (i : Nat) : Except Fault (BitVec 8) :=
  match (s.bytes ++ [0])[i]? with
  | none => .error .outOfBounds
  | some c => .ok c

section Strcmp

theorem sub_ne_zero {a b : BitVec 8} (h : a ≠ b) : BitVec.ofInt 32 (a.toNat - b.toNat) ≠ 0 := by
  intro hzero
  have ha : a.toNat < 256 := a.isLt
  have hb : b.toNat < 256 := b.isLt
  have hint : (a.toNat : Int) - b.toNat = 0 := by
    have hself := congrArg BitVec.toInt hzero
    rwa [BitVec.toInt_ofInt_eq_self (by decide) (by omega) (by omega)] at hself
  exact h (BitVec.eq_of_toNat_eq (by omega))

theorem strcmpFrom_spec (u w : List (BitVec 8)) (hu : 0 ∉ u) (hw : 0 ∉ w) :
    ∃ d, strcmpFrom (u ++ [0]) (w ++ [0]) = .ok d ∧ (d = 0 ↔ u = w) := by
  induction u generalizing w with
  | nil =>
    cases w with
    | nil => exact ⟨0, rfl, by simp⟩
    | cons b w =>
      have hb : (0 : BitVec 8) ≠ b := fun heq => hw (heq ▸ List.mem_cons_self)
      refine ⟨_, if_pos hb, ?_⟩
      exact iff_of_false (sub_ne_zero hb) (by simp)
  | cons a u ih =>
    have ha : a ≠ 0 := fun heq => hu (heq ▸ List.mem_cons_self)
    cases w with
    | nil =>
      refine ⟨_, if_pos ha, ?_⟩
      exact iff_of_false (sub_ne_zero ha) (by simp)
    | cons b w =>
      rw [List.cons_append, List.cons_append, strcmpFrom]
      by_cases heq : a = b
      · obtain ⟨d, hd, hiff⟩ := ih w (fun h => hu (List.mem_cons_of_mem _ h))
          (fun h => hw (List.mem_cons_of_mem _ h))
        rw [if_neg (not_not.mpr heq), if_neg (heq ▸ ha)]
        exact ⟨d, hd, by rw [hiff, heq, List.cons_inj_right]⟩
      · rw [if_pos heq]
        refine ⟨_, rfl, ?_⟩
        apply iff_of_false (sub_ne_zero heq)
        intro hcons
        exact heq (List.cons.inj hcons).1

/-- Two strings compare as equal exactly when they are. -/
theorem strcmp_spec (s t : CString) : ∃ d, strcmp s t = .ok d ∧ (d = 0 ↔ s = t) := by
  obtain ⟨d, hd, hiff⟩ := strcmpFrom_spec s.bytes t.bytes s.noNul t.noNul
  refine ⟨d, hd, hiff.trans ?_⟩
  constructor
  · intro h
    cases s
    cases t
    exact (CString.mk.injEq ..).mpr h
  · exact congrArg CString.bytes

end Strcmp

section Strncmp

variable {lit line : CString} {u w : List (BitVec 8)}

theorem CString.at_append {s : CString} {pre u : List (BitVec 8)} (h : s.bytes = pre ++ u) :
    s.at pre.length = .ok (u.headD 0) := by
  rw [CString.at, h, List.append_assoc, List.getElem?_append_right (Nat.le_refl _), Nat.sub_self]
  cases u <;> rfl

theorem strncmpFrom_spec (pre : List (BitVec 8)) (hlit : lit.bytes = pre ++ u)
    (hline : line.bytes = pre ++ w) :
    ∃ d, strncmpFrom lit.at line.at pre.length u.length = .ok d ∧ (d = 0 ↔ u <+: w) := by
  induction u generalizing pre w with
  | nil => exact ⟨0, rfl, by simp⟩
  | cons a u ih =>
    have ha : a ≠ 0 := by
      intro heq
      apply lit.noNul
      rw [hlit, heq]
      simp
    rw [List.length_cons, strncmpFrom, CString.at_append hlit, CString.at_append hline, ok_bind, ok_bind,
      List.headD_cons]
    by_cases heq : a = w.headD 0
    · cases w with
      | nil => exact absurd heq ha
      | cons b w =>
        have hab : a = b := heq
        have hnext := ih (pre ++ [a]) (by simpa using hlit) (by simpa [hab] using hline)
        rw [List.length_append, List.length_singleton] at hnext
        obtain ⟨d, hd, hiff⟩ := hnext
        rw [if_neg (not_not.mpr heq)]
        exact ⟨d, hd, by rw [hiff, hab, List.cons_prefix_cons, and_iff_right rfl]⟩
    · rw [if_pos heq]
      refine ⟨_, rfl, ?_⟩
      apply iff_of_false
      · intro hzero
        exact heq (BitVec.eq_of_toNat_eq (by omega))
      · intro hpre
        cases w with
        | nil => simp at hpre
        | cons b w => exact heq (List.cons_prefix_cons.mp hpre).1

/-- A literal compares as equal, over its length, exactly to the strings that begin with it. -/
theorem strncmp_spec (lit line : CString) :
    ∃ d, strncmp lit.at line.at lit.bytes.length = .ok d ∧ (d = 0 ↔ lit.bytes <+: line.bytes) :=
  strncmpFrom_spec [] rfl rfl

end Strncmp

end Levos.Lib
