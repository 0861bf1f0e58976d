import Mathlib.Algebra.Group.Nat.Defs
import Mathlib.Logic.Basic

namespace Levos.Framework

/-- A number is put together again from its halves, however they were cut out. -/
theorem append_halves {w : Nat} (d mask : BitVec (w + w)) (h : ∀ j < w, mask.getLsbD j = true) :
    ((d >>> w) &&& mask).setWidth w ++ (d &&& mask).setWidth w = d := by
  apply BitVec.eq_of_getLsbD_eq
  intro i hi
  simp only [BitVec.getLsbD_append, BitVec.getLsbD_setWidth, BitVec.getLsbD_and,
    BitVec.getLsbD_ushiftRight]
  by_cases hlow : i < w
  · simp only [hlow, h i hlow, if_true, decide_true, Bool.true_and, Bool.and_true]
  · have hj : i - w < w := by omega
    have hi : w + (i - w) = i := by omega
    simp only [hlow, h _ hj, hj, hi, if_false, decide_true, Bool.true_and, Bool.and_true]

/-- A memory of bytes; words are little endian. -/
abbrev Memory := Nat → BitVec 8

namespace Memory

/-- Byte `i` of a word, the low one first. -/
def byteOf (w : BitVec 32) (i : Nat) : BitVec 8 := w.extractLsb' (8 * i) 8

def word (m : Memory) (a : Nat) : BitVec 32 := m (a + 3) ++ m (a + 2) ++ m (a + 1) ++ m a

def setWord (m : Memory) (a : Nat) (w : BitVec 32) : Memory :=
  fun x => if a ≤ x ∧ x < a + 4 then byteOf w (x - a) else m x

/-- `memset`. -/
def fill (m : Memory) (a : Nat) (v : BitVec 8) (n : Nat) : Memory :=
  fun x => if a ≤ x ∧ x < a + n then v else m x

/-- Two memories that hold the same bytes from `lo` up to `hi`. -/
def Agree (lo hi : Nat) (m m' : Memory) : Prop := ∀ x, lo ≤ x → x < hi → m' x = m x

variable {m m' m'' : Memory} {a b n lo hi : Nat} {v : BitVec 8} {w : BitVec 32}

theorem append_byteOf (w : BitVec 32) : byteOf w 3 ++ byteOf w 2 ++ byteOf w 1 ++ byteOf w 0 = w := by
  apply BitVec.eq_of_getLsbD_eq
  intro i hi
  simp only [byteOf, BitVec.getLsbD_extractLsb', BitVec.getLsbD_append]
  grind

@[simp] theorem word_setWord (m : Memory) (a : Nat) (w : BitVec 32) : (m.setWord a w).word a = w := by
  have h3 : m.setWord a w (a + 3) = byteOf w 3 := by simp [setWord]
  have h2 : m.setWord a w (a + 2) = byteOf w 2 := by simp [setWord]
  have h1 : m.setWord a w (a + 1) = byteOf w 1 := by simp [setWord]
  have h0 : m.setWord a w a = byteOf w 0 := by simp [setWord]
  rw [word, h3, h2, h1, h0, append_byteOf]

theorem setWord_apply (h : b < a ∨ a + 4 ≤ b) : m.setWord a w b = m b := if_neg (by omega)

/-- A second store to a word covers the first one. -/
theorem setWord_setWord (m : Memory) (a : Nat) (w w' : BitVec 32) :
    (m.setWord a w).setWord a w' = m.setWord a w' := by
  funext x
  by_cases hx : a ≤ x ∧ x < a + 4
  · simp only [setWord, if_pos hx]
  · simp only [setWord, if_neg hx]

/-- Stores to words that do not overlap commute. -/
theorem setWord_comm (h : a + 4 ≤ b ∨ b + 4 ≤ a) (w w' : BitVec 32) :
    (m.setWord a w).setWord b w' = (m.setWord b w').setWord a w := by
  funext x
  by_cases hb : b ≤ x ∧ x < b + 4
  · have ha : ¬(a ≤ x ∧ x < a + 4) := by omega
    simp only [setWord, if_pos hb, if_neg ha]
  · simp only [setWord, if_neg hb]

theorem fill_apply (h : b < a ∨ a + n ≤ b) : m.fill a v n b = m b := if_neg (by omega)

theorem Agree.refl : Agree lo hi m m := fun _ _ _ => rfl

theorem Agree.trans (h : Agree lo hi m m') (k : Agree lo hi m' m'') : Agree lo hi m m'' :=
  fun x h1 h2 => (k x h1 h2).trans (h x h1 h2)

theorem Agree.mono {lo' hi' : Nat} (h : Agree lo hi m m') (hl : lo ≤ lo') (hh : hi' ≤ hi) :
    Agree lo' hi' m m' := fun x h1 h2 => h x (Nat.le_trans hl h1) (Nat.lt_of_lt_of_le h2 hh)

theorem Agree.word (h : Agree lo hi m m') (hl : lo ≤ a) (hh : a + 4 ≤ hi) :
    m'.word a = m.word a := by
  have at_ (i : Nat) (hi4 : i < 4) : m' (a + i) = m (a + i) := h _ (by omega) (by omega)
  have h0 : m' a = m a := h _ hl (by omega)
  rw [Memory.word, Memory.word, at_ 3 (by omega), at_ 2 (by omega), at_ 1 (by omega), h0]

theorem agree_setWord (h : a + 4 ≤ lo ∨ hi ≤ a) : Agree lo hi m (m.setWord a w) :=
  fun _ _ _ => setWord_apply (by omega)

theorem agree_fill (h : a + n ≤ lo ∨ hi ≤ a) : Agree lo hi m (m.fill a v n) :=
  fun _ _ _ => fill_apply (by omega)

/-- Words that do not overlap do not disturb each other. -/
theorem word_setWord_ne (h : a + 4 ≤ b ∨ b + 4 ≤ a) : (m.setWord a w).word b = m.word b :=
  have hagree : Agree b (b + 4) m (m.setWord a w) := agree_setWord (by omega)
  hagree.word (Nat.le_refl _) (Nat.le_refl _)

theorem word_fill_ne (h : a + n ≤ b ∨ b + 4 ≤ a) : (m.fill a v n).word b = m.word b :=
  have hagree : Agree b (b + 4) m (m.fill a v n) := agree_fill (by omega)
  hagree.word (Nat.le_refl _) (Nat.le_refl _)

theorem word_fill_zero (h : a ≤ b) (hb : b + 4 ≤ a + n) : (m.fill a 0 n).word b = 0 := by
  have at_ (i : Nat) (hi : i < 4) : m.fill a 0 n (b + i) = 0 := if_pos (by omega)
  have h0 : m.fill a 0 n b = 0 := if_pos (by omega)
  rw [word, at_ 3 (by omega), at_ 2 (by omega), at_ 1 (by omega), h0]
  rfl

end Memory

end Levos.Framework
