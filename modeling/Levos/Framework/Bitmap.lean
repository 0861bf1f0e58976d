import Levos.Framework.ByteMemory

namespace Levos.Framework.Memory

/-- Bit `f` of the array of words at `base`. -/
def bit (m : Memory) (base f : Nat) : Bool := (m.word (base + 4 * (f / 32))).getLsbD (f % 32)

def setBit (m : Memory) (base f : Nat) : Memory :=
  m.setWord (base + 4 * (f / 32)) (m.word (base + 4 * (f / 32)) ||| 1#32 <<< (f % 32))

def clearBit (m : Memory) (base f : Nat) : Memory :=
  m.setWord (base + 4 * (f / 32)) (m.word (base + 4 * (f / 32)) &&& ~~~(1#32 <<< (f % 32)))

variable {m m' : Memory} {base f g lo hi : Nat}

theorem getLsbD_one_shiftLeft (i j : Nat) (hj : j < 32) :
    (1#32 <<< i).getLsbD j = decide (j = i) := by
  rw [BitVec.getLsbD_shiftLeft, BitVec.getLsbD_one]
  by_cases h : j = i
  · subst h
    simp [hj]
  · have : ¬(i ≤ j ∧ j - i = 0) := by omega
    simp only [hj, h]
    grind

theorem word_setBit_ne (h : g / 32 ≠ f / 32) :
    (m.setBit base f).word (base + 4 * (g / 32)) = m.word (base + 4 * (g / 32)) :=
  word_setWord_ne (by omega)

@[simp] theorem bit_setBit (m : Memory) (base f g : Nat) :
    (m.setBit base f).bit base g = (decide (g = f) || m.bit base g) := by
  by_cases hw : g / 32 = f / 32
  · have hgf : (g % 32 = f % 32) ↔ g = f := by omega
    rw [bit, hw, setBit, word_setWord, BitVec.getLsbD_or, getLsbD_one_shiftLeft _ _ (by omega), bit,
      hw, Bool.or_comm]
    simp only [hgf]
  · have hgf : g ≠ f := fun e => hw (by rw [e])
    rw [bit, word_setBit_ne hw]
    simp [hgf, bit]

@[simp] theorem bit_clearBit (m : Memory) (base f g : Nat) :
    (m.clearBit base f).bit base g = (!decide (g = f) && m.bit base g) := by
  by_cases hw : g / 32 = f / 32
  · have hgf : (g % 32 = f % 32) ↔ g = f := by omega
    have hlt : g % 32 < 32 := by omega
    rw [bit, hw, clearBit, word_setWord, BitVec.getLsbD_and, BitVec.getLsbD_not,
      getLsbD_one_shiftLeft _ _ hlt, bit, hw, Bool.and_comm]
    simp only [hgf, hlt, decide_true, Bool.true_and]
  · have hgf : g ≠ f := fun e => hw (by rw [e])
    have : (m.clearBit base f).word (base + 4 * (g / 32)) = m.word (base + 4 * (g / 32)) :=
      word_setWord_ne (by omega)
    rw [bit, this]
    simp [hgf, bit]

/-- The array of words is the same array of bits when it is read byte by byte. -/
theorem bit_eq_byte (m : Memory) (base f : Nat) : m.bit base f = (m (base + f / 8)).getLsbD (f % 8) := by
  have hw (a j : Nat) (hj : j < 32) : (m.word a).getLsbD j = (m (a + j / 8)).getLsbD (j % 8) := by
    have hq : j / 8 = 0 ∨ j / 8 = 1 ∨ j / 8 = 2 ∨ j / 8 = 3 := by omega
    simp only [word, BitVec.getLsbD_append]
    rcases hq with h | h | h | h
    · rw [if_pos (by omega), h, show j % 8 = j by omega, Nat.add_zero]
    · rw [if_neg (by omega), if_pos (by omega), h, show j % 8 = j - 8 by omega]
    · rw [if_neg (by omega), if_neg (by omega), if_pos (by omega), h, show j % 8 = j - 8 - 8 by omega]
    · rw [if_neg (by omega), if_neg (by omega), if_neg (by omega), h,
        show j % 8 = j - 8 - 8 - 8 by omega]
  rw [bit, hw _ _ (by omega), show base + 4 * (f / 32) + f % 32 / 8 = base + f / 8 by omega,
    show f % 32 % 8 = f % 8 by omega]

/-- The bits are a matter of the bytes of the array alone. -/
theorem Agree.bit (base f : Nat) (h : Agree lo hi m m') (hl : lo ≤ base)
    (hh : base + 4 * (f / 32) + 4 ≤ hi) :
    m'.bit base f = m.bit base f := by
  rw [Memory.bit, Memory.bit, h.word (by omega) hh]

theorem agree_setBit (h : base + 4 * (f / 32) + 4 ≤ lo ∨ hi ≤ base) :
    Agree lo hi m (m.setBit base f) := agree_setWord (by omega)

section Update

/-- Word `i` of the array of words at `base` becomes what `f` makes of it. -/
def updateWord (m : Memory) (base i : Nat) (f : BitVec 32 → BitVec 32) : Memory :=
  m.setWord (base + 4 * i) (f (m.word (base + 4 * i)))

variable {i j : Nat} {u v : BitVec 32 → BitVec 32}

theorem updateWord_updateWord (m : Memory) (base i : Nat) (u v : BitVec 32 → BitVec 32) :
    (m.updateWord base i u).updateWord base i v = m.updateWord base i fun w => v (u w) := by
  rw [updateWord, updateWord, updateWord, word_setWord, setWord_setWord]

/-- Changes of one array commute as far as they do on each word. -/
theorem updateWord_comm (m : Memory) (base : Nat) (h : i = j → ∀ w, v (u w) = u (v w)) :
    (m.updateWord base i u).updateWord base j v = (m.updateWord base j v).updateWord base i u := by
  by_cases hij : i = j
  · rw [hij, updateWord_updateWord, updateWord_updateWord]
    exact congrArg _ (funext (h hij))
  · have hapart : base + 4 * i + 4 ≤ base + 4 * j ∨ base + 4 * j + 4 ≤ base + 4 * i := by omega
    rw [updateWord, updateWord, updateWord, updateWord, word_setWord_ne hapart.symm,
      word_setWord_ne hapart, setWord_comm hapart]

/-- A change that has been made is not made again. -/
theorem updateWord_idem (m : Memory) (base : Nat) (h : ∀ w, u (u w) = u w) :
    (m.updateWord base i u).updateWord base i u = m.updateWord base i u := by
  rw [updateWord_updateWord]
  exact congrArg _ (funext h)

end Update

end Levos.Framework.Memory
