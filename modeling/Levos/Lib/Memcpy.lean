import Levos.Arch.Textmode
import Levos.Framework.Buffer
import Levos.Framework.ByteMemory
import Levos.Memory.AddressSpace

namespace Levos.Lib

open Levos.Framework Levos.Arch

/-- `*a = v`. -/
def store8 (m : Memory) (a : Nat) (v : BitVec 8) : Memory := fun x => if x = a then v else m x

/-- The loop of `memcpy`, with `count` of its turns to go. -/
def memcpyPairs : Nat → Nat → Nat → Memory → Memory
  | 0, _, _, m => m
  | count + 1, dst8, src8, m =>
    let m := store8 m dst8 (m src8)
    let m := store8 m (dst8 + 1) (m (src8 + 1))
    memcpyPairs count (dst8 + 2) (src8 + 2) m

/-- `memcpy`. -/
def memcpy (m : Memory) (dest src count : Nat) : Memory :=
  if count % 2 = 1 then memcpyPairs (count / 2) (dest + 1) (src + 1) (store8 m dest (m src))
  else memcpyPairs (count / 2) dest src m

/-- The plain copy, a byte at a time. -/
def copyBytes : Nat → Nat → Nat → Memory → Memory
  | 0, _, _, m => m
  | n + 1, dest, src, m => copyBytes n (dest + 1) (src + 1) (store8 m dest (m src))

/-- `n` bytes from `src` on and `n` bytes from `dest` on have none in common. -/
def Apart (dest src n : Nat) : Prop := dest + n ≤ src ∨ src + n ≤ dest

/-- The buffer stands in memory at `a`. -/
def Holds (m : Memory) (a : Nat) (b : Buffer) : Prop := ∀ i < b.size, m (a + i) = b.byte i

/-- The cells of the screen are what stands in the video memory. -/
def Shows (m : Memory) (s : Textmode) : Prop :=
  ∀ i, (s.video i).value = m (0xB8000 + 2 * i + 1) ++ m (0xB8000 + 2 * i)

/-- The loop of `__textmode_scrollup` after `y` of its turns, in memory. -/
def scrolledMemory (m : Memory) : Nat → Memory
  | 0 => m
  | y + 1 => memcpy (scrolledMemory m y) (0xB8000 + y * 80 * 2) (0xB8000 + (y + 1) * 80 * 2) (80 * 2)

section Copy

variable {m : Memory} {dest src n : Nat}

theorem store8_of_ne {a x : Nat} {v : BitVec 8} (h : x ≠ a) : store8 m a v x = m x := if_neg h

/-- The bytes outside the target are not stored to. -/
theorem copyBytes_outside {x : Nat} (hx : x < dest ∨ dest + n ≤ x) : copyBytes n dest src m x = m x := by
  induction n generalizing dest src m with
  | zero => rfl
  | succ n ih =>
    rw [copyBytes, ih (by omega), store8_of_ne (by omega)]

/-- A copy downwards, or between blocks that lie apart, reads every byte before it is stored to. -/
theorem copyBytes_inside (h : dest ≤ src ∨ src + n ≤ dest) {i : Nat} (hi : i < n) :
    copyBytes n dest src m (dest + i) = m (src + i) := by
  induction n generalizing dest src m i with
  | zero => omega
  | succ n ih =>
    rw [copyBytes]
    cases i with
    | zero =>
      rw [copyBytes_outside (by omega)]
      exact if_pos rfl
    | succ i =>
      have hplace : dest + (i + 1) = dest + 1 + i := by omega
      have hfrom : src + 1 + i = src + (i + 1) := by omega
      rw [hplace, ih (by omega) (by omega), hfrom, store8_of_ne (by omega)]

/-- Two bytes a turn are copied in the same order. -/
theorem memcpyPairs_eq (k : Nat) : memcpyPairs k dest src m = copyBytes (2 * k) dest src m := by
  induction k generalizing dest src m with
  | zero => rfl
  | succ k ih =>
    have htwo : 2 * (k + 1) = 2 * k + 1 + 1 := by omega
    rw [memcpyPairs, ih, htwo, copyBytes, copyBytes]

/-- `memcpy` is the plain copy, whether the blocks overlap or not. -/
theorem memcpy_eq (m : Memory) (dest src n : Nat) : memcpy m dest src n = copyBytes n dest src m := by
  by_cases hodd : n % 2 = 1
  · have hn : n = 2 * (n / 2) + 1 := by omega
    rw [memcpy, if_pos hodd, memcpyPairs_eq]
    exact congrArg (fun k => copyBytes k dest src m) hn.symm
  · have hn : n = 2 * (n / 2) := by omega
    rw [memcpy, if_neg hodd, memcpyPairs_eq, ← hn]

/-- The bytes as they are after a copy between blocks that lie apart, or downwards. -/
theorem memcpy_apply (m : Memory) (h : Apart dest src n ∨ dest ≤ src) (x : Nat) :
    memcpy m dest src n x = if dest ≤ x ∧ x < dest + n then m (src + (x - dest)) else m x := by
  have hdown : dest ≤ src ∨ src + n ≤ dest := by
    rw [Apart] at h
    omega
  rw [memcpy_eq]
  by_cases hx : dest ≤ x ∧ x < dest + n
  · have hplace : dest + (x - dest) = x := by omega
    have hcopied := copyBytes_inside (m := m) hdown (i := x - dest) (by omega)
    rw [hplace] at hcopied
    rw [if_pos hx, hcopied]
  · rw [if_neg hx]
    exact copyBytes_outside (by omega)

end Copy

/-- `memcpy` between blocks that lie apart, or downwards, leaves a copy of what stood at `src`, leaves all
else alone, and agrees with the plain copy. -/
theorem memcpy_right (m : Memory) {dest src count : Nat} (h : Apart dest src count ∨ dest ≤ src) :
    (∀ i < count, memcpy m dest src count (dest + i) = m (src + i)) ∧
      (∀ x, x < dest ∨ dest + count ≤ x → memcpy m dest src count x = m x) ∧
      memcpy m dest src count = copyBytes count dest src m := by
  refine ⟨?_, ?_, memcpy_eq m dest src count⟩
  · intro i hi
    rw [memcpy_apply m h, if_pos (by omega), Nat.add_sub_cancel_left]
  · intro x hx
    rw [memcpy_apply m h, if_neg (by omega)]

/-- A memory that holds the number of each byte. -/
def numbered : Memory := fun x => BitVec.ofNat 8 x

/-- Three bytes are moved down by one. -/
theorem memcpy_down :
    (∀ i < 3, memcpy numbered 0 1 3 (0 + i) = numbered (1 + i)) ∧
      (∀ x, x < 0 ∨ 0 + 3 ≤ x → memcpy numbered 0 1 3 x = numbered x) ∧
      memcpy numbered 0 1 3 = copyBytes 3 0 1 numbered :=
  memcpy_right numbered (.inr (Nat.zero_le 1))

/-- A page directory that is copied by `memcpy`. -/
theorem memcpy_copyBlock (m : Memory) {dest src count : Nat} (h : Apart dest src count ∨ dest ≤ src) :
    memcpy m dest src count = Levos.Memory.copyBlock m dest src count := funext (memcpy_apply m h)

/-- A copy from one block to the beginning of another is `Buffer.memcpy`, and leaves the first one
alone. -/
theorem memcpy_buffer {m : Memory} {a c off n : Nat} {b src : Buffer} (hb : Holds m a b)
    (hsrc : Holds m c src) (hapart : a + b.size ≤ c ∨ c + src.size ≤ a) (hoff : off + n ≤ src.size)
    (hn : n ≤ b.size) :
    ∃ b', b.memcpy src off n = .ok b' ∧ Holds (memcpy m a (c + off) n) a b' ∧
      Holds (memcpy m a (c + off) n) c src := by
  have hcopy : Apart a (c + off) n ∨ a ≤ c + off := by
    rw [Apart]
    omega
  refine ⟨_, Buffer.memcpy_ok hoff hn, ?_, ?_⟩
  · intro i hi
    rw [memcpy_apply m hcopy, Buffer.filled_byte]
    rw [Buffer.filled_size] at hi
    by_cases hin : i < n
    · have hplace : c + off + (a + i - a) = c + (off + i) := by omega
      rw [if_pos (by omega), if_pos (by omega), hplace, hsrc (off + i) (by omega), Nat.sub_zero]
    · rw [if_neg (by omega), if_neg (by omega), hb i hi]
  · intro i hi
    rw [memcpy_apply m hcopy, if_neg (by omega), hsrc i hi]

/-- The rows that `__textmode_scrollup` moves up are moved by `memcpy`. -/
theorem memcpy_scroll {m : Memory} {s : Textmode} (h : Shows m s) (y : Nat) :
    Shows (scrolledMemory m y) (scrolledRows s y) := by
  induction y with
  | zero => exact h
  | succ y ih =>
    intro i
    have hrow : Apart (0xB8000 + y * 80 * 2) (0xB8000 + (y + 1) * 80 * 2) (80 * 2) ∨
        0xB8000 + y * 80 * 2 ≤ 0xB8000 + (y + 1) * 80 * 2 := .inr (by omega)
    rw [scrolledMemory, scrolledRows, memcpy_apply _ hrow, memcpy_apply _ hrow, Textmode.memcpy]
    by_cases hin : y * 80 ≤ i ∧ i < y * 80 + 80
    · have hlow : 0xB8000 + (y + 1) * 80 * 2 + (0xB8000 + 2 * i - (0xB8000 + y * 80 * 2)) =
          0xB8000 + 2 * ((y + 1) * 80 + (i - y * 80)) := by omega
      have hhigh : 0xB8000 + (y + 1) * 80 * 2 + (0xB8000 + 2 * i + 1 - (0xB8000 + y * 80 * 2)) =
          0xB8000 + 2 * ((y + 1) * 80 + (i - y * 80)) + 1 := by omega
      rw [if_pos (by omega), if_pos (by omega), hlow, hhigh, ← ih]
      simp only [if_pos hin]
    · rw [if_neg (by omega), if_neg (by omega), ← ih]
      simp only [if_neg hin]

end Levos.Lib
