import Levos.Framework.Fault
import Mathlib.Data.Nat.Notation

namespace Levos.Framework

/-- A block of `size` bytes. -/
structure Buffer where
  size : Nat
  byte : Nat → BitVec 8

namespace Buffer

def zero (n : Nat) : Buffer := ⟨n, fun _ => 0⟩

def load8 (b : Buffer) (i : Nat) : Except Fault (BitVec 8) :=
  if i < b.size then .ok (b.byte i) else .error .outOfBounds

def load16 (b : Buffer) (i : Nat) : Except Fault (BitVec 16) :=
  if i + 2 ≤ b.size then .ok (b.byte (i + 1) ++ b.byte i) else .error .outOfBounds

def load32 (b : Buffer) (i : Nat) : Except Fault (BitVec 32) :=
  if i + 4 ≤ b.size then .ok (b.byte (i + 3) ++ b.byte (i + 2) ++ b.byte (i + 1) ++ b.byte i)
  else .error .outOfBounds

/-- `n` bytes are copied to offset `off`. -/
def fill (b : Buffer) (off n : Nat) (data : Nat → BitVec 8) : Except Fault Buffer :=
  if off + n ≤ b.size then
    .ok { b with byte := fun i => if off ≤ i ∧ i < off + n then data (i - off) else b.byte i }
  else .error .outOfBounds

/-- `n` bytes are copied from offset `off` of another block to the beginning of this one. -/
def memcpy (b src : Buffer) (off : Int) (n : Nat) : Except Fault Buffer :=
  if 0 ≤ off ∧ off + n ≤ src.size then b.fill 0 n fun i => src.byte (off.toNat + i)
  else .error .outOfBounds

/-- The block after `n` bytes were copied to offset `off`. -/
def filled (b : Buffer) (off n : Nat) (data : Nat → BitVec 8) : Buffer :=
  ⟨b.size, fun i => if off ≤ i ∧ i < off + n then data (i - off) else b.byte i⟩

@[simp] theorem filled_size (b : Buffer) (off n : Nat) (data : Nat → BitVec 8) :
    (b.filled off n data).size = b.size := rfl

theorem filled_byte (b : Buffer) (off n : Nat) (data : Nat → BitVec 8) (i : Nat) :
    (b.filled off n data).byte i =
      if off ≤ i ∧ i < off + n then data (i - off) else b.byte i := rfl

theorem fill_ok {b : Buffer} {off n : Nat} (h : off + n ≤ b.size) (data : Nat → BitVec 8) :
    b.fill off n data = .ok (b.filled off n data) := if_pos h

theorem fill_error {b : Buffer} {off n : Nat} (h : ¬off + n ≤ b.size) (data : Nat → BitVec 8) :
    b.fill off n data = .error .outOfBounds := if_neg h

/-- Two copies of as many bytes are the same where the bytes are. -/
theorem filled_eq_iff {b : Buffer} {off n : Nat} {data data' : Nat → BitVec 8} :
    b.filled off n data = b.filled off n data' ↔ ∀ i < n, data i = data' i := by
  constructor
  · intro h i hi
    have hbyte := congrFun (congrArg Buffer.byte h) (off + i)
    simpa [filled_byte, hi] using hbyte
  · intro h
    apply congrArg (Buffer.mk b.size)
    funext i
    by_cases hi : off ≤ i ∧ i < off + n
    · rw [if_pos hi, if_pos hi, h _ (by omega)]
    · rw [if_neg hi, if_neg hi]

/-- A second copy of as many bytes covers the first one. -/
theorem filled_filled {b : Buffer} {off n : Nat} {data data' : Nat → BitVec 8} :
    (b.filled off n data).filled off n data' = b.filled off n data' := by
  apply congrArg (Buffer.mk b.size)
  funext i
  by_cases hi : off ≤ i ∧ i < off + n
  · rw [if_pos hi, if_pos hi]
  · rw [if_neg hi, if_neg hi, filled_byte, if_neg hi]

theorem filled_nothing (b : Buffer) (off : Nat) (data : Nat → BitVec 8) : b.filled off 0 data = b := by
  apply congrArg (Buffer.mk b.size)
  funext i
  exact if_neg (by omega)

/-- A copy that goes on behind another one. -/
theorem filled_append {b : Buffer} {off n m : Nat} (data : Nat → BitVec 8) :
    (b.filled off n data).filled (off + n) m (fun i => data (n + i)) = b.filled off (n + m) data := by
  apply congrArg (Buffer.mk b.size)
  funext i
  by_cases hsecond : off + n ≤ i ∧ i < off + n + m
  · have hbyte : n + (i - (off + n)) = i - off := by omega
    rw [if_pos hsecond, if_pos (by omega)]
    exact congrArg data hbyte
  · rw [if_neg hsecond, filled_byte]
    by_cases hfirst : off ≤ i ∧ i < off + n
    · rw [if_pos hfirst, if_pos (by omega)]
    · rw [if_neg hfirst, if_neg (by omega)]

theorem memcpy_ok {b src : Buffer} {off n : Nat} (hsrc : off + n ≤ src.size) (hb : n ≤ b.size) :
    b.memcpy src off n = .ok (b.filled 0 n fun i => src.byte (off + i)) := by
  have hin : (0 : Int) ≤ off ∧ (off : Int) + n ≤ src.size := by omega
  rw [memcpy, if_pos hin, fill_ok (by omega)]
  rfl

section Copy

variable {b src : Buffer} {off n i : Nat}

/-- The first `n` bytes are a copy of those from `off` on in another block. -/
theorem byte_copy (h : i < n) :
    (b.filled 0 n fun i => src.byte (off + i)).byte i = src.byte (off + i) := by
  simp [filled_byte, h]

theorem load16_copy (h : i + 2 ≤ n) (hsrc : off + n ≤ src.size) (hb : n ≤ b.size) :
    (b.filled 0 n fun i => src.byte (off + i)).load16 i = src.load16 (off + i) := by
  rw [load16, load16, if_pos (by simp only [filled_size]; omega), if_pos (by omega), byte_copy (by omega),
    byte_copy (by omega)]
  rfl

theorem load32_copy (h : i + 4 ≤ n) (hsrc : off + n ≤ src.size) (hb : n ≤ b.size) :
    (b.filled 0 n fun i => src.byte (off + i)).load32 i = src.load32 (off + i) := by
  rw [load32, load32, if_pos (by simp only [filled_size]; omega), if_pos (by omega), byte_copy (by omega),
    byte_copy (by omega), byte_copy (by omega), byte_copy (by omega)]
  rfl

end Copy

section Bytes

variable {b : Buffer} {off n : Nat} {bs : List (BitVec 8)}

/-- The `n` bytes from offset `off` on. -/
def bytes (b : Buffer) (off n : Nat) : List (BitVec 8) := (List.range n).map fun i => b.byte (off + i)

/-- The block after the bytes of a list were copied to offset `off`. -/
def stored (b : Buffer) (off : Nat) (bs : List (BitVec 8)) : Buffer :=
  b.filled off bs.length (bs.getD · 0)

@[simp] theorem bytes_zero (b : Buffer) (off : Nat) : b.bytes off 0 = [] := rfl

@[simp] theorem length_bytes (b : Buffer) (off n : Nat) : (b.bytes off n).length = n := by simp [bytes]

@[simp] theorem stored_size (b : Buffer) (off : Nat) (bs : List (BitVec 8)) :
    (b.stored off bs).size = b.size := rfl

theorem getElem?_bytes (b : Buffer) (off n i : Nat) :
    (b.bytes off n)[i]? = if i < n then some (b.byte (off + i)) else none := by
  by_cases h : i < n <;> simp [bytes, h]

theorem bytes_add (b : Buffer) (off m n : Nat) :
    b.bytes off (m + n) = b.bytes off m ++ b.bytes (off + m) n := by
  simp [bytes, List.range_add, Nat.add_assoc]

theorem take_bytes (b : Buffer) {k : Nat} (h : k ≤ n) : (b.bytes off n).take k = b.bytes off k := by
  obtain ⟨j, rfl⟩ := Nat.exists_eq_add_of_le h
  rw [bytes_add]
  simp

theorem stored_byte (b : Buffer) (off : Nat) (bs : List (BitVec 8)) (i : Nat) :
    (b.stored off bs).byte i =
      if off ≤ i ∧ i < off + bs.length then bs.getD (i - off) 0 else b.byte i := rfl

/-- What was stored stands there. -/
theorem bytes_stored (b : Buffer) (off : Nat) (bs : List (BitVec 8)) :
    (b.stored off bs).bytes off bs.length = bs := by
  apply List.ext_getElem?
  intro i
  rw [getElem?_bytes, stored_byte]
  by_cases h : i < bs.length
  · simp [h]
  · simp [h]

/-- What stands in front of it is unchanged. -/
theorem bytes_stored_before (b : Buffer) {o : Nat} (bs : List (BitVec 8)) (h : o + n ≤ off) :
    (b.stored off bs).bytes o n = b.bytes o n := by
  apply List.map_congr_left
  intro i hi
  have hlt : i < n := List.mem_range.mp hi
  rw [stored_byte, if_neg (by omega)]

/-- A list stored behind `n` bytes is appended to them. -/
theorem bytes_stored_append (b : Buffer) (n : Nat) (bs : List (BitVec 8)) :
    (b.stored n bs).bytes 0 (n + bs.length) = b.bytes 0 n ++ bs := by
  rw [bytes_add, Nat.zero_add, bytes_stored, bytes_stored_before b bs (by omega)]

theorem fill_stored (h : off + bs.length ≤ b.size) :
    b.fill off bs.length (bs.getD · 0) = .ok (b.stored off bs) := fill_ok h _

theorem fill_byte (c : BitVec 8) (h : off < b.size) :
    b.fill off 1 (fun _ => c) = .ok (b.stored off [c]) := by
  rw [fill_ok (by omega)]
  apply congrArg Except.ok
  apply congrArg (Buffer.mk b.size)
  funext i
  by_cases hi : off ≤ i ∧ i < off + 1
  · have hzero : i - off = 0 := by omega
    simp [hi, hzero]
  · rw [if_neg hi, List.length_singleton, if_neg hi]

theorem lt_of_fill {b' : Buffer} {data : Nat → BitVec 8} (h : b.fill off n data = .ok b') :
    off + n ≤ b.size := by
  rw [fill] at h
  split at h
  · assumption
  · cases h

theorem eq_of_fill {b' : Buffer} {data : Nat → BitVec 8} (h : b.fill off n data = .ok b') :
    b' = b.filled off n data := by
  rw [fill_ok (lt_of_fill h)] at h
  exact (Except.ok.inj h).symm

/-- A copy of bytes from the beginning of another block. -/
theorem memcpy_stored {src : Buffer} (hsrc : n ≤ src.size) (hb : n ≤ b.size) :
    b.memcpy src 0 n = .ok (b.stored 0 (src.bytes 0 n)) := by
  have hin : (0 : Int) ≤ 0 ∧ (0 : Int) + n ≤ src.size := by omega
  rw [memcpy, if_pos hin, fill_ok (by omega)]
  apply congrArg Except.ok
  rw [stored, filled, filled, length_bytes]
  apply congrArg (Buffer.mk b.size)
  funext i
  by_cases hi : 0 ≤ i ∧ i < 0 + n
  · rw [if_pos hi, if_pos hi, List.getD_eq_getElem?_getD, getElem?_bytes, if_pos (by omega)]
    simp
  · rw [if_neg hi, if_neg hi]

theorem memcpy_le {b' src : Buffer} (h : b.memcpy src 0 n = .ok b') : n ≤ src.size ∧ n ≤ b.size := by
  rw [memcpy] at h
  split at h
  · have := lt_of_fill h
    omega
  · cases h

/-- A second copy covers the first one as far as it goes. -/
theorem stored_stored (b : Buffer) (bs cs : List (BitVec 8)) :
    (b.stored 0 bs).stored 0 cs = b.stored 0 (cs ++ bs.drop cs.length) := by
  apply congrArg (Buffer.mk b.size)
  funext i
  rw [stored_byte]
  simp only [Nat.zero_le, true_and, Nat.zero_add, Nat.sub_zero, List.length_append, List.length_drop]
  by_cases hc : i < cs.length
  · rw [if_pos hc, if_pos (by omega)]
    simp [List.getElem?_append_left hc]
  · by_cases hb : i < bs.length
    · rw [if_neg hc, if_pos hb, if_pos (by omega)]
      simp [List.getElem?_append_right (Nat.not_lt.mp hc), Nat.add_sub_cancel' (Nat.not_lt.mp hc)]
    · rw [if_neg hc, if_neg hb, if_neg (by omega)]

/-- A byte that is stored behind a list. -/
theorem stored_snoc (b : Buffer) (bs : List (BitVec 8)) (c : BitVec 8) :
    (b.stored 0 bs).stored bs.length [c] = b.stored 0 (bs ++ [c]) := by
  apply congrArg (Buffer.mk b.size)
  funext i
  rw [stored_byte]
  simp only [Nat.zero_le, true_and, Nat.zero_add, Nat.sub_zero, List.length_append, List.length_singleton]
  by_cases hb : i < bs.length
  · rw [if_neg (by omega), if_pos hb, if_pos (by omega)]
    simp [List.getElem?_append_left hb]
  · by_cases hc : i = bs.length
    · rw [if_pos (by omega), if_pos (by omega), hc]
      simp
    · rw [if_neg (by omega), if_neg hb, if_neg (by omega)]

/-- A list that is stored behind a byte. -/
theorem stored_cons (b : Buffer) (off : Nat) (c : BitVec 8) (bs : List (BitVec 8)) :
    (b.stored off [c]).stored (off + 1) bs = b.stored off (c :: bs) := by
  apply congrArg (Buffer.mk b.size)
  funext i
  rw [stored_byte]
  simp only [List.length_cons, List.length_nil]
  by_cases hfirst : i = off
  · rw [if_neg (by omega), if_pos (by omega), if_pos (by omega), hfirst, Nat.sub_self]
    rfl
  · by_cases hrest : off + 1 ≤ i ∧ i < off + 1 + bs.length
    · have hsub : i - off = i - (off + 1) + 1 := by omega
      rw [if_pos hrest, if_pos (by omega), hsub]
      rfl
    · rw [if_neg hrest, if_neg (by omega), if_neg (by omega)]

theorem stored_nil (b : Buffer) (off : Nat) : b.stored off [] = b := filled_nothing b off _

/-- A list that is stored in front of a zero has it behind it. -/
theorem stored_zero_snoc (h : b.byte bs.length = 0) : b.stored 0 bs = b.stored 0 (bs ++ [0]) := by
  rw [← stored_snoc]
  apply congrArg (Buffer.mk b.size)
  funext i
  by_cases hi : bs.length ≤ i ∧ i < bs.length + 1
  · obtain rfl : i = bs.length := by omega
    simp [h]
  · rw [List.length_singleton, if_neg hi]
    rfl

/-- What is stored is told by all the blocks that it is stored in. -/
theorem stored_inj {k : Nat} {cs : List (BitVec 8)}
    (h : ∀ b : Buffer, k ≤ b.size → b.stored 0 bs = b.stored 0 cs) : bs = cs := by
  have hbyte : ∀ (x : BitVec 8) (i : Nat),
      (if i < bs.length then bs.getD i 0 else x) = if i < cs.length then cs.getD i 0 else x := by
    intro x i
    have heq := congrArg (fun b => Buffer.byte b i) (h ⟨k, fun _ => x⟩ (Nat.le_refl k))
    simpa only [stored_byte, Nat.zero_le, true_and, Nat.zero_add, Nat.sub_zero] using heq
  apply List.ext_getElem?
  intro i
  have h0 := hbyte 0 i
  have h1 := hbyte 1 i
  by_cases hb : i < bs.length
  · by_cases hc : i < cs.length
    · simpa [hb, hc] using h0
    · rw [if_pos hb, if_neg hc] at h0 h1
      cases h0.symm.trans h1
  · by_cases hc : i < cs.length
    · rw [if_neg hb, if_pos hc] at h0 h1
      cases h0.trans h1.symm
    · simp [Nat.not_lt.mp hb, Nat.not_lt.mp hc]

end Bytes

section Avoids

variable {F : Fault → Prop}

theorem avoids_load8 (hF : ¬F .outOfBounds) (b : Buffer) (i : Nat) : Avoids F (b.load8 i) := by
  rw [load8]
  split
  · exact .ok _
  · exact .error hF

theorem avoids_load16 (hF : ¬F .outOfBounds) (b : Buffer) (i : Nat) : Avoids F (b.load16 i) := by
  rw [load16]
  split
  · exact .ok _
  · exact .error hF

theorem avoids_load32 (hF : ¬F .outOfBounds) (b : Buffer) (i : Nat) : Avoids F (b.load32 i) := by
  rw [load32]
  split
  · exact .ok _
  · exact .error hF

theorem avoids_fill (hF : ¬F .outOfBounds) (b : Buffer) (off n : Nat) (data : Nat → BitVec 8) :
    Avoids F (b.fill off n data) := by
  rw [fill]
  split
  · exact .ok _
  · exact .error hF

theorem avoids_memcpy (hF : ¬F .outOfBounds) (b src : Buffer) (off : Int) (n : Nat) :
    Avoids F (b.memcpy src off n) := by
  rw [memcpy]
  split
  · exact avoids_fill hF b _ _ _
  · exact .error hF

end Avoids

end Buffer

end Levos.Framework
