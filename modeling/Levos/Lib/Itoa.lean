import Levos.Framework.Buffer
import Levos.Framework.Numeral

namespace Levos.Lib

open Levos.Framework

def bchars : List (BitVec 8) :=
  [0x30, 0x31, 0x32, 0x33, 0x34, 0x35, 0x36, 0x37, 0x38, 0x39, 0x41, 0x42, 0x43, 0x44, 0x45, 0x46]

def bchar (d : Nat) : BitVec 8 := bchars.getD d 0

/-- The first loop of `itoa`, with `room` bytes left in `tbuf`: the lowest digit first. -/
def itoaDigits (base : Nat) : Nat → Nat → Except Fault (List (BitVec 8))
  | 0, i => if i = 0 then .ok [] else .error .outOfBounds
  | room + 1, i =>
    if i = 0 then .ok []
    else if base = 0 then .error .divideByZero
    else do
      let rest ← itoaDigits base room (i / base)
      return bchar (i % base) :: rest

/-- `itoa`. The second loop copies `tbuf` backwards. -/
def itoa (i : BitVec 32) (base : Nat) (buf : Buffer) : Except Fault Buffer :=
  if i = 0 ∨ 16 < base then buf.fill 0 2 fun k => [0x30, 0x00].getD k 0
  else do
    let tbuf ← itoaDigits base 32 i.toNat
    buf.fill 0 (tbuf.length + 1) fun k => (tbuf.reverse ++ [0x00]).getD k 0

/-- The bytes from `i` on up to the next zero, with `room` bytes to go to the end of the buffer. -/
def stringAt (buf : Buffer) : Nat → Nat → Except Fault (List (BitVec 8))
  | 0, _ => .error .outOfBounds
  | room + 1, i => do
    let c ← buf.load8 i
    if c = 0 then return []
    else
      let rest ← stringAt buf room (i + 1)
      return c :: rest

section Digits

variable {base room i : Nat}

theorem bchar_ne_zero {d : Nat} (hd : d < 16) : bchar d ≠ 0 := by
  have hall : ∀ d < 16, bchar d ≠ 0 := by decide
  exact hall d hd

theorem bchar_ne_minus {d : Nat} (hd : d < 16) : bchar d ≠ 0x2D := by
  have hall : ∀ d < 16, bchar d ≠ 0x2D := by decide
  exact hall d hd

/-- The loop finds the digits of the number, as long as there is room for them. -/
theorem itoaDigits_eq (hbase : 1 < base) (hi : i < base ^ room) :
    itoaDigits base room i = .ok ((Nat.digits base i).map bchar) := by
  induction room generalizing i with
  | zero =>
    have hzero : i = 0 := by rw [Nat.pow_zero] at hi; omega
    rw [itoaDigits, if_pos hzero, hzero, Nat.digits_zero]
    rfl
  | succ room ih =>
    by_cases hzero : i = 0
    · rw [itoaDigits, if_pos hzero, hzero, Nat.digits_zero]
      rfl
    · have hrest : i / base < base ^ room := by
        apply Nat.div_lt_of_lt_mul
        rwa [Nat.mul_comm, ← Nat.pow_succ]
      have hdigits : Nat.digits base i = i % base :: Nat.digits base (i / base) :=
        Nat.digits_def' hbase (Nat.pos_of_ne_zero hzero)
      rw [itoaDigits, if_neg hzero, if_neg (by omega), ih hrest, hdigits]
      rfl

end Digits

section Strings

variable {buf : Buffer} {bs : List (BitVec 8)}

/-- What was stored with a zero behind it is a string. -/
theorem stringAt_stored (hsize : bs.length + 1 ≤ buf.size) (hnul : 0 ∉ bs) {room i : Nat}
    (hi : i ≤ bs.length) (hroom : bs.length + 1 ≤ i + room) :
    stringAt (buf.stored 0 (bs ++ [0])) room i = .ok (bs.drop i) := by
  have hlen : (bs ++ [(0 : BitVec 8)]).length = bs.length + 1 := by simp
  have hin (j : Nat) (hj : j ≤ bs.length) :
      (buf.stored 0 (bs ++ [0])).load8 j = .ok ((bs ++ [0]).getD j 0) := by
    rw [Buffer.load8, Buffer.stored_size, if_pos (by omega), Buffer.stored_byte, hlen, if_pos (by omega)]
    rfl
  induction room generalizing i with
  | zero => omega
  | succ room ih =>
    rw [stringAt, hin i hi, ok_bind]
    by_cases hend : i = bs.length
    · have hzero : (bs ++ [(0 : BitVec 8)]).getD i 0 = 0 := by simp [hend]
      rw [if_pos hzero, hend, List.drop_length]
      rfl
    · have hlt : i < bs.length := by omega
      have hbyte : (bs ++ [(0 : BitVec 8)]).getD i 0 = bs[i] := by
        rw [List.getD_eq_getElem?_getD, List.getElem?_append_left hlt, List.getElem?_eq_getElem hlt]
        rfl
      have hne : bs[i] ≠ 0 := fun hzero => hnul (hzero ▸ List.getElem_mem hlt)
      rw [hbyte, if_neg hne, ih (by omega) (by omega), List.drop_eq_getElem_cons hlt]
      rfl

end Strings

/-- There are at most 32 digits. -/
theorem length_numeral_word {base : Nat} (hbase : 1 < base) (i : BitVec 32) :
    (numeral bchar base i.toNat).length ≤ 32 := by
  apply length_numeral_le hbase (by decide)
  calc
    i.toNat < 2 ^ 32 := i.isLt
    _ ≤ base ^ 32 := Nat.pow_le_pow_left hbase 32

/-- `itoa` writes the numeral of the number without its sign. -/
theorem itoa_numeral {base : Nat} (hbase : 1 < base) (hmax : base ≤ 16) (i : BitVec 32) {buf : Buffer}
    (hsize : (numeral bchar base i.toNat).length < buf.size) :
    itoa i base buf = .ok (buf.stored 0 (numeral bchar base i.toNat ++ [0])) := by
  by_cases hzero : i = 0
  · have hnum : numeral bchar base i.toNat = [0x30] := by rw [hzero]; rfl
    rw [hnum] at hsize
    rw [itoa, if_pos (.inl hzero), hnum]
    have hroom : 0 + [(0x30 : BitVec 8), 0x00].length ≤ buf.size := by
      rw [Nat.zero_add]
      exact hsize
    exact Buffer.fill_stored hroom
  · have hpos : 0 < i.toNat := BitVec.toNat_pos_of_ne_zero hzero
    have hdigits : itoaDigits base 32 i.toNat = .ok ((Nat.digits base i.toNat).map bchar) := by
      apply itoaDigits_eq hbase
      exact Nat.lt_of_lt_of_le i.isLt (Nat.pow_le_pow_left hbase 32)
    have hnum : numeral bchar base i.toNat = ((Nat.digits base i.toNat).map bchar).reverse :=
      numeral_of_pos hpos
    have hcount : ((Nat.digits base i.toNat).map bchar).length + 1 =
        (numeral bchar base i.toNat ++ [0]).length := by
      rw [hnum, List.length_append, List.length_reverse]
      rfl
    rw [itoa, if_neg (not_or.mpr ⟨hzero, by omega⟩), hdigits, ok_bind, hcount, ← hnum]
    apply Buffer.fill_stored
    rw [List.length_append, List.length_singleton]
    omega

theorem stringAt_numeral {base : Nat} (hbase : 1 < base) (hmax : base ≤ 16) (i : BitVec 32) {buf : Buffer}
    (hsize : (numeral bchar base i.toNat).length < buf.size) :
    stringAt (buf.stored 0 (numeral bchar base i.toNat ++ [0])) buf.size 0 =
      .ok (numeral bchar base i.toNat) := by
  have hnul : 0 ∉ numeral bchar base i.toNat := by
    intro hmem
    obtain ⟨d, hd, hchar⟩ := mem_numeral hbase hmem
    exact bchar_ne_zero (by omega) hchar.symm
  apply stringAt_stored _ hnul (Nat.zero_le _)
  · omega
  · omega

end Levos.Lib
