import Levos.Lib.Itoa
import Mathlib.Data.List.GetD

namespace Levos.Lib

open Levos.Framework

/-- The first loop of `itoa`, with `tbuf` as it is and the place of the next digit. -/
def fillDigits (base : Nat) : Nat → Nat → Nat → Buffer → Except Fault (Nat × Buffer)
  | 0, _, _, _ => .error .diverges
  | fuel + 1, pos, i, tbuf =>
    if i = 0 then .ok (pos, tbuf)
    else if base = 0 then .error .divideByZero
    else do
      let tbuf ← tbuf.fill pos 1 fun _ => bchar (i % base)
      fillDigits base fuel (pos + 1) (i / base) tbuf

/-- `tbuf[pos]`, where `pos` may have gone below 0. -/
def digitAt (tbuf : Buffer) (pos : Int) : Except Fault (BitVec 8) :=
  if 0 ≤ pos then tbuf.load8 pos.toNat else .error .outOfBounds

/-- The second loop, with `n` digits to go, and the store of the zero behind it. -/
def copyDigits (tbuf : Buffer) : Nat → Nat → Int → Buffer → Except Fault Buffer
  | 0, opos, _, buf => buf.fill opos 1 fun _ => 0
  | n + 1, opos, pos, buf => do
    let c ← digitAt tbuf pos
    let buf ← buf.fill opos 1 fun _ => c
    copyDigits tbuf n (opos + 1) (pos - 1) buf

/-- `itoa`, access by access. -/
def itoaLoops (i : BitVec 32) (base : Nat) (tbuf buf : Buffer) : Except Fault (Buffer × Buffer) :=
  if i = 0 ∨ 16 < base then do
    let buf ← buf.fill 0 1 fun _ => 0x30
    let buf ← buf.fill 1 1 fun _ => 0x00
    return (tbuf, buf)
  else do
    let r ← fillDigits base (tbuf.size + 1) 0 i.toNat tbuf
    let buf ← copyDigits r.2 r.1 0 (r.1 - 1) buf
    return (r.2, buf)

/-- The value of a digit. -/
def digitValue (c : BitVec 8) : Nat := bchars.idxOf c

/-- A string is the number `n` to a base: digits, no zero in front, and reading it gives `n`. -/
structure Writes (base n : Nat) (l : List (BitVec 8)) : Prop where
  digits : ∀ c ∈ l, ∃ d < base, c = bchar d
  nonempty : l ≠ []
  noZero : l.head? = some 0x30 → l = [0x30]
  value : numeralValue digitValue base l = n

/-- What `itoa` has to do: it comes back, at most 32 digits and a zero behind them have been stored, and
the string is the number; and another number would have given another string. -/
def ItoaRight (base : Nat) (tbuf buf : Buffer) (i : BitVec 32) : Prop :=
  ∃ tbuf' buf' l, itoaLoops i base tbuf buf = .ok (tbuf', buf') ∧ stringAt buf' buf'.size 0 = .ok l ∧
    Writes base i.toNat l ∧ l.length ≤ 32 ∧
    buf'.size = buf.size ∧ (∀ j, l.length < j → buf'.byte j = buf.byte j) ∧
    ∀ (j : BitVec 32) (tbuf'' buf'' : Buffer), itoaLoops j base tbuf buf = .ok (tbuf'', buf'') →
      stringAt buf'' buf''.size 0 = .ok l → j = i

section Loops

variable {base room fuel pos opos n : Nat} {tbuf buf : Buffer} {ds : List (BitVec 8)}

/-- The first loop stores the digits one after the other. -/
theorem fillDigits_eq (hbase : base ≠ 0) (i : Nat) (hsize : pos + room = tbuf.size) (hfuel : room < fuel) :
    fillDigits base fuel pos i tbuf =
      (itoaDigits base room i).map fun ds => (pos + ds.length, tbuf.stored pos ds) := by
  induction room generalizing fuel pos i tbuf with
  | zero =>
    obtain ⟨fuel, rfl⟩ := Nat.exists_eq_add_of_lt hfuel
    rw [fillDigits, itoaDigits]
    by_cases hzero : i = 0
    · rw [if_pos hzero, if_pos hzero, Except.map, Buffer.stored_nil]
      rfl
    · rw [if_neg hzero, if_neg hzero, if_neg hbase, Buffer.fill_error (by omega)]
      rfl
  | succ room ih =>
    obtain ⟨fuel, rfl⟩ := Nat.exists_eq_add_of_lt hfuel
    rw [fillDigits, itoaDigits]
    by_cases hzero : i = 0
    · rw [if_pos hzero, if_pos hzero, Except.map, Buffer.stored_nil]
      rfl
    · have hnext (c : BitVec 8) :
          fillDigits base (room + 1 + fuel) (pos + 1) (i / base) (tbuf.stored pos [c]) =
          (itoaDigits base room (i / base)).map fun ds =>
            (pos + 1 + ds.length, (tbuf.stored pos [c]).stored (pos + 1) ds) := by
        apply ih
        · rw [Buffer.stored_size]
          omega
        · omega
      rw [if_neg hzero, if_neg hzero, if_neg hbase, if_neg hbase, Buffer.fill_byte _ (by omega),
        ok_bind, hnext]
      cases itoaDigits base room (i / base) with
      | error e => rfl
      | ok ds =>
        have hplace : pos + 1 + ds.length = pos + (ds.length + 1) := by omega
        simp only [Except.map, ok_bind, Buffer.stored_cons, hplace]
        rfl

theorem itoaDigits_length {i : Nat} (h : itoaDigits base room i = .ok ds) : ds.length ≤ room := by
  induction room generalizing i ds with
  | zero =>
    rw [itoaDigits] at h
    split at h
    · cases h
      exact Nat.le_refl 0
    · cases h
  | succ room ih =>
    rw [itoaDigits] at h
    split at h
    · cases h
      exact Nat.zero_le _
    · split at h
      · cases h
      · obtain ⟨rest, hrest, hds⟩ := bind_eq_ok.mp h
        cases hds
        exact Nat.succ_le_succ (ih hrest)

theorem digitAt_stored (hn : n < ds.length) (hds : ds.length ≤ tbuf.size) :
    digitAt (tbuf.stored 0 ds) n = .ok ds[n] := by
  rw [digitAt, if_pos (by omega), Int.toNat_natCast, Buffer.load8,
    if_pos (by rw [Buffer.stored_size]; omega), Buffer.stored_byte, if_pos (by omega), Nat.sub_zero,
    List.getD_eq_getElem _ _ hn]

/-- The second loop stores the first `n` digits backwards, with a zero behind them. -/
theorem copyDigits_eq (hn : n ≤ ds.length) (hds : ds.length ≤ tbuf.size) (hroom : opos + n < buf.size) :
    copyDigits (tbuf.stored 0 ds) n opos (n - 1) buf =
      .ok (buf.stored opos ((ds.take n).reverse ++ [0])) := by
  induction n generalizing opos buf with
  | zero =>
    rw [copyDigits, Buffer.fill_byte _ (by omega), List.take_zero]
    rfl
  | succ n ih =>
    have hpos : ((n + 1 : Nat) : Int) - 1 = n := by omega
    have htake : (ds.take (n + 1)).reverse = ds[n] :: (ds.take n).reverse := by
      rw [List.take_succ_eq_append_getElem (by omega), List.reverse_append]
      rfl
    rw [copyDigits, hpos, digitAt_stored (by omega) hds, ok_bind, Buffer.fill_byte _ (by omega), ok_bind,
      ih (by omega) (by rw [Buffer.stored_size]; omega), Buffer.stored_cons, htake]
    rfl

/-- Where they do not fit, a store goes outside the buffer. -/
theorem copyDigits_error (hn : n ≤ ds.length) (hds : ds.length ≤ tbuf.size) (hroom : buf.size ≤ opos + n) :
    copyDigits (tbuf.stored 0 ds) n opos (n - 1) buf = .error .outOfBounds := by
  induction n generalizing opos buf with
  | zero => exact Buffer.fill_error (by omega) _
  | succ n ih =>
    have hpos : ((n + 1 : Nat) : Int) - 1 = n := by omega
    rw [copyDigits, hpos, digitAt_stored (by omega) hds, ok_bind]
    by_cases hin : opos < buf.size
    · rw [Buffer.fill_byte _ hin, ok_bind, ih (by omega) (by rw [Buffer.stored_size]; omega)]
    · rw [Buffer.fill_error (by omega)]
      rfl

end Loops

/-- Access by access `itoa` stores what it stores at once, for every base and every buffer. -/
theorem itoaLoops_itoa (i : BitVec 32) (base : Nat) {tbuf : Buffer} (htbuf : tbuf.size = 32)
    (buf : Buffer) :
    (itoaLoops i base tbuf buf).map (fun r => r.2) = itoa i base buf := by
  by_cases hsmall : i = 0 ∨ 16 < base
  · rw [itoaLoops, itoa, if_pos hsmall, if_pos hsmall]
    have hboth (h : 2 ≤ buf.size) : buf.fill 0 2 (fun k => [(0x30 : BitVec 8), 0x00].getD k 0) =
        .ok ((buf.stored 0 [0x30]).stored 1 [0x00]) := by
      have hfits : 0 + [(0x30 : BitVec 8), 0x00].length ≤ buf.size := by simpa using h
      rw [Buffer.stored_cons]
      exact Buffer.fill_stored hfits
    by_cases hroom : 2 ≤ buf.size
    · rw [Buffer.fill_byte _ (by omega), ok_bind, Buffer.fill_byte _ (by rw [Buffer.stored_size]; omega),
        hboth hroom]
      rfl
    · rw [Buffer.fill_error (by omega : ¬0 + 2 ≤ buf.size)]
      by_cases hone : 0 < buf.size
      · rw [Buffer.fill_byte _ hone, ok_bind, Buffer.fill_error (by rw [Buffer.stored_size]; omega)]
        rfl
      · rw [Buffer.fill_error (by omega)]
        rfl
  · rw [itoaLoops, itoa, if_neg hsmall, if_neg hsmall]
    by_cases hbase : base = 0
    · have hi : i.toNat ≠ 0 := fun hzero => hsmall (.inl (BitVec.eq_of_toNat_eq hzero))
      rw [fillDigits, if_neg hi, if_pos hbase, itoaDigits, if_neg hi, if_pos hbase]
      rfl
    · have hfill : fillDigits base (tbuf.size + 1) 0 i.toNat tbuf =
          (itoaDigits base 32 i.toNat).map fun ds => (0 + ds.length, tbuf.stored 0 ds) :=
        fillDigits_eq hbase i.toNat (by omega) (by omega)
      rw [hfill]
      cases hdigits : itoaDigits base 32 i.toNat with
      | error e => rfl
      | ok ds =>
        have hds : ds.length ≤ tbuf.size := by
          rw [htbuf]
          exact itoaDigits_length hdigits
        have hlen : ds.length + 1 = (ds.reverse ++ [(0 : BitVec 8)]).length := by simp
        simp only [Except.map, ok_bind, Nat.zero_add]
        by_cases hroom : ds.length < buf.size
        · rw [copyDigits_eq (Nat.le_refl _) hds (by omega), List.take_length, hlen,
            Buffer.fill_stored (by rw [← hlen]; omega)]
          rfl
        · rw [copyDigits_error (Nat.le_refl _) hds (by omega), Buffer.fill_error (by omega)]
          rfl

section Right

variable {base : Nat} {i : BitVec 32} {tbuf buf : Buffer}

theorem digitValue_bchar (hmax : base ≤ 16) (d : Nat) (hd : d < base) : digitValue (bchar d) = d := by
  have hall : ∀ d < 16, digitValue (bchar d) = d := by decide
  exact hall d (by omega)

theorem numeral_writes (hbase : 1 < base) (hmax : base ≤ 16) (n : Nat) :
    Writes base n (numeral bchar base n) := by
  have hvalue := digitValue_bchar hmax
  refine ⟨fun c hc => mem_numeral hbase hc, numeral_ne_nil, ?_, numeralValue_numeral hbase hvalue n⟩
  intro hhead
  by_cases hn : n = 0
  · rw [hn]
    rfl
  · exact absurd hhead (head_numeral hbase hvalue (Nat.pos_of_ne_zero hn))

/-- What `itoa` leaves in a buffer with room for it. -/
theorem itoaLoops_ok (hbase : 1 < base) (hmax : base ≤ 16) (i : BitVec 32) (htbuf : tbuf.size = 32)
    (hbuf : 33 ≤ buf.size) :
    ∃ tbuf', itoaLoops i base tbuf buf =
      .ok (tbuf', buf.stored 0 (numeral bchar base i.toNat ++ [0])) := by
  have hlen : (numeral bchar base i.toNat).length ≤ 32 := length_numeral_word hbase i
  have hwhole := itoaLoops_itoa i base htbuf buf
  rw [itoa_numeral hbase hmax i (by omega)] at hwhole
  cases hloops : itoaLoops i base tbuf buf with
  | error e =>
    rw [hloops] at hwhole
    cases hwhole
  | ok r =>
    rw [hloops] at hwhole
    exact ⟨r.1, by rw [← Except.ok.inj hwhole]⟩

end Right

/-- `itoa` is right for every value and every base from 2 to 16. -/
theorem itoa_right {base : Nat} (hbase : 2 ≤ base) (hmax : base ≤ 16) (i : BitVec 32) {tbuf buf : Buffer}
    (htbuf : tbuf.size = 32) (hbuf : 33 ≤ buf.size) : ItoaRight base tbuf buf i := by
  have hlen (j : BitVec 32) : (numeral bchar base j.toNat).length ≤ 32 := length_numeral_word hbase j
  have hstring (j : BitVec 32) : stringAt (buf.stored 0 (numeral bchar base j.toNat ++ [0])) buf.size 0 =
      .ok (numeral bchar base j.toNat) := by
    have hj := hlen j
    exact stringAt_numeral hbase hmax j (by omega)
  obtain ⟨tbuf', hok⟩ := itoaLoops_ok hbase hmax i htbuf hbuf
  refine ⟨tbuf', _, _, hok, hstring i, numeral_writes hbase hmax i.toNat, hlen i, rfl, ?_, ?_⟩
  · intro j hj
    rw [Buffer.stored_byte, if_neg]
    rw [List.length_append, List.length_singleton]
    omega
  · intro j tbuf'' buf'' hj hsame
    obtain ⟨tbuf₂, hok₂⟩ := itoaLoops_ok hbase hmax j htbuf hbuf
    cases hok₂.symm.trans hj
    have hnum : numeral bchar base j.toNat = numeral bchar base i.toNat :=
      Except.ok.inj ((hstring j).symm.trans hsame)
    exact BitVec.eq_of_toNat_eq (numeral_inj hbase (digitValue_bchar hmax) hnum)

/-- The largest value to base 2, whose numeral fills `tbuf`. -/
theorem itoa_binary : ItoaRight 2 (.zero 32) (.zero 33) 0xFFFFFFFF :=
  itoa_right (Nat.le_refl 2) (by decide) 0xFFFFFFFF rfl (Nat.le_refl 33)

end Levos.Lib
