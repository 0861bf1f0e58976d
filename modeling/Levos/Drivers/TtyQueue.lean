import Levos.Drivers.TtyOutput

namespace Levos.Drivers

open Levos.Framework

/-- A call on a tty: what it was given, the number it answered, and what it moved. That is, for a
read, the bytes it stored in its caller's buffer and what the input device added; for a write to the
output buffer, the bytes that went on to the output device. -/
inductive Call
  | inputWrite (bytes : List (BitVec 8)) (n : Int)
  | inputRead (count : BitVec 32) (reply : List (BitVec 8)) (n : Int) (bytes : List (BitVec 8))
  | outputWrite (bytes : List (BitVec 8)) (n : Int) (gone : List (BitVec 8))
  | outputRead (count : BitVec 32) (n : Int) (bytes : List (BitVec 8))

/-- The calls with counts that fit the buffers. A read stores its bytes at the beginning of its
caller's buffer, whatever stood there. The input device adds no more than it is asked for, and nothing
when it is not asked. -/
inductive Called : Tty → Call → Tty → Prop
  | inputWrite {t t' : Tty} {bytes : List (BitVec 8)} {n : Int}
      (hfit : t.inputidx + bytes.length ≤ TTY_IN_BUFSIZE)
      (hcall : ttyInputWrite t bytes = .ok (n, t')) : Called t (.inputWrite bytes n) t'
  | inputRead {t t' : Tty} {count : BitVec 32} {reply bytes : List (BitVec 8)} {n : Int}
      (hfit : count.toNat ≤ TTY_IN_BUFSIZE) (hreply : reply.length ≤ count.toNat)
      (hasked : reply ≠ [] → t.input ≠ none ∧ t.inputidx < count.toNat)
      (hcall : ∀ buf : Buffer, count.toNat ≤ buf.size →
        ttyInputRead t buf count reply = .ok (n, buf.stored 0 bytes, t')) :
      Called t (.inputRead count reply n bytes) t'
  | outputWrite {t t' : Tty} {bytes gone : List (BitVec 8)} {n : Int}
      (hfit : bytes.length ≤ TTY_OUT_BUFSIZE)
      (hcall : ttyOutputWrite t bytes = .ok (n, t')) (hgone : t'.sent = t.sent ++ gone) :
      Called t (.outputWrite bytes n gone) t'
  | outputRead {t t' : Tty} {count : BitVec 32} {bytes : List (BitVec 8)} {n : Int}
      (hfit : count.toNat ≤ TTY_OUT_BUFSIZE)
      (hcall : ∀ buf : Buffer, count.toNat ≤ buf.size →
        ttyOutputRead t buf count = .ok (n, buf.stored 0 bytes, t')) :
      Called t (.outputRead count n bytes) t'

/-- The input buffer. The bytes of the input device go in behind the others. -/
def inputFifo : Fifo Tty Call (BitVec 8) where
  content := Tty.pendingInput
  put
    | .inputWrite bytes n => if 0 ≤ n then bytes else []
    | .inputRead _ reply _ _ => reply
    | _ => []
  take
    | .inputRead _ _ _ bytes => bytes
    | _ => []

/-- The output buffer, which the reads and the output device take from. -/
def outputFifo : Fifo Tty Call (BitVec 8) where
  content := Tty.pendingOutput
  put
    | .outputWrite bytes n _ => if 0 ≤ n then bytes else []
    | _ => []
  take
    | .outputWrite _ _ gone => gone
    | .outputRead _ _ bytes => bytes
    | _ => []

/-- A read answers the number of bytes that it stored, or an error when there are none. -/
def Call.Counted : Call → Prop
  | .inputRead _ _ n bytes => n = bytes.length ∨ n < 0 ∧ bytes = []
  | .outputRead _ n bytes => n = bytes.length ∨ n < 0 ∧ bytes = []
  | _ => True

/-- At every point of a sequence of calls both buffers are queues, and the reads so far have answered
how much they stored. -/
def Queued (t : Tty) (calls : List Call) : Prop :=
  AtEveryPoint Called t calls fun pre t' =>
    inputFifo.InOrder t pre t' ∧ outputFifo.InOrder t pre t' ∧ ∀ c ∈ pre, c.Counted

/-- A read of `n` of the bytes `l` may leave the first ones where they are: they are what is to stay. -/
def Repeats (l : List (BitVec 8)) (n : Nat) : Prop := l.take (l.length - n) = l.drop n

/-- A read finds no more in its buffer than it asks for, or leaves the same bytes as it takes; and when
an input read asks for more, its buffer is empty and the device delivers all that it is asked for. -/
def Meets (t : Tty) : Call → Prop
  | .inputRead count reply _ _ =>
    t.input ≠ none →
      if t.inputidx < count.toNat then t.inputidx = 0 ∧ reply.length = count.toNat
      else Repeats t.pendingInput count.toNat
  | .outputRead count _ _ =>
    t.output ≠ none → count.toNat ≤ t.outputidx → Repeats t.pendingOutput count.toNat
  | _ => True

section Steps

variable {t t' : Tty} {count : BitVec 32} {reply bytes gone : List (BitVec 8)} {n : Int}

/-- A read that leaves the other bytes in place keeps the queue exactly when they are what is to stay. -/
theorem leaves_iff (b : Buffer) {k m : Nat} (h : k ≤ m) :
    b.bytes 0 m = b.bytes 0 k ++ b.bytes 0 (m - k) ↔ Repeats (b.bytes 0 m) k := by
  have hsplit : b.bytes 0 m = b.bytes 0 k ++ (b.bytes 0 m).drop k := by
    rw [← Buffer.take_bytes b h]
    exact (List.take_append_drop k _).symm
  rw [Repeats, Buffer.length_bytes, Buffer.take_bytes b (Nat.sub_le m k)]
  constructor
  · intro heq
    exact (List.append_cancel_left (hsplit.symm.trans heq)).symm
  · intro heq
    rw [heq]
    exact hsplit

/-- A call that stores `bs` wherever it is let to tells what it moved. -/
theorem stores_unique {f : Buffer → Except Fault (Int × Buffer × Tty)} {k : Nat} {m : Int}
    {bs : List (BitVec 8)} {s : Tty} (h : ∀ b : Buffer, k ≤ b.size → f b = .ok (n, b.stored 0 bytes, t'))
    (hf : ∀ b : Buffer, k ≤ b.size → f b = .ok (m, b.stored 0 bs, s)) : n = m ∧ bytes = bs ∧ t' = s := by
  have heq (b : Buffer) (hb : k ≤ b.size) := Except.ok.inj ((h b hb).symm.trans (hf b hb))
  have hzero := heq (.zero k) (Nat.le_refl k)
  simp only [Prod.mk.injEq] at hzero
  refine ⟨hzero.1, ?_, hzero.2.2⟩
  apply Buffer.stored_inj
  intro b hb
  have hall := heq b hb
  simp only [Prod.mk.injEq] at hall
  exact hall.2.1

theorem toInt_of_le {k : Nat} (h : k ≤ TTY_IN_BUFSIZE) : (BitVec.ofNat 32 k).toInt = k := by
  have hk : k < 2 ^ 31 := Nat.lt_of_le_of_lt h (by decide)
  rw [BitVec.toInt_eq_toNat_cond, BitVec.toNat_ofNat, Nat.mod_eq_of_lt (by omega), if_pos (by omega)]

theorem toInt_count (h : count.toNat ≤ TTY_IN_BUFSIZE) : count.toInt = count.toNat := by
  have := toInt_of_le h
  rwa [BitVec.ofNat_toNat, BitVec.setWidth_eq] at this

/-- A read of part of the input buffer stores its beginning. -/
theorem ttyInputRead_part (hin : t.input ≠ none) (hle : count.toNat ≤ t.inputidx)
    (hsize : count.toNat ≤ t.inputbuf.size) (b : Buffer) (hb : count.toNat ≤ b.size) :
    ttyInputRead t b count reply = .ok (count.toInt, b.stored 0 (t.inputbuf.bytes 0 count.toNat),
      { t with inputidx := t.inputidx - count.toNat }) := by
  obtain ⟨dev, hdev⟩ := Option.ne_none_iff_exists'.mp hin
  simp only [ttyInputRead, hdev, if_neg (Nat.not_lt.mpr hle)]
  rw [Buffer.memcpy_stored hsize hb]
  rfl

/-- A read of more than the input buffer holds stores the buffer, and over it what the device has. -/
theorem ttyInputRead_more {dev : Device} (hdev : t.input = some dev) (hread : dev.read = true)
    (hlt : t.inputidx < count.toNat) (hsize : t.inputidx ≤ t.inputbuf.size)
    (hreply : reply.length ≤ count.toNat) (b : Buffer) (hb : count.toNat ≤ b.size) :
    ttyInputRead t b count reply =
      .ok (count.toInt, b.stored 0 (reply ++ t.pendingInput.drop reply.length),
        { t with inputidx := 0 }) := by
  have hroom : 0 + reply.length ≤ (b.stored 0 (t.inputbuf.bytes 0 t.inputidx)).size := by
    rw [Buffer.stored_size]
    omega
  simp only [ttyInputRead, hdev, if_pos hlt, hread, if_true]
  rw [Buffer.memcpy_stored hsize (by omega), ok_bind, Buffer.fill_stored hroom, Buffer.stored_stored]
  rfl

/-- What a read of the input buffer moves. -/
theorem ttyInputRead_cases (hreply : reply.length ≤ count.toNat)
    (hcall : ∀ buf : Buffer, count.toNat ≤ buf.size →
      ttyInputRead t buf count reply = .ok (n, buf.stored 0 bytes, t')) :
    (t.input = none ∧ n = -ESRCH ∧ bytes = [] ∧ t' = t) ∨
    (t.input ≠ none ∧ n = count.toInt ∧ t.inputidx < count.toNat ∧
      bytes = reply ++ t.pendingInput.drop reply.length ∧ t' = { t with inputidx := 0 }) ∨
    (t.input ≠ none ∧ n = count.toInt ∧ count.toNat ≤ t.inputidx ∧
      bytes = t.inputbuf.bytes 0 count.toNat ∧
      t' = { t with inputidx := t.inputidx - count.toNat }) := by
  have hzero := hcall (.zero count.toNat) (Nat.le_refl _)
  by_cases hin : t.input = none
  · left
    have hread (b : Buffer) (_ : count.toNat ≤ b.size) :
        ttyInputRead t b count reply = .ok (-ESRCH, b.stored 0 [], t) := by
      simp only [ttyInputRead, hin]
      rfl
    obtain ⟨hn, hbytes, ht⟩ := stores_unique hcall hread
    exact ⟨hin, hn, hbytes, ht⟩
  · right
    obtain ⟨dev, hdev⟩ := Option.ne_none_iff_exists'.mp hin
    simp only [ttyInputRead, hdev] at hzero
    by_cases hlt : t.inputidx < count.toNat
    · left
      rw [if_pos hlt] at hzero
      obtain ⟨b, hcopy, hrest⟩ := bind_eq_ok.mp hzero
      cases hread : dev.read with
      | false => simp [hread] at hrest
      | true =>
        obtain ⟨hn, hbytes, ht⟩ := stores_unique hcall
          (ttyInputRead_more hdev hread hlt (Buffer.memcpy_le hcopy).1 hreply)
        exact ⟨hin, hn, hlt, hbytes, ht⟩
    · right
      rw [if_neg hlt] at hzero
      obtain ⟨b, hcopy, -⟩ := bind_eq_ok.mp hzero
      have hle := Nat.not_lt.mp hlt
      obtain ⟨hn, hbytes, ht⟩ := stores_unique hcall
        (ttyInputRead_part hin hle (Buffer.memcpy_le hcopy).1)
      exact ⟨hin, hn, hle, hbytes, ht⟩

/-- What a read of the output buffer moves. -/
theorem ttyOutputRead_cases
    (hcall : ∀ buf : Buffer, count.toNat ≤ buf.size →
      ttyOutputRead t buf count = .ok (n, buf.stored 0 bytes, t')) :
    (t.output = none ∧ n = -ESRCH ∧ bytes = [] ∧ t' = t) ∨
    (t.output ≠ none ∧ n = t.outputidx ∧ t.outputidx < count.toNat ∧ bytes = t.pendingOutput ∧
      t' = { t with outputidx := 0 }) ∨
    (t.output ≠ none ∧ n = count.toInt ∧ count.toNat ≤ t.outputidx ∧
      bytes = t.outputbuf.bytes 0 count.toNat ∧
      t' = { t with outputidx := t.outputidx - count.toNat }) := by
  have hzero := hcall (.zero count.toNat) (Nat.le_refl _)
  by_cases hout : t.output = none
  · left
    have hread (b : Buffer) (_ : count.toNat ≤ b.size) :
        ttyOutputRead t b count = .ok (-ESRCH, b.stored 0 [], t) := by
      simp only [ttyOutputRead, hout]
      rfl
    obtain ⟨hn, hbytes, ht⟩ := stores_unique hcall hread
    exact ⟨hout, hn, hbytes, ht⟩
  · right
    obtain ⟨dev, hdev⟩ := Option.ne_none_iff_exists'.mp hout
    simp only [ttyOutputRead, hdev] at hzero
    by_cases hlt : t.outputidx < count.toNat
    · left
      rw [if_pos hlt] at hzero
      obtain ⟨b, hcopy, -⟩ := bind_eq_ok.mp hzero
      have hstores (b : Buffer) (hb : count.toNat ≤ b.size) : ttyOutputRead t b count =
          .ok (t.outputidx, b.stored 0 t.pendingOutput, { t with outputidx := 0 }) := by
        simp only [ttyOutputRead, hdev, if_pos hlt]
        rw [Buffer.memcpy_stored (Buffer.memcpy_le hcopy).1 (by omega)]
        rfl
      obtain ⟨hn, hbytes, ht⟩ := stores_unique hcall hstores
      exact ⟨hout, hn, hlt, hbytes, ht⟩
    · right
      rw [if_neg hlt] at hzero
      obtain ⟨b, hcopy, -⟩ := bind_eq_ok.mp hzero
      have hstores (b : Buffer) (hb : count.toNat ≤ b.size) : ttyOutputRead t b count =
          .ok (count.toInt, b.stored 0 (t.outputbuf.bytes 0 count.toNat),
            { t with outputidx := t.outputidx - count.toNat }) := by
        simp only [ttyOutputRead, hdev, if_neg hlt]
        rw [Buffer.memcpy_stored (Buffer.memcpy_le hcopy).1 hb]
        rfl
      obtain ⟨hn, hbytes, ht⟩ := stores_unique hcall hstores
      exact ⟨hout, hn, Nat.not_lt.mp hlt, hbytes, ht⟩

/-- A write to the input buffer puts its bytes behind the others. -/
theorem ttyInputWrite_ok (hfit : t.inputidx + bytes.length ≤ TTY_IN_BUFSIZE)
    (hcall : ttyInputWrite t bytes = .ok (n, t')) :
    t.pendingInput ++ (if 0 ≤ n then bytes else []) = t'.pendingInput ∧
      t'.pendingOutput = t.pendingOutput := by
  by_cases hin : t.input = none
  · simp only [ttyInputWrite, hin] at hcall
    cases hcall
    simp [ESRCH]
  · obtain ⟨dev, hdev⟩ := Option.ne_none_iff_exists'.mp hin
    simp only [ttyInputWrite, hdev] at hcall
    obtain ⟨b, hfill, hret⟩ := bind_eq_ok.mp hcall
    rw [Buffer.fill_stored (Buffer.lt_of_fill hfill)] at hfill
    cases hfill
    cases hret
    have hn := toInt_of_le (Nat.le_trans (Nat.le_add_left _ _) hfit)
    rw [hn, if_pos (Int.natCast_nonneg _)]
    exact ⟨(Buffer.bytes_stored_append ..).symm, rfl⟩

/-- A write to the output buffer moves the bytes in order, or does nothing for want of a device. -/
theorem ttyOutputWrite_moves (hfit : bytes.length ≤ TTY_OUT_BUFSIZE)
    (hcall : ttyOutputWrite t bytes = .ok (n, t')) (hgone : t'.sent = t.sent ++ gone) :
    t.pendingOutput ++ (if 0 ≤ n then bytes else []) = gone ++ t'.pendingOutput ∧
      t'.pendingInput = t.pendingInput := by
  by_cases hout : t.output = none
  · simp only [ttyOutputWrite, hout] at hcall
    cases hcall
    rw [List.self_eq_append_right] at hgone
    simp [ESRCH, hgone]
  · obtain ⟨hw, hn, -⟩ := ttyOutputWrite_ok hout hcall
    have hstream := hw.stream
    rw [hgone, List.append_assoc, List.append_assoc] at hstream
    rw [hn, toInt_of_le hfit, if_pos (Int.natCast_nonneg _), Tty.pendingInput, hw.input.2.1, hw.input.2.2]
    exact ⟨(List.append_cancel_left hstream).symm, rfl⟩

theorem inputRead_iff (hfit : count.toNat ≤ TTY_IN_BUFSIZE) (hreply : reply.length ≤ count.toNat)
    (hasked : reply ≠ [] → t.input ≠ none ∧ t.inputidx < count.toNat)
    (hcall : ∀ buf : Buffer, count.toNat ≤ buf.size →
      ttyInputRead t buf count reply = .ok (n, buf.stored 0 bytes, t')) :
    (t.pendingInput ++ reply = bytes ++ t'.pendingInput ∧
      (n = bytes.length ∨ n < 0 ∧ bytes = [])) ↔ Meets t (.inputRead count reply n bytes) := by
  have hlen : t.pendingInput.length = t.inputidx := Buffer.length_bytes ..
  rcases ttyInputRead_cases hreply hcall with ⟨hin, rfl, rfl, rfl⟩ | ⟨hin, rfl, hlt, rfl, rfl⟩ |
    ⟨hin, rfl, hle, rfl, rfl⟩
  · have hnone : reply = [] := by
      by_contra hne
      exact (hasked hne).1 hin
    simp [Meets, hin, hnone, ESRCH]
  · -- more is asked for than the buffer holds
    have hempty : Tty.pendingInput { t with inputidx := 0 } = [] := rfl
    rw [hempty, List.append_nil, toInt_count hfit]
    simp only [Meets, if_pos hlt]
    constructor
    · rintro ⟨horder, hcount⟩ -
      have hlengths := congrArg List.length horder
      simp only [List.length_append, List.length_drop] at hlengths hcount
      omega
    · intro hmeets
      obtain ⟨hidx, hreply⟩ := hmeets hin
      have hnil : t.pendingInput = [] := List.eq_nil_of_length_eq_zero (hlen.trans hidx)
      simp [hnil, hreply]
  · have hnone : reply = [] := by
      by_contra hne
      exact absurd (hasked hne).2 (Nat.not_lt.mpr hle)
    have hrest : Tty.pendingInput { t with inputidx := t.inputidx - count.toNat } =
        t.inputbuf.bytes 0 (t.inputidx - count.toNat) := rfl
    rw [hrest, hnone, List.append_nil, toInt_count hfit]
    simp only [Meets, if_neg (Nat.not_lt.mpr hle), Buffer.length_bytes, true_or, and_true]
    rw [Tty.pendingInput, leaves_iff _ hle]
    exact ⟨fun h _ => h, fun h => h hin⟩

theorem outputRead_iff (hfit : count.toNat ≤ TTY_OUT_BUFSIZE)
    (hcall : ∀ buf : Buffer, count.toNat ≤ buf.size →
      ttyOutputRead t buf count = .ok (n, buf.stored 0 bytes, t')) :
    (t.pendingOutput = bytes ++ t'.pendingOutput ∧ (n = bytes.length ∨ n < 0 ∧ bytes = [])) ↔
      Meets t (.outputRead count n bytes) := by
  have hlen : t.pendingOutput.length = t.outputidx := Buffer.length_bytes ..
  rcases ttyOutputRead_cases hcall with ⟨hout, rfl, rfl, rfl⟩ | ⟨hout, rfl, hlt, rfl, rfl⟩ |
    ⟨hout, rfl, hle, rfl, rfl⟩
  · simp [Meets, hout, ESRCH]
  · have hempty : Tty.pendingOutput { t with outputidx := 0 } = [] := rfl
    simp [Meets, hempty, hlen, Nat.not_le.mpr hlt]
  · have hrest : Tty.pendingOutput { t with outputidx := t.outputidx - count.toNat } =
        t.outputbuf.bytes 0 (t.outputidx - count.toNat) := rfl
    rw [hrest, toInt_count hfit]
    simp only [Meets, Buffer.length_bytes, true_or, and_true]
    rw [Tty.pendingOutput, leaves_iff _ hle]
    exact ⟨fun h _ _ => h, fun h => h hout hle⟩

/-- A call keeps both queues, and answers how much it stored, exactly when it meets the condition. -/
theorem Called.keeps_iff {c : Call} (h : Called t c t') :
    (inputFifo.Keeps t c t' ∧ outputFifo.Keeps t c t' ∧ c.Counted) ↔ Meets t c := by
  cases h with
  | inputWrite hfit hcall =>
    obtain ⟨hput, hrest⟩ := ttyInputWrite_ok hfit hcall
    simp [Fifo.Keeps, inputFifo, outputFifo, Call.Counted, Meets, hput, hrest]
  | inputRead hfit hreply hasked hcall =>
    have hrest : t'.pendingOutput = t.pendingOutput := by
      rcases ttyInputRead_cases hreply hcall with ⟨-, -, -, rfl⟩ | ⟨-, -, -, -, rfl⟩ | ⟨-, -, -, -, rfl⟩
      all_goals rfl
    have hiff := inputRead_iff hfit hreply hasked hcall
    rw [← hiff]
    simp [Fifo.Keeps, inputFifo, outputFifo, Call.Counted, hrest]
  | outputWrite hfit hcall hgone =>
    obtain ⟨hput, hrest⟩ := ttyOutputWrite_moves hfit hcall hgone
    simp [Fifo.Keeps, inputFifo, outputFifo, Call.Counted, Meets, hput, hrest]
  | outputRead hfit hcall =>
    have hrest : t'.pendingInput = t.pendingInput := by
      rcases ttyOutputRead_cases hcall with ⟨-, -, -, rfl⟩ | ⟨-, -, -, -, rfl⟩ | ⟨-, -, -, -, rfl⟩
      all_goals rfl
    have hiff := outputRead_iff hfit hcall
    rw [← hiff]
    simp [Fifo.Keeps, inputFifo, outputFifo, Call.Counted, hrest]

end Steps

/-- The buffers are queues at every point of a sequence of calls exactly when every call meets the
condition. -/
theorem queued_iff (t : Tty) (calls : List Call) :
    Queued t calls ↔ EachStep Called t calls fun t c _ => Meets t c := by
  apply atEveryPoint_iff
  · exact ⟨.nil t, .nil t, by simp⟩
  · rintro pre c t₁ t₂ ⟨hin, hout, hcounted⟩ hcall
    rw [← hcall.keeps_iff, hin.snoc_iff, hout.snoc_iff]
    simp only [List.mem_append, List.mem_singleton]
    constructor
    · rintro ⟨h1, h2, h3⟩
      exact ⟨h1, h2, h3 c (.inr rfl)⟩
    · rintro ⟨h1, h2, h3⟩
      refine ⟨h1, h2, ?_⟩
      rintro c' (hmem | rfl)
      · exact hcounted c' hmem
      · exact h3

/-- A tty that takes its input from a keyboard. -/
def keyboardTty : Tty := { consoleTty true with input := some ⟨true, false, []⟩ }

/-- After a write of `ab`, each of two reads of one byte stores `a`. -/
theorem input_read_again :
    ∃ calls t', Run Called keyboardTty calls t' ∧
      calls = [.inputWrite [0x61, 0x62] 2, .inputRead 1 [] 1 [0x61], .inputRead 1 [] 1 [0x61]] ∧
      ¬Queued keyboardTty calls := by
  let filled (k : Nat) : Tty := { keyboardTty with
    inputbuf := (Buffer.zero TTY_IN_BUFSIZE).stored 0 [0x61, 0x62]
    inputidx := k }
  have hwrite : Called keyboardTty (.inputWrite [0x61, 0x62] 2) (filled 2) := .inputWrite (by decide) rfl
  have hread (k : Nat) : Called (filled (k + 1)) (.inputRead 1 [] 1 [0x61]) (filled k) := by
    apply Called.inputRead (by decide) (by decide) (by simp)
    intro buf hbuf
    have hin : (filled (k + 1)).input ≠ none := by simp [filled, keyboardTty]
    have hle : (1 : BitVec 32).toNat ≤ (filled (k + 1)).inputidx := Nat.le_add_left 1 k
    have hsize : (1 : BitVec 32).toNat ≤ TTY_IN_BUFSIZE := by decide
    exact ttyInputRead_part hin hle hsize buf hbuf
  have hrun := Run.cons hwrite (.cons (hread 1) (.single (hread 0)))
  refine ⟨_, _, hrun, rfl, ?_⟩
  intro hqueued
  have horder := (hqueued _ [] _ (by simp) hrun).1
  cases horder

end Levos.Drivers
