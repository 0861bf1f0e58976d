import Levos.Drivers.TtyQueue
import Mathlib.Tactic.ByContra

namespace Levos.Drivers

open Levos.Framework

/-- Both buffers have their sizes, and the indices are inside them. -/
structure Tty.Bounded (t : Tty) : Prop where
  inputSize : t.inputbuf.size = TTY_IN_BUFSIZE
  outputSize : t.outputbuf.size = TTY_OUT_BUFSIZE
  inputFits : t.inputidx ≤ TTY_IN_BUFSIZE
  outputFits : t.outputidx ≤ TTY_OUT_BUFSIZE

/-- From index `idx` on each byte has a place in the output buffer. A newline empties the buffer first,
if the device can be written to; if not, nothing is stored from there on. -/
def RoomFor (canFlush : Bool) : Nat → List (BitVec 8) → Prop
  | _, [] => True
  | idx, c :: cs =>
    if c = 0x0A then canFlush = true → RoomFor canFlush 1 cs
    else idx < TTY_OUT_BUFSIZE ∧ RoomFor canFlush (idx + 1) cs

/-- The bytes of a write have room in the output buffer, which is emptied first where index and count,
in 32 bits, come to more than its size. -/
def OutputRoom (t : Tty) (bytes : List (BitVec 8)) : Prop :=
  ∀ dev, t.output = some dev →
    if TTY_OUT_BUFSIZE < (t.outputidx + bytes.length) % 2 ^ 32 then dev.write = true → RoomFor true 0 bytes
    else RoomFor dev.write t.outputidx bytes

/-- The calls on a tty. Counts have 32 bits, a reader's buffer has room for what it asks for, and the
input device stores no more than it is asked for. -/
inductive TtyCall
  | inputWrite (bytes : List (BitVec 8)) (hcount : bytes.length < 2 ^ 32)
  | outputWrite (bytes : List (BitVec 8)) (hcount : bytes.length < 2 ^ 32)
  | inputRead (buf : Buffer) (count : BitVec 32) (reply : List (BitVec 8)) (hbuf : count.toNat ≤ buf.size)
      (hreply : reply.length ≤ count.toNat)
  | outputRead (buf : Buffer) (count : BitVec 32) (hbuf : count.toNat ≤ buf.size)

namespace TtyCall

def run (t : Tty) : TtyCall → Except Fault (Int × Tty)
  | inputWrite bytes _ => ttyInputWrite t bytes
  | outputWrite bytes _ => ttyOutputWrite t bytes
  | inputRead buf count reply _ _ => do
    let r ← ttyInputRead t buf count reply
    return (r.1, r.2.2)
  | outputRead buf count _ => do
    let r ← ttyOutputRead t buf count
    return (r.1, r.2.2)

/-- A write that does not fit stores and reports only what fits. -/
def OnlyFits (t : Tty) (n : Int) (t' : Tty) : TtyCall → Prop
  | inputWrite bytes _ =>
    t.input ≠ none → TTY_IN_BUFSIZE < t.inputidx + bytes.length →
      n = (TTY_IN_BUFSIZE - t.inputidx : Nat) ∧
        t'.pendingInput = t.pendingInput ++ bytes.take (TTY_IN_BUFSIZE - t.inputidx)
  | outputWrite bytes _ =>
    ¬OutputRoom t bytes → ∃ k < bytes.length, n = (k : Int) ∧
      t'.sent ++ t'.pendingOutput = t.sent ++ t.pendingOutput ++ bytes.take k
  | _ => True

/-- No byte is stored outside a buffer, and the indices stay inside. -/
def Right (t : Tty) (c : TtyCall) : Prop :=
  Outcome (fun r => r.2.Bounded ∧ c.OnlyFits t r.1 r.2) (fun e => e ≠ .outOfBounds) (c.run t)

/-- A write finds room for its bytes. -/
def Meets (t : Tty) : TtyCall → Prop
  | inputWrite bytes _ => t.input ≠ none → t.inputidx + bytes.length ≤ TTY_IN_BUFSIZE
  | outputWrite bytes _ => OutputRoom t bytes
  | _ => True

def Steps (t : Tty) (c : TtyCall) (t' : Tty) : Prop := ∃ n, c.run t = .ok (n, t')

end TtyCall

section Output

variable {t t' : Tty} {dev : Device} {bytes : List (BitVec 8)}

theorem flush_eq (hdev : t.output = some dev) :
    ttyFlushOutput t = if dev.write then
      .ok { t with output := some { dev with taken := dev.taken ++ t.pendingOutput }, outputidx := 0 }
      else .error .nullPointer := by
  simp only [ttyFlushOutput, hdev]

/-- A flush keeps the indices inside the buffers. -/
theorem flush_right (h : t.Bounded) :
    Outcome (fun t' => t'.Bounded) (fun e => e ≠ .outOfBounds) (ttyFlushOutput t) := by
  have hnull : Fault.nullPointer ≠ .outOfBounds := by decide
  cases hdev : t.output with
  | none =>
    simp only [ttyFlushOutput, hdev]
    exact hnull
  | some dev =>
    rw [flush_eq hdev]
    split
    · exact ⟨h.inputSize, h.outputSize, h.inputFits, Nat.zero_le _⟩
    · exact hnull

/-- A newline is stored at the beginning of the buffer that was emptied for it. -/
theorem emit_newline (hdev : t.output = some dev) (hwrite : dev.write = true)
    (hsize : t.outputbuf.size = TTY_OUT_BUFSIZE) :
    emit (0x0A :: bytes) t = emit bytes { t with
      output := some { dev with taken := dev.taken ++ t.pendingOutput }
      outputbuf := t.outputbuf.stored 0 [0x0A]
      outputidx := 1 } := by
  have hpos : 0 < t.outputbuf.size := by
    rw [hsize]
    decide
  rw [emit, if_pos rfl, flush_eq hdev, if_pos hwrite, ok_bind, Buffer.fill_byte 0x0A hpos, ok_bind]

/-- Another byte is stored behind those in the buffer. -/
theorem emit_other {c : BitVec 8} (hc : c ≠ 0x0A) (hlt : t.outputidx < t.outputbuf.size) :
    emit (c :: bytes) t = emit bytes { t with
      outputbuf := t.outputbuf.stored t.outputidx [c]
      outputidx := t.outputidx + 1 } := by
  rw [emit, if_neg hc, ok_bind, Buffer.fill_byte c hlt, ok_bind]

/-- Bytes that have room are stored inside the buffer. -/
theorem emit_room (h : t.Bounded) (hdev : t.output = some dev)
    (hroom : RoomFor dev.write t.outputidx bytes) :
    Outcome (fun t' => t'.Bounded) (fun e => e ≠ .outOfBounds) (emit bytes t) := by
  have hsize := h.outputSize
  induction bytes generalizing t dev with
  | nil => exact h
  | cons c cs ih =>
    rw [RoomFor] at hroom
    by_cases hc : c = 0x0A
    · rw [if_pos hc] at hroom
      rw [hc]
      by_cases hwrite : dev.write = true
      · have hone : 1 ≤ TTY_OUT_BUFSIZE := by decide
        rw [emit_newline hdev hwrite hsize]
        exact ih ⟨h.inputSize, hsize, h.inputFits, hone⟩ rfl (hroom hwrite) hsize
      · rw [emit, if_pos rfl, flush_eq hdev, if_neg hwrite]
        intro he
        cases he
    · rw [if_neg hc] at hroom
      rw [emit_other hc (by omega)]
      exact ih ⟨h.inputSize, hsize, h.inputFits, hroom.1⟩ hdev hroom.2 hsize

/-- Without room the byte that has none is stored behind the buffer. -/
theorem emit_full (hdev : t.output = some dev) (hsize : t.outputbuf.size = TTY_OUT_BUFSIZE)
    (hroom : ¬RoomFor dev.write t.outputidx bytes) : emit bytes t = .error .outOfBounds := by
  induction bytes generalizing t dev with
  | nil => exact absurd trivial hroom
  | cons c cs ih =>
    rw [RoomFor] at hroom
    by_cases hc : c = 0x0A
    · rw [if_pos hc] at hroom
      obtain ⟨hwrite, hrest⟩ := Classical.not_imp.mp hroom
      rw [hc, emit_newline hdev hwrite hsize]
      exact ih rfl hsize hrest
    · rw [if_neg hc] at hroom
      by_cases hlt : t.outputidx < TTY_OUT_BUFSIZE
      · rw [emit_other hc (by omega)]
        exact ih hdev hsize fun hrest => hroom ⟨hlt, hrest⟩
      · rw [emit, if_neg hc, ok_bind, Buffer.fill_error (by omega)]
        rfl

/-- Bytes that fit behind those in the buffer have room, wherever the newlines are. -/
theorem roomFor_of_le {canFlush : Bool} {idx : Nat} (h : idx + bytes.length ≤ TTY_OUT_BUFSIZE) :
    RoomFor canFlush idx bytes := by
  induction bytes generalizing idx with
  | nil => trivial
  | cons c cs ih =>
    rw [List.length_cons] at h
    rw [RoomFor]
    split
    · intro _
      exact ih (by omega)
    · exact ⟨by omega, ih (by omega)⟩

/-- Bytes that have room without a newline among them fit behind those in the buffer. -/
theorem RoomFor.length_le {canFlush : Bool} {idx : Nat} (h : RoomFor canFlush idx bytes)
    (hidx : idx ≤ TTY_OUT_BUFSIZE) (hline : 0x0A ∉ bytes) : idx + bytes.length ≤ TTY_OUT_BUFSIZE := by
  induction bytes generalizing idx with
  | nil => exact hidx
  | cons c cs ih =>
    rw [List.mem_cons, not_or] at hline
    rw [RoomFor, if_neg (Ne.symm hline.1)] at h
    have hrest := ih h.2 h.1 hline.2
    rw [List.length_cons]
    omega

/-- A write of no more than the buffer holds has room at any level. -/
theorem outputRoom_of_le (h : t.Bounded) (hlen : bytes.length ≤ TTY_OUT_BUFSIZE) : OutputRoom t bytes := by
  intro dev hdev
  have hidx := h.outputFits
  split
  · intro _
    exact roomFor_of_le (by omega)
  · apply roomFor_of_le
    have hmod : (t.outputidx + bytes.length) % 2 ^ 32 = t.outputidx + bytes.length := by
      apply Nat.mod_eq_of_lt
      rw [TTY_OUT_BUFSIZE] at hidx hlen
      omega
    omega

/-- A write that has room stores nothing outside the buffer. -/
theorem outputWrite_right (h : t.Bounded) (hroom : OutputRoom t bytes) :
    Outcome (fun r => r.2.Bounded) (fun e => e ≠ .outOfBounds) (ttyOutputWrite t bytes) := by
  cases hdev : t.output with
  | none =>
    simp only [ttyOutputWrite, hdev]
    exact h
  | some dev =>
    have hfirst : Outcome (fun t' => t'.Bounded ∧ ∃ dev, t'.output = some dev ∧
          RoomFor dev.write t'.outputidx bytes) (fun e => e ≠ .outOfBounds)
        (if TTY_OUT_BUFSIZE < (t.outputidx + bytes.length) % 2 ^ 32 then ttyFlushOutput t else .ok t) := by
      have hplace := hroom dev hdev
      split
      · next hover =>
        rw [if_pos hover] at hplace
        rw [flush_eq hdev]
        split
        · next hwrite =>
          refine ⟨⟨h.inputSize, h.outputSize, h.inputFits, Nat.zero_le _⟩, _, rfl, ?_⟩
          rw [hwrite]
          exact hplace hwrite
        · intro he
          cases he
      · next hover =>
        rw [if_neg hover] at hplace
        exact ⟨h, dev, hdev, hplace⟩
    simp only [ttyOutputWrite, hdev]
    apply hfirst.bind
    intro t₁ h1
    obtain ⟨hbounded, dev₁, hdev₁, hroom₁⟩ := h1
    apply (emit_room hbounded hdev₁ hroom₁).bind
    intro t₂ h2
    have hlast : Outcome (fun t' => t'.Bounded) (fun e => e ≠ .outOfBounds)
        (if t₂.buffered = false then ttyFlushOutput t₂ else .ok t₂) := by
      split
      · exact flush_right h2
      · exact h2
    apply hlast.bind
    intro t₃ h3
    exact h3

/-- A write without room stores a byte behind the buffer. -/
theorem outputWrite_full (h : t.Bounded) (hroom : ¬OutputRoom t bytes) :
    ttyOutputWrite t bytes = .error .outOfBounds := by
  rw [OutputRoom] at hroom
  obtain ⟨dev, hrest⟩ := Classical.not_forall.mp hroom
  obtain ⟨hdev, hplace⟩ := Classical.not_imp.mp hrest
  have hsize := h.outputSize
  simp only [ttyOutputWrite, hdev]
  by_cases hover : TTY_OUT_BUFSIZE < (t.outputidx + bytes.length) % 2 ^ 32
  · rw [if_pos hover] at hplace ⊢
    obtain ⟨hwrite, hfull⟩ := Classical.not_imp.mp hplace
    have hnone : ¬RoomFor dev.write 0 bytes := by rwa [hwrite]
    have hemit : emit bytes { t with
        output := some { dev with taken := dev.taken ++ t.pendingOutput }
        outputidx := 0 } = .error .outOfBounds := emit_full rfl hsize hnone
    rw [flush_eq hdev, if_pos hwrite, ok_bind, hemit]
    rfl
  · rw [if_neg hover] at hplace ⊢
    rw [ok_bind, emit_full hdev hsize hplace]
    rfl

end Output

section Input

variable {t : Tty} {bytes reply : List (BitVec 8)} {buf : Buffer} {count : BitVec 32}

/-- A write to the input that has room stores nothing outside the buffer. -/
theorem inputWrite_right (h : t.Bounded)
    (hroom : t.input ≠ none → t.inputidx + bytes.length ≤ TTY_IN_BUFSIZE) :
    Outcome (fun r => r.2.Bounded) (fun e => e ≠ .outOfBounds) (ttyInputWrite t bytes) := by
  cases hdev : t.input with
  | none =>
    simp only [ttyInputWrite, hdev]
    exact h
  | some dev =>
    have hfits := hroom (by simp [hdev])
    have hsize : t.inputidx + bytes.length ≤ t.inputbuf.size := by rwa [h.inputSize]
    simp only [ttyInputWrite, hdev]
    rw [Buffer.fill_stored hsize, ok_bind]
    exact ⟨h.inputSize, h.outputSize, hfits, h.outputFits⟩

/-- A write to the input without room is made all the same. -/
theorem inputWrite_full (h : t.Bounded) (hin : t.input ≠ none)
    (hover : TTY_IN_BUFSIZE < t.inputidx + bytes.length) :
    ttyInputWrite t bytes = .error .outOfBounds := by
  obtain ⟨dev, hdev⟩ := Option.ne_none_iff_exists'.mp hin
  have hsize : ¬t.inputidx + bytes.length ≤ t.inputbuf.size := by
    rw [h.inputSize]
    omega
  simp only [ttyInputWrite, hdev]
  rw [Buffer.fill_error hsize]
  rfl

/-- A read of the input takes bytes from the buffer, or all of them. -/
theorem inputRead_right (h : t.Bounded) (hbuf : count.toNat ≤ buf.size)
    (hreply : reply.length ≤ count.toNat) :
    Outcome (fun r => r.2.2.Bounded) (fun e => e ≠ .outOfBounds) (ttyInputRead t buf count reply) := by
  obtain ⟨hin, hout, hinFits, houtFits⟩ := h
  cases hdev : t.input with
  | none =>
    simp only [ttyInputRead, hdev]
    exact ⟨hin, hout, hinFits, houtFits⟩
  | some dev =>
    simp only [ttyInputRead, hdev]
    split
    · next hlt =>
      rw [Buffer.memcpy_stored (by omega) (by omega), ok_bind]
      split
      · have hroom : 0 + reply.length ≤ (buf.stored 0 (t.inputbuf.bytes 0 t.inputidx)).size := by
          rw [Buffer.stored_size]
          omega
        rw [Buffer.fill_stored hroom, ok_bind]
        exact ⟨hin, hout, Nat.zero_le _, houtFits⟩
      · intro he
        cases he
    · next hle =>
      rw [Buffer.memcpy_stored (by omega) hbuf, ok_bind]
      exact ⟨hin, hout, Nat.le_trans (Nat.sub_le _ _) hinFits, houtFits⟩

/-- A read of the output takes bytes from the buffer, or all of them. -/
theorem outputRead_right (h : t.Bounded) (hbuf : count.toNat ≤ buf.size) :
    Outcome (fun r => r.2.2.Bounded) (fun e => e ≠ .outOfBounds) (ttyOutputRead t buf count) := by
  obtain ⟨hin, hout, hinFits, houtFits⟩ := h
  cases hdev : t.output with
  | none =>
    simp only [ttyOutputRead, hdev]
    exact ⟨hin, hout, hinFits, houtFits⟩
  | some dev =>
    simp only [ttyOutputRead, hdev]
    split
    · next hlt =>
      rw [Buffer.memcpy_stored (by omega) (by omega), ok_bind]
      exact ⟨hin, hout, hinFits, Nat.zero_le _⟩
    · next hle =>
      rw [Buffer.memcpy_stored (by omega) hbuf, ok_bind]
      exact ⟨hin, hout, hinFits, Nat.le_trans (Nat.sub_le _ _) houtFits⟩

end Input

section Runs

variable {t t' : Tty} {c : TtyCall}

/-- One call keeps to the buffers exactly when it finds room in them. -/
theorem TtyCall.right_iff (h : t.Bounded) : c.Right t ↔ c.Meets t := by
  cases c with
  | inputWrite bytes hcount =>
    constructor
    · intro hright hin
      by_contra hover
      rw [Right, run, inputWrite_full h hin (Nat.not_le.mp hover)] at hright
      exact hright rfl
    · intro hmeets
      apply (inputWrite_right h hmeets).imp
      intro r hr
      refine ⟨hr, ?_⟩
      intro hin hover
      exact absurd (hmeets hin) (Nat.not_le.mpr hover)
  | outputWrite bytes hcount =>
    constructor
    · intro hright
      by_contra hover
      rw [Right, run, outputWrite_full h hover] at hright
      exact hright rfl
    · intro hmeets
      apply (outputWrite_right h hmeets).imp
      intro r hr
      refine ⟨hr, ?_⟩
      intro hover
      exact absurd hmeets hover
  | inputRead buf count reply hbuf hreply =>
    apply iff_of_true
    · apply (inputRead_right h hbuf hreply).bind
      intro r hr
      exact ⟨hr, trivial⟩
    · trivial
  | outputRead buf count hbuf =>
    apply iff_of_true
    · apply (outputRead_right h hbuf).bind
      intro r hr
      exact ⟨hr, trivial⟩
    · trivial

/-- A call that was right leaves the indices inside the buffers. -/
theorem TtyCall.Right.bounded (h : c.Right t) (hst : c.Steps t t') : t'.Bounded := by
  obtain ⟨n, hrun⟩ := hst
  rw [Right, hrun] at h
  exact h.1

/-- A run that begins with a store outside a buffer is not right. -/
theorem TtyCall.not_right (hrun : c.run t = .error .outOfBounds) :
    ¬EachLabel TtyCall.Steps t [c] fun t c => c.Right t := by
  intro hright
  have hfirst : c.Right t := hright [] c [] t rfl (.nil t)
  rw [Right, hrun] at hfirst
  exact hfirst rfl

end Runs

/-- Whatever calls are made on a tty, each stores its bytes inside the buffers and only those that fit,
and the indices stay inside, exactly as long as each write finds room: on the input behind what stands
there, and on the output for each byte up to the next newline. -/
theorem tty_bounds_iff {t : Tty} (h : t.Bounded) (calls : List TtyCall) :
    EachLabel TtyCall.Steps t calls (fun t c => c.Right t) ∧
        AtEveryPoint TtyCall.Steps t calls (fun _ t' => t'.Bounded) ↔
      EachLabel TtyCall.Steps t calls fun t c => c.Meets t := by
  have hkeeps (t : Tty) (c : TtyCall) (t' : Tty) (_ : c ∈ calls) (_ : t.Bounded) (hright : c.Right t)
      (hst : c.Steps t t') : t'.Bounded := hright.bounded hst
  have hiff : EachLabel TtyCall.Steps t calls (fun t c => c.Right t) ↔
      EachLabel TtyCall.Steps t calls (fun t c => c.Meets t) :=
    eachLabel_iff h (fun _ _ _ hbounded => TtyCall.right_iff hbounded) hkeeps
  constructor
  · intro hall
    exact hiff.mp hall.1
  · intro hmeets
    have hright := hiff.mpr hmeets
    exact ⟨hright, hright.atEveryPoint h hkeeps⟩

theorem keyboardTty_bounded : keyboardTty.Bounded := ⟨rfl, rfl, Nat.zero_le _, Nat.zero_le _⟩

/-- A byte for the input, a read of it, and a line for the output. -/
def smallCalls : List TtyCall :=
  [.inputWrite [0x61] (by decide), .inputRead (.zero 1) 1 [] (by decide) (by decide),
    .outputWrite [0x68, 0x69, 0x0A] (by decide)]

theorem tty_bounds_small :
    EachLabel TtyCall.Steps keyboardTty smallCalls (fun t c => c.Right t) ∧
      AtEveryPoint TtyCall.Steps keyboardTty smallCalls fun _ t' => t'.Bounded := by
  have hinput : (TtyCall.inputWrite [0x61] (by decide)).Meets keyboardTty := fun _ => by decide
  apply (tty_bounds_iff keyboardTty_bounded smallCalls).mpr
  refine EachLabel.cons hinput ?_
  intro t₁ hst₁
  have h1 : t₁.Bounded := ((TtyCall.right_iff keyboardTty_bounded).mpr hinput).bounded hst₁
  have hread : (TtyCall.inputRead (.zero 1) 1 [] (by decide) (by decide)).Meets t₁ := trivial
  refine EachLabel.cons hread ?_
  intro t₂ hst₂
  have h2 : t₂.Bounded := ((TtyCall.right_iff h1).mpr hread).bounded hst₂
  refine EachLabel.cons ?_ fun _ _ => EachLabel.nil
  exact outputRoom_of_le h2 (by decide)

section Long

variable {bytes : List (BitVec 8)}

theorem keyboardTty_long_input (hlen : bytes.length = 8193) :
    ttyInputWrite keyboardTty bytes = .error .outOfBounds := by
  apply inputWrite_full keyboardTty_bounded
  · exact Option.some_ne_none _
  · rw [hlen]
    decide

theorem keyboardTty_long_output (hlen : bytes.length = 8193) (hline : 0x0A ∉ bytes) :
    ttyOutputWrite keyboardTty bytes = .error .outOfBounds := by
  apply outputWrite_full keyboardTty_bounded
  intro hroom
  have hover : TTY_OUT_BUFSIZE < (keyboardTty.outputidx + bytes.length) % 2 ^ 32 := by
    rw [hlen]
    decide
  have hplace := hroom ⟨false, true, []⟩ rfl
  rw [if_pos hover] at hplace
  have hle := (hplace rfl).length_le (Nat.zero_le _) hline
  rw [hlen] at hle
  exact absurd hle (by decide)

end Long

/-- A byte more than either buffer holds, and no newline: both writes store it behind their buffer. -/
theorem flood_overruns :
    ∃ (bytes : List (BitVec 8)) (h : bytes.length < 2 ^ 32), bytes = List.replicate 8193 0x61 ∧
      ¬EachLabel TtyCall.Steps keyboardTty [.inputWrite bytes h] (fun t c => c.Right t) ∧
      ¬EachLabel TtyCall.Steps keyboardTty [.outputWrite bytes h] fun t c => c.Right t := by
  obtain ⟨bytes, hbytes⟩ : ∃ bytes : List (BitVec 8), bytes = List.replicate 8193 0x61 := ⟨_, rfl⟩
  have hlen : bytes.length = 8193 := by rw [hbytes, List.length_replicate]
  have hline : 0x0A ∉ bytes := by
    rw [hbytes]
    intro hmem
    exact absurd (List.eq_of_mem_replicate hmem) (by decide)
  refine ⟨bytes, by omega, hbytes, ?_, ?_⟩
  · exact TtyCall.not_right (keyboardTty_long_input hlen)
  · exact TtyCall.not_right (keyboardTty_long_output hlen hline)

end Levos.Drivers
