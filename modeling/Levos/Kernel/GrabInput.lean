import Levos.Drivers.Keyboard
import Levos.Drivers.TtyQueue
import Levos.Lib.Itoa
import Mathlib.Data.List.TakeWhile

namespace Levos.Kernel

open Levos.Framework Levos.Drivers Levos.Lib

/-- A call of `tty_input_read` for one byte, on the tty as it is then, with what the input device stores
when it is asked. Other threads run between two of them. -/
structure Poll where
  tty : Tty
  reply : List (BitVec 8)

/-- `cs[0]` after the call; what it answers is not looked at. -/
def Poll.char (p : Poll) : Except Fault (BitVec 8) := do
  let r ← ttyInputRead p.tty (.zero 1) 1 p.reply
  r.2.1.load8 0

/-- The variables of `grab_input`, and the characters that it has echoed. -/
structure Grab where
  buffer : Buffer
  i : Nat
  echoed : List (BitVec 8)

/-- The loop of `grab_input`; nothing is returned as long as there was no newline. -/
def grabLoop : List Poll → Grab → Except Fault (Option Grab)
  | [], _ => .ok none
  | p :: ps, g => do
    let c ← p.char
    if c = 0 then grabLoop ps g
    else if c = 0x0A then return some { g with echoed := g.echoed ++ [0x0A] }
    else
      let buffer ← g.buffer.fill g.i 1 fun _ => c
      grabLoop ps { buffer := buffer, i := g.i + 1, echoed := g.echoed ++ [c] }

/-- `grab_input`, with what its buffer holds from the last time. -/
def grabInput (old : Nat → BitVec 8) (ps : List Poll) : Except Fault (Option Grab) := do
  let buffer ← Buffer.fill ⟨512, old⟩ 0 512 fun _ => 0
  grabLoop ps { buffer := buffer, i := 0, echoed := [] }

/-- The bytes that the polls deliver, 0 where there is none. -/
def delivered : List Poll → Except Fault (List (BitVec 8))
  | [] => .ok []
  | p :: ps => do
    let c ← p.char
    let cs ← delivered ps
    return c :: cs

/-- The characters in front of the first newline. -/
def lineOf (bytes : List (BitVec 8)) : List (BitVec 8) := (bytes.takeWhile (· ≠ 0x0A)).filter (· ≠ 0)

/-- Nothing is stored outside the buffer, and when there was a newline the line is returned, cut to what
fits with a zero behind it. -/
def GrabRight (old : Nat → BitVec 8) (ps : List Poll) (bytes : List (BitVec 8)) : Prop :=
  grabInput old ps ≠ .error .outOfBounds ∧
    (0x0A ∈ bytes → ∃ g, grabInput old ps = .ok (some g) ∧
      stringAt g.buffer 512 0 = .ok ((lineOf bytes).take 511))

/-- There is room for the line, and for the zero behind it. -/
def LineFits (bytes : List (BitVec 8)) : Prop :=
  (lineOf bytes).length ≤ if 0x0A ∈ bytes then 511 else 512

/-- The buffer with a line in it, and zeros behind the line. -/
def grabbed (old : Nat → BitVec 8) (l : List (BitVec 8)) : Buffer :=
  (Buffer.filled ⟨512, old⟩ 0 512 fun _ => 0).stored 0 l

section Polls

/-- A keyboard that nothing was written behind delivers what it stores. -/
theorem char_keyboard {t : Tty} {dev : Device} {reply : List (BitVec 8)} (hdev : t.input = some dev)
    (hread : dev.read = true) (hidx : t.inputidx = 0) (hreply : reply.length ≤ 1) :
    Poll.char ⟨t, reply⟩ = .ok (reply.headD 0) := by
  have hcall : ttyInputRead t (.zero 1) 1 reply = .ok ((1 : BitVec 32).toInt,
      (Buffer.zero 1).stored 0 (reply ++ t.pendingInput.drop reply.length), { t with inputidx := 0 }) := by
    apply ttyInputRead_more hdev hread
    · rw [hidx]
      decide
    · rw [hidx]
      exact Nat.zero_le _
    · exact hreply
    · decide
  simp only [Poll.char, hcall, ok_bind]
  cases reply with
  | nil =>
    rw [Tty.pendingInput, hidx]
    rfl
  | cons c cs => rfl

/-- `kbd_read` is asked for one byte. -/
theorem kbdRead_one (k : Keyboard) : (kbdRead k 1).2.1.length ≤ 1 := by
  have hlen (n : Nat) (k : Keyboard) : (readKeys n k).1.length = n := by
    induction n generalizing k with
    | zero => rfl
    | succ n ih => rw [readKeys, List.length_cons, ih]
  have hone : (1 : BitVec 32).toNat = 1 := rfl
  rw [kbdRead, hone]
  simp only [hlen]
  split <;> omega

end Polls

section Loop

variable {old : Nat → BitVec 8} {ps : List Poll} {bytes l : List (BitVec 8)} {c : BitVec 8}

theorem lineOf_cons (c : BitVec 8) (cs : List (BitVec 8)) :
    lineOf (c :: cs) = if c = 0 then lineOf cs else if c = 0x0A then [] else c :: lineOf cs := by
  by_cases h0 : c = 0
  · rw [if_pos h0, lineOf, h0]
    rfl
  · by_cases hline : c = 0x0A
    · rw [if_neg h0, if_pos hline, lineOf, hline]
      rfl
    · rw [if_neg h0, if_neg hline, lineOf, List.takeWhile_cons_of_pos (by simpa using hline),
        List.filter_cons_of_pos (by simpa using h0)]
      rfl

/-- Characters and a newline are a line. -/
theorem lineOf_append (h0 : 0 ∉ l) (hline : 0x0A ∉ l) : lineOf (l ++ [0x0A]) = l := by
  induction l with
  | nil => rfl
  | cons c cs ih =>
    rw [List.mem_cons, not_or] at h0 hline
    rw [List.cons_append, lineOf_cons, if_neg (Ne.symm h0.1), if_neg (Ne.symm hline.1), ih h0.2 hline.2]

/-- No character of the line is a zero. -/
theorem zero_notMem_lineOf : 0 ∉ lineOf bytes := by
  intro hmem
  have hne := (List.mem_filter.mp hmem).2
  simp at hne

theorem grabLoop_cons {p : Poll} (hchar : p.char = .ok c) (g : Grab) :
    grabLoop (p :: ps) g =
      if c = 0 then grabLoop ps g
      else if c = 0x0A then .ok (some { g with echoed := g.echoed ++ [0x0A] })
      else g.buffer.fill g.i 1 (fun _ => c) >>= fun buffer =>
        grabLoop ps { buffer := buffer, i := g.i + 1, echoed := g.echoed ++ [c] } := by
  rw [grabLoop, hchar]
  rfl

/-- A character that has room goes behind the others. -/
theorem grabLoop_store {p : Poll} (hchar : p.char = .ok c) (h0 : c ≠ 0) (hline : c ≠ 0x0A)
    (hroom : l.length < 512) :
    grabLoop (p :: ps) ⟨grabbed old l, l.length, l⟩ =
      grabLoop ps ⟨grabbed old (l ++ [c]), (l ++ [c]).length, l ++ [c]⟩ := by
  rw [grabLoop_cons hchar, if_neg h0, if_neg hline]
  simp only [grabbed]
  rw [Buffer.fill_byte c hroom, ok_bind, Buffer.stored_snoc, List.length_append, List.length_singleton]

/-- With room for the line the loop stores all of it, and returns it if there was a newline. -/
theorem grabLoop_room (hbytes : delivered ps = .ok bytes)
    (hroom : l.length + (lineOf bytes).length ≤ 512) :
    grabLoop ps ⟨grabbed old l, l.length, l⟩ = .ok (if 0x0A ∈ bytes then
      some ⟨grabbed old (l ++ lineOf bytes), (l ++ lineOf bytes).length, l ++ lineOf bytes ++ [0x0A]⟩
      else none) := by
  induction ps generalizing bytes l with
  | nil =>
    cases hbytes
    rfl
  | cons p ps ih =>
    obtain ⟨c, hchar, hrest⟩ := bind_eq_ok.mp hbytes
    obtain ⟨cs, hcs, hret⟩ := bind_eq_ok.mp hrest
    cases hret
    rw [lineOf_cons] at hroom ⊢
    by_cases h0 : c = 0
    · rw [if_pos h0] at hroom ⊢
      rw [grabLoop_cons hchar, if_pos h0, ih hcs hroom, h0]
      simp
    · rw [if_neg h0] at hroom ⊢
      by_cases hline : c = 0x0A
      · rw [if_pos hline, grabLoop_cons hchar, if_neg h0, if_pos hline, hline]
        simp
      · rw [if_neg hline, List.length_cons] at hroom
        have hmem : 0x0A ∈ c :: cs ↔ 0x0A ∈ cs := by
          rw [List.mem_cons]
          exact or_iff_right fun h => hline h.symm
        have hrest' := ih (l := l ++ [c]) hcs (by rw [List.length_append, List.length_singleton]; omega)
        rw [grabLoop_store hchar h0 hline (by omega), hrest', if_neg hline]
        simp only [hmem, List.append_assoc, List.singleton_append]

/-- Without room the character that has none is stored behind the buffer. -/
theorem grabLoop_full (hbytes : delivered ps = .ok bytes) (hl : l.length ≤ 512)
    (hfull : 512 < l.length + (lineOf bytes).length) :
    grabLoop ps ⟨grabbed old l, l.length, l⟩ = .error .outOfBounds := by
  induction ps generalizing bytes l with
  | nil =>
    cases hbytes
    exact absurd hfull (Nat.not_lt.mpr hl)
  | cons p ps ih =>
    obtain ⟨c, hchar, hrest⟩ := bind_eq_ok.mp hbytes
    obtain ⟨cs, hcs, hret⟩ := bind_eq_ok.mp hrest
    cases hret
    rw [lineOf_cons] at hfull
    by_cases h0 : c = 0
    · rw [if_pos h0] at hfull
      rw [grabLoop_cons hchar, if_pos h0, ih hcs hl hfull]
    · rw [if_neg h0] at hfull
      by_cases hline : c = 0x0A
      · rw [if_pos hline] at hfull
        exact absurd hfull (Nat.not_lt.mpr hl)
      · rw [if_neg hline, List.length_cons] at hfull
        by_cases hroom : l.length < 512
        · rw [grabLoop_store hchar h0 hline hroom]
          apply ih hcs
          · rw [List.length_append, List.length_singleton]
            omega
          · rw [List.length_append, List.length_singleton]
            omega
        · have hsize : ¬l.length + 1 ≤ (grabbed old l).size := by
            have hcap : (grabbed old l).size = 512 := rfl
            omega
          rw [grabLoop_cons hchar, if_neg h0, if_neg hline, Buffer.fill_error hsize, error_bind]

end Loop

section Input

variable {ps : List Poll} {bytes : List (BitVec 8)}

theorem grabInput_eq (old : Nat → BitVec 8) (ps : List Poll) :
    grabInput old ps = grabLoop ps ⟨grabbed old [], 0, []⟩ := by
  rw [grabInput, Buffer.fill_ok (Nat.le_refl _), ok_bind]
  rfl

theorem grabInput_room (old : Nat → BitVec 8) (h : delivered ps = .ok bytes)
    (hroom : (lineOf bytes).length ≤ 512) : grabInput old ps = .ok (if 0x0A ∈ bytes then
      some ⟨grabbed old (lineOf bytes), (lineOf bytes).length, lineOf bytes ++ [0x0A]⟩ else none) := by
  rw [grabInput_eq]
  exact grabLoop_room (l := []) h (by simpa using hroom)

/-- The 513th character of a line is stored behind the buffer. -/
theorem grabInput_full (old : Nat → BitVec 8) (h : delivered ps = .ok bytes)
    (hfull : 512 < (lineOf bytes).length) : grabInput old ps = .error .outOfBounds := by
  rw [grabInput_eq]
  exact grabLoop_full (l := []) h (Nat.zero_le _) (by simpa using hfull)

end Input

section Line

variable {old : Nat → BitVec 8} {l : List (BitVec 8)}

/-- A line with room for a zero behind it is the string in the buffer. -/
theorem stringAt_grabbed (hnul : 0 ∉ l) (hlen : l.length ≤ 511) :
    stringAt (grabbed old l) 512 0 = .ok l := by
  have hzero : (Buffer.filled ⟨512, old⟩ 0 512 fun _ => 0).byte l.length = 0 := if_pos (by omega)
  rw [grabbed, Buffer.stored_zero_snoc hzero]
  apply stringAt_stored _ hnul (Nat.zero_le _)
  · omega
  · exact Nat.succ_le_succ hlen

/-- A line that fills the buffer has none. -/
theorem stringAt_filled (hnul : 0 ∉ l) (hlen : l.length = 512) (room i : Nat) (hi : i + room = 512) :
    stringAt (grabbed old l) room i = .error .outOfBounds := by
  induction room generalizing i with
  | zero => rfl
  | succ room ih =>
    have hbyte : (grabbed old l).load8 i = .ok (l.getD i 0) := by
      rw [Buffer.load8, if_pos (by change i < 512; omega), grabbed, Buffer.stored_byte, if_pos (by omega)]
      rfl
    have hne : l.getD i 0 ≠ 0 := by
      have hlt : i < l.length := by omega
      rw [List.getD_eq_getElem?_getD, List.getElem?_eq_getElem hlt]
      exact fun hzero => hnul (hzero ▸ List.getElem_mem hlt)
    rw [stringAt, hbyte, ok_bind, if_neg hne, ih (i + 1) (by omega)]
    rfl

end Line

/-- `grab_input` keeps to its buffer and returns the line exactly when the line fits, whatever polls come
between its characters. -/
theorem grabInput_right_iff (old : Nat → BitVec 8) {ps : List Poll} {bytes : List (BitVec 8)}
    (h : delivered ps = .ok bytes) : GrabRight old ps bytes ↔ LineFits bytes := by
  by_cases hroom : (lineOf bytes).length ≤ 512
  · rw [GrabRight, grabInput_room old h hroom, LineFits]
    by_cases hline : 0x0A ∈ bytes
    · rw [if_pos hline, if_pos hline]
      constructor
      · intro hright
        obtain ⟨g, hg, hstring⟩ := hright.2 hline
        cases hg
        by_contra hlong
        rw [stringAt_filled zero_notMem_lineOf (by omega) 512 0 rfl] at hstring
        cases hstring
      · intro hfits
        refine ⟨?_, fun _ => ⟨_, rfl, ?_⟩⟩
        · intro he
          cases he
        · rw [stringAt_grabbed zero_notMem_lineOf hfits, List.take_of_length_le hfits]
    · rw [if_neg hline, if_neg hline]
      refine iff_of_true ⟨?_, fun hin => absurd hin hline⟩ hroom
      intro he
      cases he
  · apply iff_of_false
    · intro hright
      exact hright.1 (grabInput_full old h (by omega))
    · intro hfits
      rw [LineFits] at hfits
      split at hfits <;> omega

/-- The polls of a keyboard, each with what it stores. -/
def keyPolls (replies : List (List (BitVec 8))) : List Poll :=
  replies.map fun reply => ⟨keyboardTty, reply⟩

theorem delivered_keyPolls {replies : List (List (BitVec 8))} (h : ∀ reply ∈ replies, reply.length ≤ 1) :
    delivered (keyPolls replies) = .ok (replies.map fun reply => reply.headD 0) := by
  induction replies with
  | nil => rfl
  | cons reply replies ih =>
    have hchar : Poll.char ⟨keyboardTty, reply⟩ = .ok (reply.headD 0) :=
      char_keyboard rfl rfl rfl (h reply List.mem_cons_self)
    have hrest := ih fun r hr => h r (List.mem_cons_of_mem _ hr)
    rw [keyPolls, List.map_cons, delivered, hchar, ok_bind, ← keyPolls, hrest]
    rfl

/-- `ls` is typed, with an empty poll in between. -/
theorem grabInput_ls :
    GrabRight (fun _ => 0) (keyPolls [[0x6C], [], [0x73], [0x0A]]) [0x6C, 0, 0x73, 0x0A] := by
  apply (grabInput_right_iff (fun _ => 0) (delivered_keyPolls (by decide))).mpr
  rw [LineFits]
  decide

/-- 513 characters and a newline. -/
theorem grabInput_long :
    ∃ replies bytes, delivered (keyPolls replies) = .ok bytes ∧
      bytes = List.replicate 513 0x61 ++ [0x0A] ∧ ¬GrabRight (fun _ => 0) (keyPolls replies) bytes := by
  obtain ⟨n, hn⟩ : ∃ n, n = 513 := ⟨_, rfl⟩
  rw [← hn]
  have hreplies : ∀ reply ∈ List.replicate n [(0x61 : BitVec 8)] ++ [[0x0A]], reply.length ≤ 1 := by
    intro reply hmem
    rcases List.mem_append.mp hmem with hmem | hmem
    · rw [List.eq_of_mem_replicate hmem]
      exact Nat.le_refl 1
    · rw [List.mem_singleton.mp hmem]
      exact Nat.le_refl 1
  have hbytes : (List.replicate n [(0x61 : BitVec 8)] ++ [[0x0A]]).map
      (fun (reply : List (BitVec 8)) => reply.headD 0) = List.replicate n 0x61 ++ [0x0A] := by simp
  have hdelivered := delivered_keyPolls hreplies
  rw [hbytes] at hdelivered
  refine ⟨_, _, hdelivered, rfl, ?_⟩
  intro hright
  have hline : lineOf (List.replicate n 0x61 ++ [0x0A]) = List.replicate n 0x61 := by
    apply lineOf_append
    · exact fun hmem => absurd (List.eq_of_mem_replicate hmem) (by decide)
    · exact fun hmem => absurd (List.eq_of_mem_replicate hmem) (by decide)
  apply hright.1
  apply grabInput_full _ hdelivered
  rw [hline, List.length_replicate]
  omega

end Levos.Kernel
