import Levos.Drivers.KeyQueue
import Levos.Kernel.GrabInput

namespace Levos.Kernel

open Levos.Framework Levos.Drivers Levos.Lib

/-- The shell between the keyboard and its commands: the driver of the keyboard, `shell_tty`, what stands
in the static buffer of `grab_input`, and the polls that it has made if it runs. -/
structure ShellInput where
  keyboard : Keyboard
  tty : Tty
  buffer : Nat → BitVec 8
  polls : Option (List Poll)

/-- What happens there: an interrupt of the keyboard with the character made of its code, a change of
memory behind `keybuf`, a call of `grab_input`, a poll that does not end it and one that does, with the line
that is returned and what was echoed. -/
inductive InputEvent
  | irq (code c : BitVec 8)
  | elsewhere
  | called
  | polled
  | returned (line echoed : List (BitVec 8))

/-- What `tty_input_read` stores when it asks the keyboard for one byte. -/
def ShellInput.poll (s : ShellInput) : Poll := ⟨s.tty, (kbdRead s.keyboard 1).2.1⟩

/-- The driver and the tty after a poll. -/
inductive Polled (s : ShellInput) : Keyboard → Tty → Prop
  | intro {n : Int} {buf : Buffer} {tty : Tty}
      (h : ttyInputRead s.tty (.zero 1) 1 s.poll.reply = .ok (n, buf, tty)) :
      Polled s (kbdRead s.keyboard 1).2.2 tty

/-- Interrupts come at any time between the polls, and while a command runs. -/
inductive InputStep (behind : Nat → BitVec 32) : ShellInput → InputEvent → ShellInput → Prop
  | irq {s : ShellInput} (code : BitVec 8) :
      InputStep behind s (.irq code (accepts behind s.keyboard code))
        { s with keyboard := kbdIrq behind s.keyboard code }
  | elsewhere {s : ShellInput} (keybuf : Nat → BitVec 8) (h : ∀ i < 256, keybuf i = s.keyboard.keybuf i) :
      InputStep behind s .elsewhere { s with keyboard := { s.keyboard with keybuf := keybuf } }
  | called {s : ShellInput} (h : s.polls = none) : InputStep behind s .called { s with polls := some [] }
  | polled {s : ShellInput} {ps : List Poll} {k : Keyboard} {tty : Tty} (hps : s.polls = some ps)
      (hpoll : Polled s k tty) (h : grabInput s.buffer (ps ++ [s.poll]) = .ok none) :
      InputStep behind s .polled ⟨k, tty, s.buffer, some (ps ++ [s.poll])⟩
  | returned {s : ShellInput} {ps : List Poll} {k : Keyboard} {tty : Tty} {g : Grab} {line : List (BitVec 8)}
      (hps : s.polls = some ps) (hpoll : Polled s k tty)
      (h : grabInput s.buffer (ps ++ [s.poll]) = .ok (some g)) (hline : stringAt g.buffer 512 0 = .ok line) :
      InputStep behind s (.returned line g.echoed) ⟨k, tty, g.buffer.byte, none⟩

/-- The characters that are typed. -/
def InputEvent.typed : InputEvent → List (BitVec 8)
  | .irq _ c => if c = 0 then [] else [c]
  | _ => []

/-- The lines that are returned. -/
def InputEvent.lines : InputEvent → List (List (BitVec 8))
  | .returned line _ => [line]
  | _ => []

/-- An interrupt that accepts a character finds fewer than 255 keys waiting. -/
def KeysFit (s : ShellInput) : InputEvent → Prop
  | .irq _ c => c ≠ 0 → s.keyboard.keyLoc.toNat < 255
  | _ => True

/-- No piece of the text without a newline is longer than a line may be. -/
def LinesFit (text : List (BitVec 8)) : Prop :=
  ∀ pre l post, text = pre ++ l ++ post → 0x0A ∉ l → l.length ≤ 511

/-- `l` is the part of a line that `grab_input` has taken so far. -/
def Taken (s : ShellInput) (l : List (BitVec 8)) : Prop :=
  match s.polls with
  | none => l = []
  | some ps => ∃ bytes, delivered ps = .ok bytes ∧ 0x0A ∉ bytes ∧ lineOf bytes = l

/-- Lines, each with a newline behind it. -/
def ended (lines : List (List (BitVec 8))) : List (BitVec 8) := lines.flatMap (· ++ [0x0A])

/-- The lines that were returned, the part of one that was taken and the keys that wait are what was typed. -/
structure InputRight (typed : List (BitVec 8)) (lines : List (List (BitVec 8))) (s : ShellInput) : Prop where
  counted : s.keyboard.Counted
  keys : ∀ c ∈ s.keyboard.waiting, c ≠ 0
  keyboard : ∃ dev, s.tty.input = some dev ∧ dev.read = true
  nothing : s.tty.inputidx = 0
  text : ∃ l, Taken s l ∧ typed = ended lines ++ l ++ s.keyboard.waiting
  whole : ∀ line ∈ lines, 0x0A ∉ line ∧ 0 ∉ line

section Polls

variable {s : ShellInput} {k : Keyboard} {tty : Tty} {ps : List Poll} {bytes : List (BitVec 8)} {c : BitVec 8}

theorem delivered_snoc {p : Poll} (h : delivered ps = .ok bytes) (hc : p.char = .ok c) :
    delivered (ps ++ [p]) = .ok (bytes ++ [c]) := by
  induction ps generalizing bytes with
  | nil =>
    cases h
    simp only [List.nil_append, delivered, hc, ok_bind]
    rfl
  | cons q ps ih =>
    obtain ⟨d, hd, hrest⟩ := bind_eq_ok.mp h
    obtain ⟨ds, hds, hret⟩ := bind_eq_ok.mp hrest
    cases hret
    rw [List.cons_append, delivered, hd, ok_bind, ih hds]
    rfl

/-- A character goes behind a line that has not ended, but for the newline that ends it. -/
theorem lineOf_snoc (hbytes : 0x0A ∉ bytes) (c : BitVec 8) :
    lineOf (bytes ++ [c]) = lineOf bytes ++ if c = 0 ∨ c = 0x0A then [] else [c] := by
  induction bytes with
  | nil =>
    rw [List.nil_append, lineOf_cons]
    by_cases h0 : c = 0
    · rw [if_pos h0, if_pos (.inl h0)]
      rfl
    · by_cases hnl : c = 0x0A
      · rw [if_neg h0, if_pos hnl, if_pos (.inr hnl)]
        rfl
      · rw [if_neg h0, if_neg hnl, if_neg (not_or.mpr ⟨h0, hnl⟩)]
        rfl
  | cons b bytes ih =>
    rw [List.mem_cons, not_or] at hbytes
    rw [List.cons_append, lineOf_cons, lineOf_cons, ih hbytes.2]
    by_cases h0 : b = 0
    · rw [if_pos h0, if_pos h0]
    · rw [if_neg h0, if_neg h0, if_neg (Ne.symm hbytes.1), if_neg (Ne.symm hbytes.1), List.cons_append]

/-- A poll leaves the tty as it was. -/
theorem polled_eq (hkb : ∃ dev, s.tty.input = some dev ∧ dev.read = true) (hidx : s.tty.inputidx = 0)
    (h : Polled s k tty) : k = (kbdRead s.keyboard 1).2.2 ∧ tty = { s.tty with inputidx := 0 } := by
  obtain ⟨dev, hdev, hread⟩ := hkb
  obtain ⟨hcall⟩ := h
  refine ⟨rfl, ?_⟩
  have hlt : s.tty.inputidx < (1 : BitVec 32).toNat := by
    rw [hidx]
    decide
  have hmore := ttyInputRead_more hdev hread hlt (by rw [hidx]; exact Nat.zero_le _) (kbdRead_one s.keyboard)
    (.zero 1) (by decide)
  exact congrArg (fun r => r.2.2) (Except.ok.inj (hcall.symm.trans hmore))

theorem polled_exists (hkb : ∃ dev, s.tty.input = some dev ∧ dev.read = true) (hidx : s.tty.inputidx = 0) :
    Polled s (kbdRead s.keyboard 1).2.2 { s.tty with inputidx := 0 } := by
  obtain ⟨dev, hdev, hread⟩ := hkb
  exact .intro (ttyInputRead_more hdev hread (by rw [hidx]; decide) (by rw [hidx]; exact Nat.zero_le _)
    (kbdRead_one _) (.zero 1) (by decide))

/-- A poll delivers the first key that waits, or 0 if there is none. -/
theorem poll_char (hc : s.keyboard.Counted) (hkb : ∃ dev, s.tty.input = some dev ∧ dev.read = true)
    (hidx : s.tty.inputidx = 0) : (kbdRead s.keyboard 1).2.2.Counted ∧ ∃ c, s.poll.char = .ok c ∧
      (s.keyboard.waiting = [] ∧ c = 0 ∧ (kbdRead s.keyboard 1).2.2.waiting = [] ∨
        s.keyboard.waiting = c :: (kbdRead s.keyboard 1).2.2.waiting) := by
  obtain ⟨dev, hdev, hread⟩ := hkb
  have hone : s.poll.reply.length ≤ 1 := kbdRead_one s.keyboard
  have hchar : s.poll.char = .ok (s.poll.reply.headD 0) := char_keyboard hdev hread hidx hone
  obtain ⟨n, hle, hkeys, hzero⟩ := kbdRead_le hc 1
  obtain ⟨hfront, hcounted⟩ := readKeys_some hle hc
  rw [← hkeys] at hfront hcounted
  refine ⟨hcounted, _, hchar, ?_⟩
  cases hreply : (kbdRead s.keyboard 1).2.1 with
  | nil =>
    left
    have hnone : s.keyboard.waiting = [] := by
      have hn : n = 0 := by
        have hlen : (readKeys n s.keyboard).1 = [] := by rw [← hkeys, hreply]
        cases n with
        | zero => rfl
        | succ n => cases hlen
      have hloc : s.keyboard.keyLoc = 0 := (hzero.mp hn).resolve_right (by decide)
      rw [Keyboard.waiting, hloc]
      rfl
    rw [hreply, List.nil_append] at hfront
    exact ⟨hnone, by rw [ShellInput.poll, hreply]; rfl, hfront.symm.trans hnone⟩
  | cons c cs =>
    right
    have hcs : cs = [] := by
      rw [ShellInput.poll, hreply, List.length_cons] at hone
      exact List.eq_nil_of_length_eq_zero (by omega)
    rw [hreply, hcs] at hfront
    rw [ShellInput.poll, hreply]
    exact hfront

end Polls

section Steps

variable {behind : Nat → BitVec 32} {s s' : ShellInput} {e : InputEvent} {typed : List (BitVec 8)}
  {lines : List (List (BitVec 8))} {l : List (BitVec 8)}

theorem ended_append (lines lines' : List (List (BitVec 8))) :
    ended (lines ++ lines') = ended lines ++ ended lines' := List.flatMap_append

/-- What the polls so far say of `grab_input`. -/
theorem grabInput_none {old : Nat → BitVec 8} {ps : List Poll} {bytes : List (BitVec 8)}
    (hbytes : delivered ps = .ok bytes) (h : grabInput old ps = .ok none) : 0x0A ∉ bytes := by
  by_cases hroom : (lineOf bytes).length ≤ 512
  · rw [grabInput_room old hbytes hroom] at h
    intro hmem
    rw [if_pos hmem] at h
    cases h
  · rw [grabInput_full old hbytes (Nat.lt_of_not_le hroom)] at h
    cases h

theorem grabInput_some {old : Nat → BitVec 8} {ps : List Poll} {bytes line : List (BitVec 8)} {g : Grab}
    (hbytes : delivered ps = .ok bytes) (h : grabInput old ps = .ok (some g))
    (hline : stringAt g.buffer 512 0 = .ok line) :
    0x0A ∈ bytes ∧ line = lineOf bytes ∧ g.echoed = line ++ [0x0A] := by
  by_cases hroom : (lineOf bytes).length ≤ 512
  · rw [grabInput_room old hbytes hroom] at h
    by_cases hmem : 0x0A ∈ bytes
    · rw [if_pos hmem] at h
      cases h
      have hlen : (lineOf bytes).length ≤ 511 := by
        by_contra hlong
        rw [stringAt_filled zero_notMem_lineOf (by omega) 512 0 rfl] at hline
        cases hline
      rw [stringAt_grabbed zero_notMem_lineOf hlen] at hline
      cases hline
      exact ⟨hmem, rfl, rfl⟩
    · rw [if_neg hmem] at h
      cases h
  · rw [grabInput_full old hbytes (Nat.lt_of_not_le hroom)] at h
    cases h

/-- The line so far, and the character that the next poll delivers. -/
theorem InputRight.next (h : InputRight typed lines s) {ps : List Poll} (hps : s.polls = some ps) :
    ∃ bytes c, delivered ps = .ok bytes ∧ 0x0A ∉ bytes ∧ s.poll.char = .ok c ∧ Taken s (lineOf bytes) ∧
      delivered (ps ++ [s.poll]) = .ok (bytes ++ [c]) ∧ (kbdRead s.keyboard 1).2.2.Counted ∧
      typed = ended lines ++ (lineOf bytes ++ if c = 0 then [] else [c]) ++
        (kbdRead s.keyboard 1).2.2.waiting ∧
      (∀ d ∈ (kbdRead s.keyboard 1).2.2.waiting, d ≠ 0) ∧
      s.keyboard.waiting = (if c = 0 then [] else [c]) ++ (kbdRead s.keyboard 1).2.2.waiting ∧
      (c = 0 → s.keyboard.waiting = []) := by
  obtain ⟨l, htaken, htext⟩ := h.text
  have hpolls := htaken
  rw [Taken, hps] at hpolls
  obtain ⟨bytes, hbytes, hnl, rfl⟩ := hpolls
  obtain ⟨hcounted, c, hchar, hwait⟩ := poll_char h.counted h.keyboard h.nothing
  have hsplit : s.keyboard.waiting =
      (if c = 0 then [] else [c]) ++ (kbdRead s.keyboard 1).2.2.waiting := by
    rcases hwait with hnone | hsome
    · obtain ⟨hempty, hzero, hempty'⟩ := hnone
      rw [hempty, if_pos hzero, hempty']
      rfl
    · have hc : c ≠ 0 := h.keys c (by rw [hsome]; exact List.mem_cons_self)
      rw [if_neg hc]
      exact hsome
  refine ⟨bytes, c, hbytes, hnl, hchar, htaken, delivered_snoc hbytes hchar, hcounted, ?_, ?_, hsplit, ?_⟩
  · rw [htext, hsplit]
    simp
  · intro d hd
    apply h.keys
    rw [hsplit]
    exact List.mem_append_right _ hd
  · intro hzero
    rcases hwait with hnone | hsome
    · exact hnone.1
    · exact absurd hzero (h.keys c (by rw [hsome]; exact List.mem_cons_self))

/-- A character that is no newline is taken, or none. -/
theorem InputRight.polled (h : InputRight typed lines s) {ps : List Poll} {k : Keyboard} {tty : Tty}
    (hps : s.polls = some ps) (hpoll : Polled s k tty)
    (hgrab : grabInput s.buffer (ps ++ [s.poll]) = .ok none) :
    InputRight typed lines ⟨k, tty, s.buffer, some (ps ++ [s.poll])⟩ := by
  obtain ⟨rfl, rfl⟩ := polled_eq h.keyboard h.nothing hpoll
  obtain ⟨bytes, c, -, hnl, -, -, hbytes, hcounted, htext, hkeys, -⟩ := h.next hps
  have hnl' : 0x0A ∉ bytes ++ [c] := grabInput_none hbytes hgrab
  have hc : c ≠ 0x0A := fun hc => hnl' (by rw [hc]; simp)
  refine ⟨hcounted, hkeys, h.keyboard, rfl, ⟨_, ⟨_, hbytes, hnl', rfl⟩, ?_⟩, h.whole⟩
  rw [htext, lineOf_snoc hnl]
  simp only [hc, or_false]

/-- A newline returns the line that was taken. -/
theorem InputRight.returned (h : InputRight typed lines s) {ps : List Poll} {k : Keyboard} {tty : Tty}
    {g : Grab} {line : List (BitVec 8)} (hps : s.polls = some ps) (hpoll : Polled s k tty)
    (hgrab : grabInput s.buffer (ps ++ [s.poll]) = .ok (some g)) (hline : stringAt g.buffer 512 0 = .ok line) :
    InputRight typed (lines ++ [line]) ⟨k, tty, g.buffer.byte, none⟩ := by
  obtain ⟨rfl, rfl⟩ := polled_eq h.keyboard h.nothing hpoll
  obtain ⟨bytes, c, -, hnl, -, -, hbytes, hcounted, htext, hkeys, -⟩ := h.next hps
  obtain ⟨hmem, rfl, -⟩ := grabInput_some hbytes hgrab hline
  have hc : c = 0x0A := by
    rcases List.mem_append.mp hmem with hold | hnew
    · exact absurd hold hnl
    · exact (List.mem_singleton.mp hnew).symm
  have hlineOf : lineOf (bytes ++ [c]) = lineOf bytes := by
    rw [lineOf_snoc hnl, if_pos (.inr hc), List.append_nil]
  refine ⟨hcounted, hkeys, h.keyboard, rfl, ⟨[], rfl, ?_⟩, ?_⟩
  · have hne : (0x0A : BitVec 8) ≠ 0 := by decide
    rw [htext, hlineOf, hc, if_neg hne, ended_append, List.append_nil]
    simp [ended]
  · intro line hmem
    rcases List.mem_append.mp hmem with hold | hnew
    · exact h.whole line hold
    · rw [List.mem_singleton.mp hnew]
      refine ⟨?_, zero_notMem_lineOf⟩
      intro hin
      have hne := List.mem_takeWhile_imp (List.mem_of_mem_filter hin)
      simp at hne

theorem InputRight.step (h : InputRight typed lines s) (hfits : KeysFit s e)
    (hstep : InputStep behind s e s') : InputRight (typed ++ e.typed) (lines ++ e.lines) s' := by
  cases hstep with
  | irq code =>
    obtain ⟨l, htaken, htext⟩ := h.text
    by_cases hacc : accepts behind s.keyboard code = 0
    · obtain ⟨hwaiting, hcounted, -⟩ := kbdIrq_none hacc
      simp only [InputEvent.typed, InputEvent.lines, if_pos hacc, List.append_nil]
      refine ⟨hcounted.mpr h.counted, ?_, h.keyboard, h.nothing, ⟨l, htaken, ?_⟩, h.whole⟩
      · rw [hwaiting]
        exact h.keys
      · rw [hwaiting]
        exact htext
    · obtain ⟨hwaiting, hcounted, -⟩ := kbdIrq_some hacc h.counted
      simp only [InputEvent.typed, InputEvent.lines, if_neg hacc, List.append_nil]
      refine ⟨hcounted.mpr (hfits hacc), ?_, h.keyboard, h.nothing, ⟨l, htaken, ?_⟩, h.whole⟩
      · intro c hc
        rw [hwaiting] at hc
        rcases List.mem_append.mp hc with hold | hnew
        · exact h.keys c hold
        · rwa [List.mem_singleton.mp hnew]
      · rw [hwaiting, htext]
        simp
  | elsewhere keybuf hsame =>
    obtain ⟨l, htaken, htext⟩ := h.text
    have hwaiting : ({ s.keyboard with keybuf := keybuf } : Keyboard).waiting = s.keyboard.waiting := by
      apply List.map_congr_left
      intro i hi
      exact hsame i (Nat.lt_of_lt_of_le (List.mem_range.mp hi) h.counted.2)
    simp only [InputEvent.typed, InputEvent.lines, List.append_nil]
    refine ⟨h.counted, ?_, h.keyboard, h.nothing, ⟨l, htaken, ?_⟩, h.whole⟩
    · rw [hwaiting]
      exact h.keys
    · rw [hwaiting]
      exact htext
  | called hnone =>
    obtain ⟨l, htaken, htext⟩ := h.text
    rw [Taken, hnone] at htaken
    simp only [InputEvent.typed, InputEvent.lines, List.append_nil]
    refine ⟨h.counted, h.keys, h.keyboard, h.nothing, ⟨l, ?_, htext⟩, h.whole⟩
    exact ⟨[], rfl, List.not_mem_nil, htaken.symm⟩
  | polled hps hpoll hgrab =>
    simp only [InputEvent.typed, InputEvent.lines, List.append_nil]
    exact h.polled hps hpoll hgrab
  | returned hps hpoll hgrab hline =>
    simp only [InputEvent.typed, InputEvent.lines, List.append_nil]
    exact h.returned hps hpoll hgrab hline

variable (behind) in
/-- A poll is never stuck: it takes the first key that waits, and a newline ends the line. -/
theorem InputRight.poll_step (h : InputRight typed lines s) {ps : List Poll} (hps : s.polls = some ps)
    (hfit : LinesFit typed) (htaken : Taken s l) :
    ∃ c s', s.keyboard.waiting = (if c = 0 then [] else [c]) ++ s'.keyboard.waiting ∧
      (c = 0 → s.keyboard.waiting = []) ∧
      InputStep behind s (if c = 0x0A then .returned l (l ++ [0x0A]) else .polled) s' ∧
      (c ≠ 0x0A → s'.polls ≠ none ∧ Taken s' (l ++ if c = 0 then [] else [c])) := by
  obtain ⟨bytes, c, hbefore, hnl, -, -, hbytes, -, htext, -, hwait, hzero⟩ := h.next hps
  have hl : l = lineOf bytes := by
    rw [Taken, hps] at htaken
    obtain ⟨bytes', hbefore', -, hl⟩ := htaken
    rw [← hl, Except.ok.inj (hbefore'.symm.trans hbefore)]
  obtain ⟨tty, htty⟩ : ∃ tty, tty = { s.tty with inputidx := 0 } := ⟨_, rfl⟩
  have hpoll := polled_exists h.keyboard h.nothing
  rw [← htty] at hpoll
  have hline_nl : 0x0A ∉ lineOf bytes := fun hin => hnl (List.takeWhile_subset _ (List.mem_of_mem_filter hin))
  by_cases hc : c = 0x0A
  · have hmem : 0x0A ∈ bytes ++ [c] := by simp [hc]
    have hlineOf : lineOf (bytes ++ [c]) = l := by
      rw [lineOf_snoc hnl, if_pos (.inr hc), List.append_nil, hl]
    have hlen : l.length ≤ 511 := by
      rw [hl]
      rw [← List.append_assoc, List.append_assoc] at htext
      exact hfit _ _ _ htext hline_nl
    have hgrab := grabInput_room s.buffer hbytes (by rw [hlineOf]; omega)
    rw [if_pos hmem, hlineOf] at hgrab
    have hstring : stringAt (grabbed s.buffer l) 512 0 = .ok l :=
      stringAt_grabbed (by rw [hl]; exact zero_notMem_lineOf) hlen
    refine ⟨c, ⟨_, tty, (grabbed s.buffer l).byte, none⟩, hwait, hzero, ?_, fun hne => absurd hc hne⟩
    rw [if_pos hc]
    exact .returned hps hpoll hgrab hstring
  · have hmem : 0x0A ∉ bytes ++ [c] := by
      rw [List.mem_append, not_or]
      exact ⟨hnl, fun hin => hc (List.mem_singleton.mp hin).symm⟩
    have hlineOf : lineOf (bytes ++ [c]) = l ++ if c = 0 then [] else [c] := by
      rw [lineOf_snoc hnl, hl]
      simp only [hc, or_false]
    have hlen : (lineOf (bytes ++ [c])).length ≤ 511 := by
      rw [hlineOf, hl]
      refine hfit _ _ _ htext ?_
      rw [List.mem_append, not_or]
      refine ⟨hline_nl, ?_⟩
      by_cases h0 : c = 0
      · rw [if_pos h0]
        exact List.not_mem_nil
      · rw [if_neg h0]
        exact fun hin => hc (List.mem_singleton.mp hin).symm
    have hgrab := grabInput_room s.buffer hbytes (by omega)
    rw [if_neg hmem] at hgrab
    refine ⟨c, ⟨_, tty, s.buffer, some (ps ++ [s.poll])⟩, hwait, hzero, ?_, fun _ => ⟨by simp, ?_⟩⟩
    · rw [if_neg hc]
      exact .polled hps hpoll hgrab
    · exact ⟨_, hbytes, hmem, hlineOf⟩

/-- With a whole line typed, as many polls return it, whatever was typed behind it. -/
theorem InputRight.line_returned (h : InputRight typed lines s) (hpolls : s.polls ≠ none)
    (hfit : LinesFit typed) (htaken : Taken s l) {rest more : List (BitVec 8)} (hmore : 0x0A ∉ more)
    (hwait : s.keyboard.waiting = more ++ 0x0A :: rest) :
    ∃ s', Run (InputStep behind) s
        (List.replicate more.length .polled ++ [.returned (l ++ more) (l ++ more ++ [0x0A])]) s' ∧
      s'.keyboard.waiting = rest := by
  obtain ⟨ps, hps⟩ := Option.ne_none_iff_exists'.mp hpolls
  induction more generalizing s l ps with
  | nil =>
    obtain ⟨c, s', hsplit, hzero, hstep, -⟩ := h.poll_step behind hps hfit htaken
    have h0 : c ≠ 0 := fun h0 => by simp [hzero h0] at hwait
    rw [hwait, if_neg h0, List.nil_append, List.singleton_append, List.cons.injEq] at hsplit
    rw [if_pos hsplit.1.symm] at hstep
    refine ⟨s', ?_, hsplit.2.symm⟩
    rw [List.append_nil]
    exact .single hstep
  | cons d more ih =>
    rw [List.mem_cons, not_or] at hmore
    obtain ⟨c, s₁, hsplit, hzero, hstep, hgoes⟩ := h.poll_step behind hps hfit htaken
    have h0 : c ≠ 0 := fun h0 => by simp [hzero h0] at hwait
    rw [hwait, if_neg h0, List.cons_append, List.singleton_append, List.cons.injEq] at hsplit
    obtain ⟨rfl, hwait₁⟩ := hsplit
    have hnl : d ≠ 0x0A := Ne.symm hmore.1
    obtain ⟨hpolls₁, htaken₁⟩ := hgoes hnl
    rw [if_neg hnl] at hstep
    rw [if_neg h0] at htaken₁
    obtain ⟨ps₁, hps₁⟩ := Option.ne_none_iff_exists'.mp hpolls₁
    have h₁ : InputRight typed lines s₁ := by
      have hone := h.step (e := .polled) trivial hstep
      simpa only [InputEvent.typed, InputEvent.lines, List.append_nil] using hone
    obtain ⟨s', hrun, hrest⟩ := ih h₁ hpolls₁ htaken₁ hmore.2 hwait₁.symm ps₁ hps₁
    refine ⟨s', ?_, hrest⟩
    rw [List.append_assoc, List.singleton_append] at hrun
    exact .cons hstep hrun

end Steps

/-- The driver and the shell when they begin, with a tty that takes its input from the keyboard. -/
def startInput (keybuf buffer : Nat → BitVec 8) (tty : Tty) : ShellInput :=
  ⟨.fresh keybuf, tty, buffer, none⟩

theorem input_right {behind : Nat → BitVec 32} {keybuf buffer : Nat → BitVec 8} {tty : Tty}
    {es : List InputEvent} {s : ShellInput} (hkb : ∃ dev, tty.input = some dev ∧ dev.read = true)
    (hidx : tty.inputidx = 0) (h : Run (InputStep behind) (startInput keybuf buffer tty) es s)
    (hfits : EachStep (InputStep behind) (startInput keybuf buffer tty) es fun t e _ => KeysFit t e) :
    InputRight (es.flatMap InputEvent.typed) (es.flatMap InputEvent.lines) s := by
  have hall : AtEveryPoint (InputStep behind) (startInput keybuf buffer tty) es fun pre t =>
      InputRight (pre.flatMap InputEvent.typed) (pre.flatMap InputEvent.lines) t := by
    refine hfits.atEveryPoint (P := fun pre t =>
      InputRight (pre.flatMap InputEvent.typed) (pre.flatMap InputEvent.lines) t) ?_ ?_
    · exact ⟨⟨rfl, Nat.zero_le _⟩, by simp [startInput, Keyboard.waiting, Keyboard.fresh], hkb, hidx,
        ⟨[], rfl, rfl⟩, by simp⟩
    · intro pre e t t' hbefore hstep hfit
      have hafter := hbefore.step hfit hstep
      simpa using hafter
  exact hall es [] s (List.append_nil es).symm h

/-- As long as an interrupt finds fewer than 255 keys waiting, the lines that `grab_input` returns are, each
ended by a newline, the beginning of what is typed, in whatever order interrupts and polls come. What is
left is the line that it has begun and the keys that wait. With lines of no more than 511 characters it is
never stuck, and a whole line that waits is returned and echoed by as many polls. -/
theorem lines_typed {behind : Nat → BitVec 32} {keybuf buffer : Nat → BitVec 8} {tty : Tty}
    {es : List InputEvent} {s : ShellInput} (hkb : ∃ dev, tty.input = some dev ∧ dev.read = true)
    (hidx : tty.inputidx = 0) (h : Run (InputStep behind) (startInput keybuf buffer tty) es s)
    (hfits : EachStep (InputStep behind) (startInput keybuf buffer tty) es fun t e _ => KeysFit t e) :
    (∃ l, Taken s l ∧ es.flatMap InputEvent.typed =
        ended (es.flatMap InputEvent.lines) ++ l ++ s.keyboard.waiting) ∧
      (∀ line ∈ es.flatMap InputEvent.lines, 0x0A ∉ line ∧ 0 ∉ line) ∧
      (LinesFit (es.flatMap InputEvent.typed) → s.polls ≠ none → ∀ l, Taken s l →
        (∃ e s', InputStep behind s e s' ∧ (e = .polled ∨ e = .returned l (l ++ [0x0A]))) ∧
        ∀ more rest, 0x0A ∉ more → s.keyboard.waiting = more ++ 0x0A :: rest →
          ∃ s', Run (InputStep behind) s (List.replicate more.length .polled ++
            [.returned (l ++ more) (l ++ more ++ [0x0A])]) s' ∧ s'.keyboard.waiting = rest) := by
  have hright := input_right hkb hidx h hfits
  refine ⟨hright.text, hright.whole, ?_⟩
  intro hlines hpolls l htaken
  refine ⟨?_, fun more rest hmore hwait => hright.line_returned hpolls hlines htaken hmore hwait⟩
  obtain ⟨ps, hps⟩ := Option.ne_none_iff_exists'.mp hpolls
  obtain ⟨c, s', -, -, hstep, -⟩ := hright.poll_step behind hps hlines htaken
  by_cases hc : c = 0x0A
  · rw [if_pos hc] at hstep
    exact ⟨_, s', hstep, .inr rfl⟩
  · rw [if_neg hc] at hstep
    exact ⟨_, s', hstep, .inl rfl⟩

/-- An `l` and a newline are typed while `grab_input` waits. -/
theorem lines_typed_l :
    ∃ s s', Run (InputStep fun _ => 0) (startInput (fun _ => 0) (fun _ => 0) keyboardTty)
        [.called, .irq 0x26 0x6C, .irq 0x1C 0x0A] s ∧
      Run (InputStep fun _ => 0) s [.polled, .returned [0x6C] [0x6C, 0x0A]] s' := by
  let s₀ := startInput (fun _ => 0) (fun _ => 0) keyboardTty
  let s₁ : ShellInput := { s₀ with polls := some [] }
  let s₂ : ShellInput := { s₁ with keyboard := kbdIrq (fun _ => 0) s₁.keyboard 0x26 }
  let s₃ : ShellInput := { s₂ with keyboard := kbdIrq (fun _ => 0) s₂.keyboard 0x1C }
  have hcalled : InputStep (fun _ => 0) s₀ .called s₁ := .called rfl
  have hletter : InputStep (fun _ => 0) s₁ (.irq 0x26 0x6C) s₂ := .irq 0x26
  have hnewline : InputStep (fun _ => 0) s₂ (.irq 0x1C 0x0A) s₃ := .irq 0x1C
  have hrun : Run (InputStep fun _ => 0) s₀ [.called, .irq 0x26 0x6C, .irq 0x1C 0x0A] s₃ :=
    .cons hcalled (.cons hletter (.single hnewline))
  have hfits : EachStep (InputStep fun _ => 0) s₀ [.called, .irq 0x26 0x6C, .irq 0x1C 0x0A]
      fun t e _ => KeysFit t e := by
    refine EachStep.cons (fun t _ => trivial) fun t ht => ?_
    cases ht
    refine EachStep.cons (fun t _ _ => by decide) fun t ht => ?_
    cases ht
    exact EachStep.cons (fun t _ _ => by decide) fun t _ => EachStep.nil
  have hlines : LinesFit [0x6C, 0x0A] := by
    intro pre l post htext _
    have hlen := congrArg List.length htext
    simp only [List.length_append, List.length_cons, List.length_nil] at hlen
    omega
  have htaken : Taken s₃ [] := ⟨[], rfl, List.not_mem_nil, rfl⟩
  obtain ⟨-, -, hgoes⟩ := lines_typed ⟨_, rfl, rfl⟩ rfl hrun hfits
  obtain ⟨-, hreturns⟩ := hgoes hlines (by simp [s₃, s₂, s₁]) [] htaken
  obtain ⟨s', hlast, -⟩ := hreturns [0x6C] [] (by decide) (by decide)
  exact ⟨s₃, s', hrun, hlast⟩

end Levos.Kernel
