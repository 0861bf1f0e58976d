import Levos.Drivers.Keyboard
import Levos.Framework.Run
import Mathlib.Logic.Function.Basic

namespace Levos.Drivers

open Levos.Framework

/-- What stands in front of a code. -/
inductive Mark
  | plain
  | e0
  | e1
  deriving DecidableEq

/-- A key, as its codes tell it from the others: by the byte in front of them and their low seven
bits. -/
structure Key where
  mark : Mark
  code : Nat
  deriving DecidableEq

def capsLock : Key := ⟨.plain, 0x3A⟩

/-- What the codes so far say of the keys: which are down, and how often caps lock was pressed. -/
structure Typing where
  mark : Mark
  held : Key → Bool
  capsPresses : Nat

namespace Typing

/-- All keys are up. -/
def start : Typing := ⟨.plain, fun _ => false, 0⟩

def key (s : Typing) (code : BitVec 8) : Key := ⟨s.mark, code.toNat % 0x80⟩

def next (s : Typing) (code : BitVec 8) : Typing :=
  if code = 0xE0 then { s with mark := .e0 }
  else if code = 0xE1 then { s with mark := .e1 }
  else
    { mark := .plain
      held := Function.update s.held (s.key code) (code.toNat < 0x80)
      capsPresses :=
        if s.key code = capsLock ∧ code.toNat < 0x80 then s.capsPresses + 1 else s.capsPresses }

/-- A key is pressed when it is up, and released when it is down. -/
def Alternates (s : Typing) (code : BitVec 8) : Prop :=
  code ≠ 0xE0 → code ≠ 0xE1 → (code.toNat < 0x80 ↔ s.held (s.key code) = false)

end Typing

inductive Modifier
  | shift
  | ctrl
  | alt

namespace Modifier

/-- The two keys that share a flag. -/
def keys : Modifier → List Key
  | shift => [⟨.plain, 0x2A⟩, ⟨.plain, 0x36⟩]
  | ctrl => [⟨.plain, 0x1D⟩, ⟨.e0, 0x1D⟩]
  | alt => [⟨.plain, 0x38⟩, ⟨.e0, 0x38⟩]

def codes (m : Modifier) : List Nat := m.keys.map Key.code

def flag (k : Keyboard) : Modifier → Bool
  | shift => k.shift
  | ctrl => k.ctrl
  | alt => k.alt

/-- One of the two keys is down. -/
def Down (m : Modifier) (s : Typing) : Prop := ∃ key ∈ m.keys, s.held key = true

end Modifier

/-- The driver's variables are what the codes so far say of the keys. -/
structure FlagsRight (k : Keyboard) (s : Typing) : Prop where
  modifiers : ∀ m : Modifier, m.flag k = true ↔ m.Down s
  capslock : k.capslock = decide (s.capsPresses % 2 = 1)

/-- Nothing that stands behind `scancode_std` has a say in what becomes of the code. -/
def LooksInside (code : BitVec 8) : Prop :=
  ∀ behind behind' k, parseKeycode behind k code = parseKeycode behind' k code

/-- The code has an entry in `scancode_std`. At a code of a modifier one of its two keys is down then
if it is pressed, and none if it is released; and at a press of caps lock no byte stands in front. -/
structure Typing.Meets (s : Typing) (code : BitVec 8) : Prop where
  entry : code.toNat % 0x80 < scancodeStd.length
  modifiers : ∀ m : Modifier, code.toNat % 0x80 ∈ m.codes → (code.toNat < 0x80 ↔ m.Down (s.next code))
  capslock : code.toNat = 0x3A → s.mark = .plain

/-- One byte from the keyboard. -/
def TypeStep (behind : Nat → BitVec 32) (t : Keyboard × Typing) (code : BitVec 8)
    (t' : Keyboard × Typing) : Prop := t' = ((parseKeycode behind t.1 code).2, t.2.next code)

/-- The driver and the keys after some bytes. -/
def typed (behind : Nat → BitVec 32) (t : Keyboard × Typing) : List (BitVec 8) → Keyboard × Typing
  | [] => t
  | code :: codes => typed behind ((parseKeycode behind t.1 code).2, t.2.next code) codes

theorem run_typed (behind : Nat → BitVec 32) (t : Keyboard × Typing) (codes : List (BitVec 8)) :
    Run (TypeStep behind) t codes (typed behind t codes) := by
  induction codes generalizing t with
  | nil => exact .nil t
  | cons code codes ih => exact .cons rfl (ih _)

section Table

/-- The entries that are looked for, and where they stand. -/
theorem scancodeStd_entries : ∀ i < scancodeStd.length,
    ((scancodeStd.getD i 0 = KEY_LCTRL ∨ scancodeStd.getD i 0 = KEY_RCTRL) ↔ i ∈ Modifier.ctrl.codes) ∧
    ((scancodeStd.getD i 0 = KEY_LSHIFT ∨ scancodeStd.getD i 0 = KEY_RSHIFT) ↔ i ∈ Modifier.shift.codes) ∧
    ((scancodeStd.getD i 0 = KEY_LALT ∨ scancodeStd.getD i 0 = KEY_RALT) ↔ i ∈ Modifier.alt.codes) ∧
    (scancodeStd.getD i 0 = KEY_CAPSLOCK ↔ i = 0x3A) := by
  decide +kernel

theorem getD_inside {i : Nat} (hi : i < scancodeStd.length) (d : BitVec 32) :
    scancodeStd.getD i d = scancodeStd.getD i 0 := by
  rw [List.getD_eq_getElem?_getD, List.getD_eq_getElem?_getD, List.getElem?_eq_getElem hi]
  rfl

theorem mem_codes (m : Modifier) (i : Nat) :
    i ∈ m.codes ↔ match m with
      | .shift => i = 0x2A ∨ i = 0x36
      | .ctrl => i = 0x1D
      | .alt => i = 0x38 := by
  cases m <;> simp [Modifier.codes, Modifier.keys]

/-- No code is one of two modifiers, and caps lock is none. -/
theorem codes_apart {m m' : Modifier} {i : Nat} (h : i ∈ m.codes) (h' : i ∈ m'.codes) :
    m = m' ∧ i ≠ 0x3A := by
  rw [mem_codes] at h h'
  cases m <;> cases m' <;> simp only [reduceCtorEq, false_and, true_and] <;> omega

variable {behind : Nat → BitVec 32} {k : Keyboard} {code : BitVec 8}

/-- A code of a modifier sets its flag or clears it. -/
theorem parseKeycode_modifier (hmark : ¬(code = 0xE0 ∨ code = 0xE1)) {m : Modifier}
    (hi : code.toNat % 0x80 < scancodeStd.length) (hm : code.toNat % 0x80 ∈ m.codes) :
    (parseKeycode behind k code).2 = match m with
      | .shift => { k with extended := false, shift := decide (code.toNat < 0x80) }
      | .ctrl => { k with extended := false, ctrl := decide (code.toNat < 0x80) }
      | .alt => { k with extended := false, alt := decide (code.toNat < 0x80) } := by
  obtain ⟨hctrl, hshift, halt, hcaps⟩ := scancodeStd_entries _ hi
  have hother (m' : Modifier) (hne : m' ≠ m) : code.toNat % 0x80 ∉ m'.codes :=
    fun h' => hne (codes_apart h' hm).1
  simp only [parseKeycode, if_neg hmark, getD_inside hi, hctrl, hshift, halt]
  cases m with
  | shift => rw [if_neg (hother .ctrl (by simp)), if_pos hm]
  | ctrl => rw [if_pos hm]
  | alt => rw [if_neg (hother .ctrl (by simp)), if_neg (hother .shift (by simp)), if_pos hm]

/-- Any other code has nothing to do with the flags, but for a press of caps lock. -/
theorem parseKeycode_other (hmark : ¬(code = 0xE0 ∨ code = 0xE1))
    (hi : code.toNat % 0x80 < scancodeStd.length) (hm : ∀ m : Modifier, code.toNat % 0x80 ∉ m.codes) :
    (parseKeycode behind k code).2 =
      { k with extended := false, capslock := if code.toNat = 0x3A then !k.capslock else k.capslock } := by
  obtain ⟨hctrl, hshift, halt, hcaps⟩ := scancodeStd_entries _ hi
  have hlt := code.isLt
  simp only [parseKeycode, if_neg hmark, getD_inside hi, hctrl, hshift, halt, hcaps, if_neg (hm _)]
  by_cases hdown : code.toNat < 0x80
  · have hmod : code.toNat % 0x80 = code.toNat := Nat.mod_eq_of_lt hdown
    rw [if_neg (by simpa using hdown), hmod]
    by_cases hcaps : code.toNat = 0x3A
    · rw [if_pos hcaps, if_pos hcaps]
    · rw [if_neg hcaps, if_neg hcaps]
  · rw [if_pos (by simpa using hdown), if_neg (by omega)]

/-- What becomes of the flags at a code with an entry. -/
theorem parseKeycode_flags (behind : Nat → BitVec 32) (k : Keyboard) (hmark : ¬(code = 0xE0 ∨ code = 0xE1))
    (hi : code.toNat % 0x80 < scancodeStd.length) :
    (∀ m : Modifier, m.flag (parseKeycode behind k code).2 =
      if code.toNat % 0x80 ∈ m.codes then decide (code.toNat < 0x80) else m.flag k) ∧
    (parseKeycode behind k code).2.capslock = if code.toNat = 0x3A then !k.capslock else k.capslock := by
  by_cases hany : ∃ m : Modifier, code.toNat % 0x80 ∈ m.codes
  · obtain ⟨m, hm⟩ := hany
    have hcaps : code.toNat ≠ 0x3A := by
      intro h
      rw [h] at hm
      exact (codes_apart hm hm).2 rfl
    rw [parseKeycode_modifier hmark hi hm, if_neg hcaps]
    constructor
    · intro m'
      by_cases hm' : code.toNat % 0x80 ∈ m'.codes
      · obtain ⟨rfl, -⟩ := codes_apart hm' hm
        rw [if_pos hm']
        cases m' <;> rfl
      · have hne : m' ≠ m := fun h => hm' (h ▸ hm)
        rw [if_neg hm']
        cases m <;> cases m' <;> first | rfl | exact absurd rfl hne
    · cases m <;> rfl
  · have hnone (m : Modifier) : code.toNat % 0x80 ∉ m.codes := fun hm => hany ⟨m, hm⟩
    rw [parseKeycode_other hmark hi hnone]
    refine ⟨?_, rfl⟩
    intro m
    rw [if_neg (hnone m)]
    cases m <;> rfl

/-- What stands behind the table is looked at exactly where a code has no entry in it. -/
theorem looksInside_iff :
    LooksInside code ↔ (code = 0xE0 ∨ code = 0xE1) ∨ code.toNat % 0x80 < scancodeStd.length := by
  constructor
  · intro hlooks
    by_contra hnot
    obtain ⟨hmark, hi⟩ := not_or.mp hnot
    have hbehind (d : BitVec 32) : scancodeStd.getD (code.toNat % 0x80) d = d := by
      rw [List.getD_eq_getElem?_getD, List.getElem?_eq_none (Nat.not_lt.mp hi)]
      rfl
    -- the table could go on with a control key, or with none
    let k : Keyboard := { Keyboard.fresh (fun _ => 0) with ctrl := !decide (code.toNat < 0x80) }
    have hsame := hlooks (fun _ => KEY_LCTRL) (fun _ => KEY_UNKNOWN) k
    have hctrl : (parseKeycode (fun _ => KEY_LCTRL) k code).2.ctrl = decide (code.toNat < 0x80) := by
      simp only [parseKeycode, if_neg hmark, hbehind, true_or, if_true]
    have hnone : (parseKeycode (fun _ => KEY_UNKNOWN) k code).2.ctrl = !decide (code.toNat < 0x80) := by
      have hunknown : ¬(KEY_UNKNOWN = KEY_LCTRL ∨ KEY_UNKNOWN = KEY_RCTRL) := by decide
      simp only [parseKeycode, if_neg hmark, hbehind, if_neg hunknown]
      split_ifs <;> rfl
    rw [hsame, hnone] at hctrl
    simp at hctrl
  · intro hin behind behind' k
    by_cases hmark : code = 0xE0 ∨ code = 0xE1
    · simp only [parseKeycode, if_pos hmark]
    · simp only [parseKeycode, if_neg hmark, getD_inside (hin.resolve_left hmark)]

/-- The decimal point of the keypad, which the table has six places too low. -/
example : ¬LooksInside 0x53 := fun h => absurd (looksInside_iff.mp h) (by decide)

end Table

section Steps

variable {behind : Nat → BitVec 32} {k : Keyboard} {s : Typing} {code : BitVec 8}

theorem next_mark (hmark : code = 0xE0 ∨ code = 0xE1) :
    (s.next code).held = s.held ∧ (s.next code).capsPresses = s.capsPresses := by
  rw [Typing.next]
  by_cases hfirst : code = 0xE0
  · rw [if_pos hfirst]
    exact ⟨rfl, rfl⟩
  · rw [if_neg hfirst, if_pos (hmark.resolve_left hfirst)]
    exact ⟨rfl, rfl⟩

theorem next_held (hmark : ¬(code = 0xE0 ∨ code = 0xE1)) :
    (s.next code).held = Function.update s.held (s.key code) (code.toNat < 0x80) := by
  obtain ⟨h0, h1⟩ := not_or.mp hmark
  rw [Typing.next, if_neg h0, if_neg h1]

/-- A code that is none of a modifier leaves its keys as they were. -/
theorem down_next_other (hmark : ¬(code = 0xE0 ∨ code = 0xE1)) {m : Modifier}
    (hm : code.toNat % 0x80 ∉ m.codes) : m.Down (s.next code) ↔ m.Down s := by
  have hkey (key : Key) (hkeys : key ∈ m.keys) : (s.next code).held key = s.held key := by
    rw [next_held hmark]
    apply Function.update_of_ne
    intro heq
    apply hm
    rw [Modifier.codes, List.mem_map]
    exact ⟨key, hkeys, by rw [heq]; rfl⟩
  constructor
  · intro hdown
    obtain ⟨key, hkeys, hheld⟩ := hdown
    exact ⟨key, hkeys, (hkey key hkeys).symm.trans hheld⟩
  · intro hdown
    obtain ⟨key, hkeys, hheld⟩ := hdown
    exact ⟨key, hkeys, (hkey key hkeys).trans hheld⟩

theorem next_capsPresses (hmark : ¬(code = 0xE0 ∨ code = 0xE1)) :
    (s.next code).capsPresses =
      if s.mark = .plain ∧ code.toNat = 0x3A then s.capsPresses + 1 else s.capsPresses := by
  obtain ⟨h0, h1⟩ := not_or.mp hmark
  have hcaps : (s.key code = capsLock ∧ code.toNat < 0x80) ↔ s.mark = .plain ∧ code.toNat = 0x3A := by
    rw [Typing.key, capsLock, Key.mk.injEq]
    constructor
    · intro h
      exact ⟨h.1.1, by omega⟩
    · intro h
      exact ⟨⟨h.1, by omega⟩, by omega⟩
  rw [Typing.next, if_neg h0, if_neg h1]
  simp only [hcaps]

/-- The flags stay right exactly at a code that meets the condition. -/
theorem FlagsRight.next_iff (h : FlagsRight k s) (hmark : ¬(code = 0xE0 ∨ code = 0xE1))
    (hi : code.toNat % 0x80 < scancodeStd.length) :
    FlagsRight (parseKeycode behind k code).2 (s.next code) ↔ s.Meets code := by
  obtain ⟨hflags, hcaps⟩ := parseKeycode_flags behind k hmark hi
  have hpresses := next_capsPresses (s := s) hmark
  constructor
  · intro hright
    refine ⟨hi, ?_, ?_⟩
    · intro m hm
      have hflag := hright.modifiers m
      rwa [hflags, if_pos hm, decide_eq_true_eq] at hflag
    · intro hcode
      by_contra hplain
      have hlock := hright.capslock
      rw [hcaps, if_pos hcode, hpresses, if_neg fun hboth => hplain hboth.1, h.capslock] at hlock
      simp at hlock
  · intro hmeets
    refine ⟨?_, ?_⟩
    · intro m
      rw [hflags]
      by_cases hm : code.toNat % 0x80 ∈ m.codes
      · rw [if_pos hm, decide_eq_true_eq]
        exact hmeets.modifiers m hm
      · rw [if_neg hm, down_next_other hmark hm]
        exact h.modifiers m
    · rw [hcaps, hpresses]
      by_cases hcode : code.toNat = 0x3A
      · rw [if_pos hcode, if_pos ⟨hmeets.capslock hcode, hcode⟩, h.capslock, ← decide_not,
          decide_eq_decide]
        omega
      · rw [if_neg hcode, if_neg fun hboth => hcode hboth.2]
        exact h.capslock

/-- A byte in front of a code leaves the flags alone. -/
theorem FlagsRight.next_mark (h : FlagsRight k s) (hmark : code = 0xE0 ∨ code = 0xE1) :
    FlagsRight (parseKeycode behind k code).2 (s.next code) := by
  obtain ⟨hheld, hpresses⟩ := Drivers.next_mark (s := s) hmark
  simp only [parseKeycode, if_pos hmark]
  refine ⟨?_, ?_⟩
  · intro m
    rw [Modifier.Down, hheld]
    exact h.modifiers m
  · rw [hpresses]
    exact h.capslock

end Steps

/-- From all keys up, whatever bytes come, the driver's variables say which of the modifiers are down
and how often caps lock was pressed, and every lookup is in the table, exactly as long as each code
meets the condition. -/
theorem modifiers_right_iff (behind : Nat → BitVec 32) (keybuf : Nat → BitVec 8)
    (codes : List (BitVec 8)) :
    AtEveryPoint (TypeStep behind) (.fresh keybuf, .start) codes (fun pre t =>
      FlagsRight t.1 t.2 ∧ ∀ code ∈ pre, LooksInside code) ↔
    EachStep (TypeStep behind) (.fresh keybuf, .start) codes fun t code _ =>
      code ≠ 0xE0 → code ≠ 0xE1 → t.2.Meets code := by
  apply atEveryPoint_iff
  · refine ⟨⟨?_, rfl⟩, by simp⟩
    intro m
    cases m <;> simp [Modifier.flag, Keyboard.fresh, Modifier.Down, Typing.start]
  · intro pre code t t' hbefore hstep
    obtain ⟨hflags, hlooks⟩ := hbefore
    rw [hstep]
    have hall : (∀ c ∈ pre ++ [code], LooksInside c) ↔ LooksInside code := by
      simp only [List.mem_append, List.mem_singleton, or_imp, forall_and, forall_eq]
      exact and_iff_right hlooks
    rw [hall, looksInside_iff]
    by_cases hmark : code = 0xE0 ∨ code = 0xE1
    · apply iff_of_true
      · exact ⟨hflags.next_mark hmark, .inl hmark⟩
      · intro h0 h1
        exact absurd hmark (not_or.mpr ⟨h0, h1⟩)
    · obtain ⟨h0, h1⟩ := not_or.mp hmark
      rw [or_iff_right hmark]
      constructor
      · intro hright _ _
        exact (hflags.next_iff hmark hright.2).mp hright.1
      · intro hmeets
        have hmeets' := hmeets h0 h1
        exact ⟨(hflags.next_iff hmark hmeets'.entry).mpr hmeets', hmeets'.entry⟩

/-- Both shift keys are pressed and the left one is released: the flag is clear with the right one
down. -/
theorem shift_half_released :
    EachLabel (TypeStep fun _ => 0) (.fresh fun _ => 0, .start) [0x2A, 0x36, 0xAA]
      (fun t code => t.2.Alternates code) ∧
    ¬AtEveryPoint (TypeStep fun _ => 0) (.fresh fun _ => 0, .start) [0x2A, 0x36, 0xAA] (fun pre t =>
      FlagsRight t.1 t.2 ∧ ∀ code ∈ pre, LooksInside code) := by
  constructor
  · refine EachLabel.cons (fun _ _ => by decide) ?_
    intro t₁ h1
    rw [h1]
    refine EachLabel.cons (fun _ _ => by decide) ?_
    intro t₂ h2
    rw [h2]
    exact EachLabel.cons (fun _ _ => by decide) fun _ _ => EachLabel.nil
  · intro hall
    obtain ⟨t, ht⟩ : ∃ t, t = typed (fun _ => 0) (.fresh fun _ => 0, .start) [0x2A, 0x36, 0xAA] := ⟨_, rfl⟩
    have hright := (hall [0x2A, 0x36, 0xAA] [] t rfl (ht ▸ run_typed ..)).1
    rw [ht] at hright
    have hdown := (hright.modifiers .shift).mpr ⟨⟨.plain, 0x36⟩, by decide, by decide⟩
    exact absurd hdown (by decide)

end Levos.Drivers
