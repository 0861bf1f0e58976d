import Levos.Framework.Errno
import Mathlib.Data.BitVec

namespace Levos.Drivers

def KEY_SPACE : BitVec 32 := 0x20

def KEY_RETURN : BitVec 32 := 0x0A

def KEY_ESCAPE : BitVec 32 := 0x1001

def KEY_BACKSPACE : BitVec 32 := 0x08

def KEY_F1 : BitVec 32 := 0x1201

def KEY_F2 : BitVec 32 := 0x1202

def KEY_F3 : BitVec 32 := 0x1203

def KEY_F4 : BitVec 32 := 0x1204

def KEY_F5 : BitVec 32 := 0x1205

def KEY_F6 : BitVec 32 := 0x1206

def KEY_F7 : BitVec 32 := 0x1207

def KEY_F8 : BitVec 32 := 0x1208

def KEY_F9 : BitVec 32 := 0x1209

def KEY_F10 : BitVec 32 := 0x120A

def KEY_F11 : BitVec 32 := 0x120B

def KEY_F12 : BitVec 32 := 0x120B

def KEY_QUOTE : BitVec 32 := 0x27

def KEY_BACKSLASH : BitVec 32 := 0x5C

def KEY_KP_NUMLOCK : BitVec 32 := 0x300F

def KEY_TAB : BitVec 32 := 0x4000

def KEY_CAPSLOCK : BitVec 32 := 0x4001

def KEY_LSHIFT : BitVec 32 := 0x4002

def KEY_LCTRL : BitVec 32 := 0x4003

def KEY_LALT : BitVec 32 := 0x4004

def KEY_RSHIFT : BitVec 32 := 0x4006

def KEY_RCTRL : BitVec 32 := 0x4007

def KEY_RALT : BitVec 32 := 0x4008

def KEY_HOME : BitVec 32 := 0x400C

def KEY_PAGEUP : BitVec 32 := 0x400E

def KEY_SCROLLLOCK : BitVec 32 := 0x4010

def KEY_UNKNOWN : BitVec 32 := 0x4012

/-- The key codes that are characters. -/
def keyOf (c : Char) : BitVec 32 := BitVec.ofNat 32 c.toNat

/-- `scancode_std`, as far as it goes. -/
def scancodeStd : List (BitVec 32) :=
  [KEY_UNKNOWN, KEY_ESCAPE, keyOf '1', keyOf '2', keyOf '3', keyOf '4', keyOf '5', keyOf '6',
    keyOf '7', keyOf '8', keyOf '9', keyOf '0', keyOf '-', keyOf '=', KEY_BACKSPACE, KEY_TAB,
    keyOf 'q', keyOf 'w', keyOf 'e', keyOf 'r', keyOf 't', keyOf 'y', keyOf 'u', keyOf 'i', keyOf 'o',
    keyOf 'p', keyOf '[', keyOf ']', KEY_RETURN, KEY_LCTRL, keyOf 'a', keyOf 's', keyOf 'd', keyOf 'f',
    keyOf 'g', keyOf 'h', keyOf 'j', keyOf 'k', keyOf 'l', keyOf ';', KEY_QUOTE, keyOf '`', KEY_LSHIFT,
    KEY_BACKSLASH, keyOf 'z', keyOf 'x', keyOf 'c', keyOf 'v', keyOf 'b', keyOf 'n', keyOf 'm',
    keyOf ',', keyOf '.', keyOf '/', KEY_RSHIFT, keyOf '*', KEY_RALT, KEY_SPACE, KEY_CAPSLOCK,
    KEY_F1, KEY_F2, KEY_F3, KEY_F4, KEY_F5, KEY_F6, KEY_F7, KEY_F8, KEY_F9, KEY_F10,
    KEY_KP_NUMLOCK, KEY_SCROLLLOCK, KEY_HOME, keyOf '8', KEY_PAGEUP,
    -- the codes of the keypad's middle row are left out, so that these stand six places too low
    keyOf '2', keyOf '3', keyOf '0', keyOf '.', KEY_UNKNOWN, KEY_UNKNOWN, KEY_UNKNOWN, KEY_F11, KEY_F12]

/-- The driver's variables, and the offsets from `keybuf` at which it was read or written. -/
structure Keyboard where
  keybuf : Nat → BitVec 8
  accessed : List Nat
  keyLoc : BitVec 16
  keysAvail : BitVec 8
  extended : Bool
  ctrl : Bool
  shift : Bool
  alt : Bool
  capslock : Bool

namespace Keyboard

/-- `keybuf[i]`. -/
def load (k : Keyboard) (i : Nat) : BitVec 8 × Keyboard :=
  (k.keybuf i, { k with accessed := k.accessed ++ [i] })

/-- `keybuf[i] = c`. -/
def store (k : Keyboard) (i : Nat) (c : BitVec 8) : Keyboard :=
  { k with
    keybuf := fun j => if j = i then c else k.keybuf j
    accessed := k.accessed ++ [i] }

/-- The loop of `keyboard_get_key` after `n` of its turns. -/
def movedDown (k : Keyboard) : Nat → Keyboard
  | 0 => k
  | n + 1 =>
    let loaded := (movedDown k n).load (n + 1)
    loaded.2.store n loaded.1

end Keyboard

/-- `keyboard_get_key`. -/
def keyboardGetKey (k : Keyboard) : BitVec 8 × Keyboard :=
  if k.keyLoc = 0 then (0, k)
  else
    let c := k.load 0
    let moved := { c.2 with keyLoc := c.2.keyLoc - 1 }.movedDown 256
    (c.1, { moved with keysAvail := moved.keysAvail - 1 })

/-- The loop of `kbd_read`, with the bytes that it stores in the caller's buffer. -/
def readKeys : Nat → Keyboard → List (BitVec 8) × Keyboard
  | 0, k => ([], k)
  | n + 1, k =>
    let c := keyboardGetKey k
    let rest := readKeys n c.2
    (c.1 :: rest.1, rest.2)

/-- `kbd_read`. -/
def kbdRead (k : Keyboard) (len : BitVec 32) : Int × List (BitVec 8) × Keyboard :=
  let toRead := if k.keysAvail.toNat < len.toNat then k.keysAvail.toNat else len.toNat
  (toRead, readKeys toRead k)

/-- What shift makes of the digits. -/
def shiftedDigits : List (BitVec 8 × BitVec 8) :=
  [(0x30, 0x29), (0x31, 0x21), (0x32, 0x40), (0x33, 0x21), (0x34, 0x23), (0x35, 0x25), (0x36, 0x5E),
    (0x37, 0x26), (0x38, 0x2A), (0x39, 0x28)]

/-- What shift makes of the signs. -/
def shiftedSigns : List (BitVec 8 × BitVec 8) :=
  [(0x2C, 0x3C), (0x2E, 0x3E), (0x2F, 0x3F), (0x3B, 0x3A), (0x27, 0x22), (0x5B, 0x7B), (0x5D, 0x7D),
    (0x60, 0x7E), (0x2D, 0x5F), (0x2B, 0x3D), (0x5C, 0x7C)]

/-- `keyboard_to_ascii`. -/
def keyboardToAscii (k : Keyboard) (key : BitVec 8) : BitVec 8 :=
  if key = 0 then 0
  else
    let key := if (k.shift || k.capslock) = true ∧ 0x61 ≤ key ∧ key ≤ 0x7A then key - 32 else key
    if (k.shift && !k.capslock) = true then
      if 0x30 ≤ key ∧ key ≤ 0x39 then (shiftedDigits.lookup key).getD key
      else (shiftedSigns.lookup key).getD key
    else key

/-- `parse_keycode`. The table ends before the codes do; `behind` is what stands behind it. -/
def parseKeycode (behind : Nat → BitVec 32) (k : Keyboard) (code : BitVec 8) : BitVec 8 × Keyboard :=
  if code = 0xE0 ∨ code = 0xE1 then (0, { k with extended := true })
  else
    let k := { k with extended := false }
    let i := code.toNat % 0x80
    let key := scancodeStd.getD i (behind (i - scancodeStd.length))
    let down : Bool := code.toNat < 0x80
    if key = KEY_LCTRL ∨ key = KEY_RCTRL then (0, { k with ctrl := down })
    else if key = KEY_LSHIFT ∨ key = KEY_RSHIFT then (0, { k with shift := down })
    else if key = KEY_LALT ∨ key = KEY_RALT then (0, { k with alt := down })
    else if down = false then (0, k)
    else if key = KEY_CAPSLOCK then (0, { k with capslock := !k.capslock })
    else (key.setWidth 8, k)

/-- The character that `kbd_irq` makes of the code it reads, 0 where there is none. -/
def accepts (behind : Nat → BitVec 32) (k : Keyboard) (code : BitVec 8) : BitVec 8 :=
  let parsed := parseKeycode behind k code
  keyboardToAscii parsed.2 parsed.1

/-- `kbd_irq`. -/
def kbdIrq (behind : Nat → BitVec 32) (k : Keyboard) (code : BitVec 8) : Keyboard :=
  let c := accepts behind k code
  let k := (parseKeycode behind k code).2
  if c = 0 then k
  else
    let stored := k.store k.keyLoc.toNat c
    { stored with keyLoc := k.keyLoc + 1, keysAvail := k.keysAvail + 1 }

/-- The driver once it has its buffer, with whatever stands there. -/
def Keyboard.fresh (keybuf : Nat → BitVec 8) : Keyboard :=
  ⟨keybuf, [], 0, 0, false, false, false, false, false⟩

/-- `keyboard_init`, with what `kmalloc` answers. -/
def keyboardInit : Option (Nat → BitVec 8) → Int × Option Keyboard
  | none => (-ENOMEM, none)
  | some keybuf => (0, some (.fresh keybuf))

end Levos.Drivers
