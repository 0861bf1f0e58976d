import Mathlib.Data.BitVec
import Mathlib.Data.List.Range

namespace Levos.Arch

/-- A cell of the video memory, and which character of the stream it shows. -/
structure Cell where
  value : BitVec 16
  source : Option Nat

/-- `struct tmpriv` and the video memory by cells, with the cells that were written so far and the number
of characters taken. -/
structure Textmode where
  video : Nat → Cell
  written : List Nat
  taken : Nat
  x : Nat
  y : Nat
  col : BitVec 32

namespace Textmode

/-- `memset16` from cell `a` on. -/
def memset16 (s : Textmode) (a : Nat) (v : BitVec 16) (n : Nat) : Textmode :=
  { s with
    video := fun i => if a ≤ i ∧ i < a + n then ⟨v, none⟩ else s.video i
    written := s.written ++ List.range' a n }

/-- `memcpy` of `n` cells that lie apart from where they go. -/
def memcpy (s : Textmode) (dest src n : Nat) : Textmode :=
  { s with
    video := fun i => if dest ≤ i ∧ i < dest + n then s.video (src + (i - dest)) else s.video i
    written := s.written ++ List.range' dest n }

/-- A space in the colour of the screen. -/
def blank (s : Textmode) : BitVec 16 := (s.col <<< 8 ||| 0x20).setWidth 16

/-- What is stored for a character, which is signed. -/
def glyph (s : Textmode) (c : BitVec 8) : BitVec 16 := (s.col <<< 8 ||| c.signExtend 32).setWidth 16

end Textmode

/-- `textmode_clear`. -/
def textmodeClear (s : Textmode) : Textmode := s.memset16 0 s.blank 2000

/-- The loop of `__textmode_scrollup` after `y` of its turns. -/
def scrolledRows (s : Textmode) : Nat → Textmode
  | 0 => s
  | y + 1 => (scrolledRows s y).memcpy (y * 80) ((y + 1) * 80) 80

/-- `__textmode_scrollup`. -/
def textmodeScrollup (s : Textmode) : Textmode := (scrolledRows s 25).memset16 (80 * 25) s.blank (80 * 2)

/-- `__textmode_putchar`. -/
def textmodePutchar (s : Textmode) (c : BitVec 8) : Textmode :=
  if c = 0 then s
  else
    let s := if 80 < s.x ∨ c = 0x0A then { s with y := s.y + 1, x := 0 } else s
    let s := if 25 ≤ s.y then { textmodeScrollup s with x := 0, y := s.y - 1 } else s
    if c = 0x0A then s
    else
      let at_ := 80 * s.y + s.x
      { s with
        video := fun i => if i = at_ then ⟨s.glyph c, some s.taken⟩ else s.video i
        written := s.written ++ [at_]
        x := s.x + 1 }

/-- The loop of `textmode_write`. -/
def putchars : List (BitVec 8) → Textmode → Textmode
  | [], s => s
  | c :: cs, s => putchars cs { textmodePutchar s c with taken := s.taken + 1 }

/-- `textmode_write`. -/
def textmodeWrite (s : Textmode) (buf : List (BitVec 8)) : Int × Textmode := (buf.length, putchars buf s)

end Levos.Arch
