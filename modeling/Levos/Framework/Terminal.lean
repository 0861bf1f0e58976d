import Mathlib.Data.Nat.Notation

namespace Levos.Framework

/-- A terminal, with the place where its next character goes. -/
structure Terminal (α : Type*) where
  cell : Nat → Nat → α
  row : Nat
  column : Nat

namespace Terminal

variable {α : Type*}

def cleared (blank : α) : Terminal α := ⟨fun _ _ => blank, 0, 0⟩

/-- The next character goes to the beginning of the next row. Behind the last row all rows move up, and
leave a blank one. -/
def nextLine (height : Nat) (blank : α) (t : Terminal α) : Terminal α :=
  if t.row + 1 < height then { t with row := t.row + 1, column := 0 }
  else { t with
    cell := fun r c => if r + 1 < height then t.cell (r + 1) c else blank
    column := 0 }

/-- A character goes behind the last one, to the next line where the row is full. -/
def put (height width : Nat) (blank a : α) (t : Terminal α) : Terminal α :=
  let t := if t.column < width then t else t.nextLine height blank
  { t with
    cell := fun r c => if r = t.row ∧ c = t.column then a else t.cell r c
    column := t.column + 1 }

variable {height width : Nat} {blank a : α} {t : Terminal α}

theorem nextLine_of_lt (h : t.row + 1 < height) :
    t.nextLine height blank = ⟨t.cell, t.row + 1, 0⟩ := if_pos h

/-- In a row with room a character goes behind the last one. -/
theorem put_of_lt (h : t.column < width) :
    t.put height width blank a =
      ⟨fun r c => if r = t.row ∧ c = t.column then a else t.cell r c, t.row, t.column + 1⟩ := by
  simp [put, h]

/-- Behind a full row a character begins the next one. -/
theorem put_of_full (h : ¬t.column < width) (hrow : t.row + 1 < height) :
    t.put height width blank a =
      ⟨fun r c => if r = t.row + 1 ∧ c = 0 then a else t.cell r c, t.row + 1, 1⟩ := by
  simp [put, h, nextLine_of_lt hrow]

end Terminal

end Levos.Framework
