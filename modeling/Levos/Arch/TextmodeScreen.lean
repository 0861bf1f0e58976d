import Levos.Arch.Textmode
import Levos.Framework.Run
import Levos.Framework.Terminal

namespace Levos.Arch

open Levos.Framework

/-- A character as a cell in a colour. -/
def shown (attr c : BitVec 8) : BitVec 16 := attr ++ c

/-- A terminal of 80 columns and 25 rows takes a character; it ignores NUL. -/
def takes (attr : BitVec 8) (t : Terminal (BitVec 16)) (c : BitVec 8) : Terminal (BitVec 16) :=
  if c = 0 then t
  else if c = 0x0A then t.nextLine 25 (shown attr 0x20)
  else t.put 25 80 (shown attr 0x20) (shown attr c)

/-- The terminal after a stream of characters. -/
def reference (col : BitVec 32) (cs : List (BitVec 8)) : Terminal (BitVec 16) :=
  cs.foldl (takes (col.setWidth 8)) (.cleared (shown (col.setWidth 8) 0x20))

def Printable (c : BitVec 8) : Prop := c ≠ 0 ∧ c ≠ 0x0A

instance (c : BitVec 8) : Decidable (Printable c) := inferInstanceAs (Decidable (_ ∧ _))

/-- After a stream of characters only cells of the screen were written, the screen shows what the
terminal does, and the last character did not go over the one before it on its line. -/
structure Shows (col : BitVec 32) (cs : List (BitVec 8)) (s : Textmode) : Prop where
  inside : ∀ i ∈ s.written, i < 2000
  visible : ∀ i < 2000, (s.video i).value = (reference col cs).cell (i / 80) (i % 80)
  kept : ∀ pre c n d, cs = pre ++ c :: List.replicate n 0 ++ [d] → Printable c → Printable d →
    ∃ i < 2000, (s.video i).source = some pre.length

/-- A call of `textmode_write`. -/
def Wrote (s : Textmode) (buf : List (BitVec 8)) (s' : Textmode) : Prop := (textmodeWrite s buf).2 = s'

/-- A character finds at most 80 others on its line. A newline finds a row below its own. Any other
character is below 0x80 and goes to a cell of the screen. -/
def Meets (s : Textmode) (c : BitVec 8) : Prop :=
  c ≠ 0 → s.x ≤ 80 ∧ if c = 0x0A then s.y < 24 else c < 0x80 ∧ 80 * s.y + s.x < 2000

instance (s : Textmode) (c : BitVec 8) : Decidable (Meets s c) :=
  inferInstanceAs (Decidable (c ≠ 0 → s.x ≤ 80 ∧ if c = 0x0A then _ else _))

/-- Every character of a write meets the condition. -/
def Fits : Textmode → List (BitVec 8) → Prop
  | _, [] => True
  | s, c :: cs => Meets s c ∧ Fits { textmodePutchar s c with taken := s.taken + 1 } cs

instance Fits.decidable : (s : Textmode) → (buf : List (BitVec 8)) → Decidable (Fits s buf)
  | _, [] => isTrue trivial
  | s, c :: cs =>
    have := Fits.decidable { textmodePutchar s c with taken := s.taken + 1 } cs
    inferInstanceAs (Decidable (_ ∧ _))

/-- The screen before any character, with whatever stands in the video memory. -/
def cleared (video : Nat → Cell) (col : BitVec 32) : Textmode := textmodeClear ⟨video, [], 0, 0, 0, col⟩

section Cells

variable {s : Textmode} {c : BitVec 8}

/-- Characters below 0x80 are stored in the colour of the screen. -/
theorem glyph_eq (h : c < 0x80) : s.glyph c = shown (s.col.setWidth 8) c := by
  have hpos : c.msb = false := by
    rw [BitVec.msb_eq_decide, decide_eq_false_iff_not, Nat.not_le]
    exact h
  rw [Textmode.glyph, BitVec.signExtend_eq_setWidth_of_msb_false hpos, shown]
  apply BitVec.eq_of_getLsbD_eq
  intro i hi
  simp only [BitVec.getLsbD_setWidth, BitVec.getLsbD_or, BitVec.getLsbD_shiftLeft, BitVec.getLsbD_append]
  grind

theorem blank_eq : s.blank = shown (s.col.setWidth 8) 0x20 := glyph_eq (s := s) (c := 0x20) (by decide)

theorem putchar_newline (h : s.y < 24) : textmodePutchar s 0x0A = { s with y := s.y + 1, x := 0 } := by
  have hrow : ¬25 ≤ s.y + 1 := by omega
  simp [textmodePutchar, hrow]

theorem putchar_printable (hc : Printable c) (hx : s.x ≤ 80) (hy : s.y < 25) :
    textmodePutchar s c = { s with
      video := fun i => if i = 80 * s.y + s.x then ⟨s.glyph c, some s.taken⟩ else s.video i
      written := s.written ++ [80 * s.y + s.x]
      x := s.x + 1 } := by
  have hwrap : ¬(80 < s.x ∨ c = 0x0A) := by
    rintro (hlt | hnl)
    · omega
    · exact hc.2 hnl
  simp only [textmodePutchar, if_neg hc.1, if_neg hwrap, if_neg (Nat.not_le.mpr hy), if_neg hc.2]

/-- Whatever moves the screen up also writes behind it. -/
theorem putchar_scroll (hc : c ≠ 0) (hwrap : 80 < s.x ∨ c = 0x0A) (hy : 24 ≤ s.y) :
    2000 ∈ (textmodePutchar s c).written := by
  have hrow : 25 ≤ s.y + 1 := by omega
  have hscroll (t : Textmode) : 2000 ∈ (textmodeScrollup t).written := by
    simp [textmodeScrollup, Textmode.memset16]
  simp only [textmodePutchar, if_neg hc, if_pos hwrap, if_pos hrow]
  split_ifs
  · exact hscroll _
  · exact List.mem_append_left _ (hscroll _)

end Cells

/-- What a stream of characters leaves: besides what is seen, where the next character goes. A line of
81 characters has the cursor behind its row; the terminal's is in the next one. -/
structure Follows (col : BitVec 32) (cs : List (BitVec 8)) (s : Textmode) : Prop
    extends Shows col cs s where
  cursor : s.x ≤ 80 → (reference col cs).row = s.y ∧ (reference col cs).column = s.x
  rows : s.y < 25
  colour : s.col = col
  taken : s.taken = cs.length
  last : ∀ pre c n, cs = pre ++ c :: List.replicate n 0 → Printable c →
    0 < s.x ∧ 80 * s.y + s.x ≤ 2000 ∧ (s.video (80 * s.y + s.x - 1)).source = some pre.length

section Steps

variable {col : BitVec 32} {cs : List (BitVec 8)} {s : Textmode} {c : BitVec 8}

theorem reference_snoc : reference col (cs ++ [c]) = takes (col.setWidth 8) (reference col cs) c := by
  simp [reference]

/-- The last character but for NULs, with one more behind it. -/
theorem last_cases {pre : List (BitVec 8)} {d : BitVec 8} {n : Nat}
    (h : cs ++ [c] = pre ++ d :: List.replicate n 0) :
    cs = pre ∧ c = d ∨ c = 0 ∧ ∃ m, cs = pre ++ d :: List.replicate m 0 := by
  cases n with
  | zero =>
    obtain ⟨hcs, hc⟩ := List.append_inj' h rfl
    exact .inl ⟨hcs, List.head_eq_of_cons_eq hc⟩
  | succ m =>
    rw [List.replicate_succ', ← List.cons_append, ← List.append_assoc] at h
    obtain ⟨hcs, hc⟩ := List.append_inj' h rfl
    exact .inr ⟨List.head_eq_of_cons_eq hc, m, hcs⟩

theorem Follows.nul (h : Follows col cs s) :
    Follows col (cs ++ [0]) { s with taken := s.taken + 1 } := by
  have href : reference col (cs ++ [0]) = reference col cs := by simp [reference_snoc, takes]
  refine ⟨⟨h.inside, ?_, ?_⟩, ?_, h.rows, h.colour, by simp [h.taken], ?_⟩
  · rw [href]
    exact h.visible
  · intro pre d n d' heq hd hd'
    obtain ⟨-, hzero⟩ := List.append_inj' heq rfl
    exact absurd (List.head_eq_of_cons_eq hzero).symm hd'.1
  · rw [href]
    exact h.cursor
  · intro pre d n heq hd
    rcases last_cases heq with ⟨-, hzero⟩ | ⟨-, m, hcs⟩
    · exact absurd hzero.symm hd.1
    · exact h.last pre d m hcs hd

theorem Follows.newline (h : Follows col cs s) (hx : s.x ≤ 80) (hy : s.y < 24) :
    Follows col (cs ++ [0x0A]) { s with y := s.y + 1, x := 0, taken := s.taken + 1 } := by
  obtain ⟨hrow, hcolumn⟩ := h.cursor hx
  have href : reference col (cs ++ [0x0A]) = ⟨(reference col cs).cell, s.y + 1, 0⟩ := by
    have hlt : (reference col cs).row + 1 < 25 := by omega
    simp [reference_snoc, takes, Terminal.nextLine_of_lt hlt, hrow]
  have hlast {d : BitVec 8} (hd : Printable d) : (0x0A : BitVec 8) ≠ d := fun heq => hd.2 heq.symm
  refine ⟨⟨h.inside, ?_, ?_⟩, ?_, Nat.succ_lt_succ hy, h.colour, by simp [h.taken], ?_⟩
  · rw [href]
    exact h.visible
  · intro pre d n d' heq hd hd'
    obtain ⟨-, hnl⟩ := List.append_inj' heq rfl
    exact absurd (List.head_eq_of_cons_eq hnl) (hlast hd')
  · rw [href]
    exact fun _ => ⟨rfl, rfl⟩
  · intro pre d n heq hd
    rcases last_cases heq with ⟨-, hnl⟩ | ⟨hzero, -⟩
    · exact absurd hnl (hlast hd)
    · exact absurd hzero (by decide)

/-- The terminal puts a character in the cell that stands next in the video memory. -/
theorem reference_printable (h : Follows col cs s) (hc : Printable c) (hx : s.x ≤ 80)
    (hcell : 80 * s.y + s.x < 2000) :
    (∀ i < 2000, (reference col (cs ++ [c])).cell (i / 80) (i % 80) =
      if i = 80 * s.y + s.x then shown (col.setWidth 8) c
      else (reference col cs).cell (i / 80) (i % 80)) ∧
    (s.x + 1 ≤ 80 → (reference col (cs ++ [c])).row = s.y ∧
      (reference col (cs ++ [c])).column = s.x + 1) := by
  obtain ⟨hrow, hcolumn⟩ := h.cursor hx
  rw [reference_snoc, takes, if_neg hc.1, if_neg hc.2]
  by_cases hlt : s.x < 80
  · have hroom : (reference col cs).column < 80 := by omega
    rw [Terminal.put_of_lt hroom, hrow, hcolumn]
    refine ⟨?_, fun _ => ⟨rfl, rfl⟩⟩
    intro i hi
    have hat : i / 80 = s.y ∧ i % 80 = s.x ↔ i = 80 * s.y + s.x := by omega
    simp only [hat]
  · have hfull : ¬(reference col cs).column < 80 := by omega
    rw [Terminal.put_of_full hfull (by omega), hrow]
    refine ⟨?_, fun hle => absurd hle (by omega)⟩
    intro i hi
    have hat : i / 80 = s.y + 1 ∧ i % 80 = 0 ↔ i = 80 * s.y + s.x := by omega
    simp only [hat]

theorem Follows.printable (h : Follows col cs s) (hc : Printable c) (hx : s.x ≤ 80) (hlow : c < 0x80)
    (hcell : 80 * s.y + s.x < 2000) :
    Follows col (cs ++ [c]) { textmodePutchar s c with taken := s.taken + 1 } := by
  obtain ⟨hcells, hcursor⟩ := reference_printable h hc hx hcell
  rw [putchar_printable hc hx h.rows]
  refine ⟨⟨?_, ?_, ?_⟩, hcursor, h.rows, h.colour, by simp [h.taken], ?_⟩
  · intro i hi
    rcases List.mem_append.mp hi with hold | hnew
    · exact h.inside i hold
    · rwa [List.mem_singleton.mp hnew]
  · intro i hi
    rw [hcells i hi, ← h.visible i hi, glyph_eq hlow, h.colour]
    exact apply_ite Cell.value _ _ _
  · -- the character before stands in the cell before
    intro pre d n d' heq hd hd'
    obtain ⟨hcs, -⟩ := List.append_inj' heq rfl
    obtain ⟨hpos, hle, hsource⟩ := h.last pre d n hcs hd
    refine ⟨80 * s.y + s.x - 1, by omega, ?_⟩
    have hne : 80 * s.y + s.x - 1 ≠ 80 * s.y + s.x := by omega
    simp only [if_neg hne]
    exact hsource
  · intro pre d n heq hd
    rcases last_cases heq with ⟨hcs, -⟩ | ⟨hzero, -⟩
    · have hat : 80 * s.y + (s.x + 1) - 1 = 80 * s.y + s.x := by omega
      simp only [hat, if_true]
      exact ⟨Nat.succ_pos _, by omega, by rw [h.taken, hcs]⟩
    · exact absurd hzero hc.1

theorem Follows.putchar (h : Follows col cs s) (hmeets : Meets s c) :
    Follows col (cs ++ [c]) { textmodePutchar s c with taken := s.taken + 1 } := by
  by_cases hnul : c = 0
  · rw [hnul]
    exact h.nul
  · obtain ⟨hx, hplace⟩ := hmeets hnul
    by_cases hnl : c = 0x0A
    · rw [if_pos hnl] at hplace
      rw [hnl, putchar_newline hplace]
      exact h.newline hx hplace
    · rw [if_neg hnl] at hplace
      exact h.printable ⟨hnul, hnl⟩ hx hplace.1 hplace.2

/-- A write goes on character by character. -/
theorem Follows.putchars {buf : List (BitVec 8)} (h : Follows col cs s) (hfits : Fits s buf) :
    Follows col (cs ++ buf) (putchars buf s) := by
  induction buf generalizing cs s with
  | nil => rwa [List.append_nil]
  | cons c buf ih =>
    have hrest := ih (h.putchar hfits.1) hfits.2
    rwa [List.append_assoc] at hrest

theorem follows_cleared (video : Nat → Cell) (col : BitVec 32) : Follows col [] (cleared video col) := by
  refine ⟨⟨?_, ?_, ?_⟩, fun _ => ⟨rfl, rfl⟩, (by decide : 0 < 25), rfl, rfl, ?_⟩
  · intro i hi
    simp only [cleared, textmodeClear, Textmode.memset16, List.nil_append, List.mem_range'_1] at hi
    omega
  · intro i hi
    simp only [cleared, textmodeClear, Textmode.memset16, Nat.zero_le, Nat.zero_add, true_and, if_pos hi]
    exact blank_eq
  · intro pre c n d heq
    simp at heq
  · intro pre c n heq
    simp at heq

end Steps

/-- At every point of a sequence of writes whose characters all meet the condition, the screen is the
terminal's. -/
theorem textmode_shows (video : Nat → Cell) (col : BitVec 32) (bufs : List (List (BitVec 8)))
    (h : EachStep Wrote (cleared video col) bufs fun s buf _ => Fits s buf) :
    AtEveryPoint Wrote (cleared video col) bufs fun pre s => Shows col pre.flatten s := by
  have hall : AtEveryPoint Wrote (cleared video col) bufs fun pre s => Follows col pre.flatten s := by
    refine h.atEveryPoint (P := fun pre s => Follows col pre.flatten s) (follows_cleared video col) ?_
    intro pre buf s s' hbefore hwrote hfits
    cases hwrote
    rw [List.flatten_concat]
    exact hbefore.putchars hfits
  intro pre post s hbufs hrun
  exact (hall pre post s hbufs hrun).toShows

theorem textmode_shows_hi :
    AtEveryPoint Wrote (cleared (fun _ => ⟨0, none⟩) 0x07) [[0x68, 0x69, 0x0A], [0x21]] fun pre s =>
      Shows 0x07 pre.flatten s := by
  apply textmode_shows
  apply EachStep.cons
  · intro s _
    decide
  · rintro s rfl
    apply EachStep.cons
    · intro s _
      decide
    · intro s _
      exact .nil

/-- On a line of 82 characters the last one goes over the one before it. -/
theorem long_line_overwritten :
    ∃ bufs, ¬AtEveryPoint Wrote (cleared (fun _ => ⟨0, none⟩) 0x07) bufs fun pre s =>
      Shows 0x07 pre.flatten s := by
  refine ⟨[List.replicate 82 0x61], ?_⟩
  intro hall
  have hrun : Run Wrote (cleared (fun _ => ⟨0, none⟩) 0x07) [List.replicate 82 0x61] _ := .single rfl
  have hcell := (hall _ [] _ (by simp) hrun).visible 81 (by decide)
  exact absurd hcell (by decide +kernel)

end Levos.Arch
