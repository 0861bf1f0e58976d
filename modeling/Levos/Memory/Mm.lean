import Levos.Framework.Bitmap
import Levos.Framework.Fault
import Mathlib.Order.Basic
import Mathlib.Tactic.SplitIfs

namespace Levos.Memory

open Levos.Framework

/-- The variables of the memory manager and the memory they point into. Addresses are numbers
below `2^32`, and 0 is the null pointer. -/
structure Mm where
  mem : Memory
  nframes : Nat
  frames : Nat
  kernelDir : Nat
  currentDirectory : Nat
  plp : Nat
  heapOnline : Bool

/-- Arithmetic on `uint32_t` and `uintptr_t`. -/
def wrap (x : Nat) : Nat := x % 2 ^ 32

theorem wrap_of_lt {x : Nat} (h : x < 2 ^ 32) : wrap x = x := Nat.mod_eq_of_lt h

theorem wrap_lt (x : Nat) : wrap x < 2 ^ 32 := Nat.mod_lt _ (by decide)

/-- `page_t`, the entry of a page table. -/
structure Page where
  present : Bool
  rw : Bool
  user : Bool
  accessed : Bool
  dirty : Bool
  unused : BitVec 7
  frame : BitVec 20
  deriving DecidableEq

namespace Page

def toWord (p : Page) : BitVec 32 :=
  p.frame ++ p.unused ++ BitVec.ofBool p.dirty ++ BitVec.ofBool p.accessed ++
    BitVec.ofBool p.user ++ BitVec.ofBool p.rw ++ BitVec.ofBool p.present

def ofWord (w : BitVec 32) : Page where
  present := w.getLsbD 0
  rw := w.getLsbD 1
  user := w.getLsbD 2
  accessed := w.getLsbD 3
  dirty := w.getLsbD 4
  unused := w.extractLsb' 5 7
  frame := w.extractLsb' 12 20

@[simp] theorem ofWord_toWord (p : Page) : ofWord p.toWord = p := by
  have hu : p.toWord.extractLsb' 5 7 = p.unused := by
    apply BitVec.eq_of_getLsbD_eq
    intro i hi
    simp only [toWord, BitVec.getLsbD_extractLsb', BitVec.getLsbD_append, BitVec.getLsbD_ofBool]
    grind
  have hf : p.toWord.extractLsb' 12 20 = p.frame := by
    apply BitVec.eq_of_getLsbD_eq
    intro i hi
    simp only [toWord, BitVec.getLsbD_extractLsb', BitVec.getLsbD_append, BitVec.getLsbD_ofBool]
    grind
  rw [ofWord, hu, hf]
  congr 1 <;>
  · simp only [toWord, BitVec.getLsbD_append, BitVec.getLsbD_ofBool]
    grind

theorem toWord_ofWord (w : BitVec 32) : (ofWord w).toWord = w := by
  apply BitVec.eq_of_getLsbD_eq
  intro i hi
  simp only [toWord, ofWord, BitVec.getLsbD_extractLsb', BitVec.getLsbD_append,
    BitVec.getLsbD_ofBool]
  grind

end Page

/-- The entry behind a `page_t *`. -/
def Mm.page (s : Mm) (p : Nat) : Page := .ofWord (s.mem.word p)

def Mm.setPage (s : Mm) (p : Nat) (pg : Page) : Mm := { s with mem := s.mem.setWord p pg.toWord }

/-- `dir->tables[t]`, behind the 1024 physical addresses of a `page_dir_t`. -/
def Mm.table (s : Mm) (dir t : Nat) : Nat := (s.mem.word (dir + 4096 + 4 * t)).toNat

/-- `sizeof(page_dir_t)` and `sizeof(page_table_t)`. -/
def pageDirSize : Nat := 8196
def pageTableSize : Nat := 4096

/-- `for (i = start; i < bound; i += 0x1000)`, with the bound read again at every turn. -/
def forPages (bound : Mm → Nat) (body : Nat → Mm → Except Fault Mm) :
    Nat → Nat → Mm → Except Fault Mm
  | 0, _, _ => .error .diverges
  | fuel + 1, i, s =>
    if i < bound s then do
      let s ← body i s
      forPages bound body fuel (wrap (i + 0x1000)) s
    else .ok s

/-- More turns than an `i` of 32 bits has values. -/
def pageTurns : Nat := 2 ^ 20 + 1

/-- The rule for a page loop: `I` holds before every turn, `limit` bounds `i` inside the loop, and
the body keeps `I` or fails in a way that `E` allows. -/
theorem forPages_rule (bound : Mm → Nat) (body : Nat → Mm → Except Fault Mm)
    (I : Nat → Mm → Prop) (E : Fault → Prop) (limit : Nat) (hlimit : limit + 0x1000 ≤ 2 ^ 32)
    (hbody : ∀ i s, I i s → i < bound s → i < limit ∧
      ((∃ e, body i s = .error e ∧ E e) ∨ ∃ s', body i s = .ok s' ∧ I (i + 0x1000) s'))
    (fuel i : Nat) (s : Mm) (hi : I i s) (hfuel : limit + 0x1000 ≤ i + 0x1000 * fuel) (h0 : 0 < fuel) :
    (∃ e, forPages bound body fuel i s = .error e ∧ E e) ∨
    ∃ i' s', forPages bound body fuel i s = .ok s' ∧ I i' s' ∧ bound s' ≤ i' := by
  induction fuel generalizing i s with
  | zero => omega
  | succ fuel ih =>
    rw [forPages]
    by_cases hlt : i < bound s
    · obtain ⟨hil, hres⟩ := hbody i s hi hlt
      rw [if_pos hlt]
      rcases hres with ⟨e, he, hE⟩ | ⟨s', hs', hi'⟩
      · exact .inl ⟨e, by rw [he]; rfl, hE⟩
      · rw [hs', ok_bind, wrap_of_lt (by omega)]
        exact ih (i + 0x1000) s' hi' (by omega) (by omega)
    · rw [if_neg hlt]
      exact .inr ⟨i, s, rfl, hi, by omega⟩

def virtualToPhysical (s : Mm) (a : Nat) : Nat :=
  let rem := a % 0x1000
  let f := a / 0x1000
  let t := f / 1024
  let i := f % 1024
  if s.table s.currentDirectory t ≠ 0 then
    wrap ((s.page (s.table s.currentDirectory t + 4 * i)).frame.toNat * 0x1000 + rem)
  else 0

/-- Where the next block starts. With alignment `plp` moves on to the next page, also from the
start of one. -/
def Mm.blockStart (s : Mm) (a : Bool) : Nat :=
  if a ∧ s.plp / 0x1000 ≠ 0 then s.plp - s.plp % 0x1000 + 0x1000 else s.plp

/-- `__kmalloc` before the heap is online. A block that would run past the end of the address
space is no object any more. -/
def placeBlock (s : Mm) (size : Nat) (a : Bool) : Except Fault (Nat × Nat × Mm) :=
  let plp := s.blockStart a
  if plp + size ≥ 2 ^ 32 then .error .outOfBounds
  else .ok (plp, plp, { s with plp := plp + size })

/-- `__kmalloc`: the block, its physical address, the state behind. The heap, once it is online,
is liballoc with its `new_malloc`. -/
def kmalloc (newMalloc : Nat → Mm → Except Fault (Nat × Mm)) (s : Mm) (size : Nat) (a : Bool) :
    Except Fault (Nat × Nat × Mm) :=
  if s.heapOnline then
    if a then .error (.panic "liballoc does not support align yet\n")
    else do
      let (addr, s) ← newMalloc size s
      return (addr, virtualToPhysical s addr, s)
  else placeBlock s size a

/-- `kvmalloc_p`: with alignment asked for, the heap is never consulted. -/
def kvmallocP (s : Mm) (size : Nat) : Except Fault (Nat × Nat × Mm) :=
  if s.heapOnline then .error (.panic "liballoc does not support align yet\n")
  else placeBlock s size true

theorem kmalloc_align (newMalloc : Nat → Mm → Except Fault (Nat × Mm)) (s : Mm) (size : Nat) :
    kmalloc newMalloc s size true = kvmallocP s size := rfl

theorem blockStart_spec (s : Mm) (a : Bool) :
    s.plp ≤ s.blockStart a ∧ s.blockStart a ≤ s.plp + 0x1000 ∧
      (a = true → 0x1000 ≤ s.plp → s.blockStart a = s.plp - s.plp % 0x1000 + 0x1000) ∧
      (a = false → s.blockStart a = s.plp) := by
  unfold Mm.blockStart
  split_ifs with h
  · exact ⟨by omega, by omega, fun _ _ => rfl, fun ha => absurd (h.1.symm.trans ha) (by simp)⟩
  · exact ⟨by omega, by omega, fun ha hp => absurd ⟨ha, by omega⟩ h, fun _ => rfl⟩

theorem kmalloc_room (newMalloc : Nat → Mm → Except Fault (Nat × Mm)) {s : Mm} {size : Nat}
    (hoff : s.heapOnline = false) (hroom : s.plp + size < 2 ^ 32) :
    kmalloc newMalloc s size false = .ok (s.plp, s.plp, { s with plp := s.plp + size }) := by
  have hstart : s.blockStart false = s.plp := (blockStart_spec s false).2.2.2 rfl
  rw [kmalloc, if_neg (by simp [hoff]), placeBlock, hstart, if_neg (by omega)]

theorem kvmallocP_room {s : Mm} {size : Nat} (hoff : s.heapOnline = false)
    (hroom : s.blockStart true + size < 2 ^ 32) :
    kvmallocP s size = .ok (s.blockStart true, s.blockStart true,
      { s with plp := s.blockStart true + size }) := by
  rw [kvmallocP, if_neg (by simp [hoff]), placeBlock, if_neg (by omega)]

theorem kvmallocP_full {s : Mm} {size : Nat} (hoff : s.heapOnline = false)
    (hfull : 2 ^ 32 ≤ s.blockStart true + size) : kvmallocP s size = .error .outOfBounds := by
  rw [kvmallocP, if_neg (by simp [hoff]), placeBlock, if_pos hfull]

theorem placeBlock_ok {s s' : Mm} {size addr phys : Nat} {a : Bool}
    (h : placeBlock s size a = .ok (addr, phys, s')) :
    addr = s.blockStart a ∧ phys = addr ∧ addr + size < 2 ^ 32 ∧
      s' = { s with plp := addr + size } := by
  simp only [placeBlock] at h
  split_ifs at h with hlt
  cases h
  exact ⟨rfl, rfl, by omega, rfl⟩

end Levos.Memory
