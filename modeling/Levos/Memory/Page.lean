import Levos.Memory.Frame

namespace Levos.Memory

open Levos.Framework

/-- `alloc_frame`. Every call of itself comes with one more frame marked. -/
def allocFrameLoop (p : Nat) (k w : Bool) : Nat → Mm → Except Fault Mm
  | 0, _ => .error .diverges
  | fuel + 1, s =>
    if (s.page p).frame ≠ 0 then
      .ok (s.setPage p { s.page p with present := true, rw := w, user := !k })
    else do
      let index ← firstFrame s
      let s ← setFrame s (wrap (index * 0x1000))
      allocFrameLoop p k w fuel (s.setPage p { s.page p with frame := BitVec.ofNat 20 index })

def allocFrame (s : Mm) (p : Nat) (k w : Bool) : Except Fault Mm :=
  if p = 0 then .error .nullPointer else allocFrameLoop p k w (s.nframes + 2) s

/-- The bound `get_nframes() * 4 * 0x400` on the addresses that have a bit. -/
def Mm.memEnd (s : Mm) : Nat := wrap (wrap (s.nframes * 4) * 0x400)

def allocDmaFrame (s : Mm) (p : Nat) (k w : Bool) (a : Nat) : Except Fault Mm :=
  if p = 0 then .error .nullPointer
  else
    let s := s.setPage p { s.page p with
      present := true, rw := w, user := !k, frame := BitVec.ofNat 20 (a / 0x1000) }
    if a < s.memEnd then setFrame s a else .ok s

def freeFrame (s : Mm) (p : Nat) : Except Fault Mm :=
  if (s.page p).frame = 0 then .error (.panic "Page at 0x%x attempted to free frame 0x%x\n")
  else do
    let s ← clearFrame s (wrap ((s.page p).frame.toNat * 0x1000))
    return s.setPage p { s.page p with frame := 0 }

/-- `get_page`: a pointer to the entry, 0 if there is no table and none is to be made. -/
def getPage (s : Mm) (addr : Nat) (make : Bool) (dir : Nat) : Except Fault (Nat × Mm) :=
  let addr := addr / 0x1000
  let tindex := addr / 1024
  if s.table dir tindex ≠ 0 then .ok (s.table dir tindex + 4 * (addr % 1024), s)
  else if make then do
    let (tbl, tmp, s) ← kvmallocP s pageTableSize
    let mem := s.mem.setWord (dir + 4096 + 4 * tindex) (BitVec.ofNat 32 tbl)
    let mem := mem.fill tbl 0 pageTableSize
    let mem := mem.setWord (dir + 4 * tindex) (BitVec.ofNat 32 tmp ||| 7#32)
    return (tbl + 4 * (addr % 1024), { s with mem := mem })
  else .ok (0, s)

/-- One turn of the loop of `mm_alloc_pages`. -/
def allocPage (i : Nat) (s : Mm) : Except Fault Mm := do
  if ← testFrame s i then .error (.panic "first_n_frames is broken\n")
  else
    let (p, s) ← getPage s i true s.kernelDir
    allocDmaFrame s p true false i

def mmAllocPages (s : Mm) (n : Nat) : Except Fault (Nat × Mm) := do
  let f ← firstNFrames s n
  let addr := wrap (f * 0x1000)
  let s ← forPages (fun _ => wrap (addr + wrap (n * 0x1000))) allocPage pageTurns addr s
  return (addr, s)

/-- `mm_free_pages` hands `free_frame` the addresses below the block itself. -/
def mmFreePages (s : Mm) (p : Nat) : Nat → Except Fault Mm
  | 0 => .ok s
  | n + 1 => do
    let p := wrap (p + (2 ^ 32 - 0x1000))
    let s ← freeFrame s p
    mmFreePages s p n

def markRegion (s : Mm) (addr : Nat) : Except Fault Mm := setFrame s addr

end Levos.Memory
