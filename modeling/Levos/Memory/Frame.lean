import Levos.Memory.Mm

namespace Levos.Memory

open Levos.Framework

/-- The words of the array that `set_nframes` asked `kmalloc` for: `INDEX_BIT(nframes * 8)` is its
size in bytes. -/
def Mm.frameWords (s : Mm) : Nat := wrap (s.nframes * 8) / 32 / 4

/-- Is frame `f` marked in the bitmap. -/
def Mm.used (s : Mm) (f : Nat) : Bool := s.mem.bit s.frames f

def setNframes (newMalloc : Nat → Mm → Except Fault (Nat × Mm)) (s : Mm) (n : Nat) :
    Except Fault Mm := do
  let s := { s with nframes := n }
  if s.frames ≠ 0 then .error (.panic "reallocing frames\n")
  else
    let (frames, _, s) ← kmalloc newMalloc s (wrap (n * 8) / 32) false
    -- the size is a number of bytes here too, so that a quarter of the bits is cleared
    let s := { s with frames := frames, mem := s.mem.fill frames 0 (n / 32) }
    let (dir, _, s) ← kvmallocP s pageDirSize
    return { s with kernelDir := dir, mem := s.mem.fill dir 0 pageDirSize }

/-- `frames[i]`, for an index that the array has. -/
def Mm.inFrames (s : Mm) (i : Nat) : Prop := i < s.frameWords

instance (s : Mm) (i : Nat) : Decidable (s.inFrames i) := inferInstanceAs (Decidable (i < _))

/-- The array has one word for every 16 frames, as long as its size does not wrap. -/
theorem Mm.inFrames_iff {s : Mm} {i : Nat} (hn : s.nframes < 2 ^ 29) :
    s.inFrames i ↔ i < s.nframes / 16 := by
  have hsize : wrap (s.nframes * 8) = s.nframes * 8 := wrap_of_lt (by omega)
  rw [Mm.inFrames, Mm.frameWords, hsize]
  omega

def setFrame (s : Mm) (a : Nat) : Except Fault Mm :=
  let f := a / 0x1000
  if s.inFrames (f / 32) then .ok { s with mem := s.mem.setBit s.frames f } else .error .outOfBounds

def clearFrame (s : Mm) (a : Nat) : Except Fault Mm :=
  let f := a / 0x1000
  if s.inFrames (f / 32) then .ok { s with mem := s.mem.clearBit s.frames f }
  else .error .outOfBounds

def testFrame (s : Mm) (a : Nat) : Except Fault Bool :=
  let f := a / 0x1000
  if s.inFrames (f / 32) then .ok (s.used f) else .error .outOfBounds

/-- The inner loop of `first_n_frames`: `b`, the number of the last frame of the run in use. It
looks at every frame of the run, also behind one that is used. -/
def lastUsed (s : Mm) (i : Nat) : Nat → Except Fault Nat
  | 0 => .ok 0
  | j + 1 => do
    let b ← lastUsed s i j
    if ← testFrame s (wrap (i + 0x1000 * j)) then return j + 1 else return b

/-- `i / 0x1000` for an `int`: from `2^31` on `i` is negative, and so is what is returned of it. -/
def signedFrame (i : Nat) : Nat :=
  if i < 2 ^ 31 then i / 0x1000 else 2 ^ 32 - (2 ^ 32 - i) / 0x1000

/-- The outer loop, at the addresses still to come. -/
def firstRun (s : Mm) (n : Nat) : List Nat → Except Fault Nat
  | [] => .ok 0xFFFFFFFF
  | f :: fs => do
    let b ← lastUsed s (0x1000 * f) n
    if b = 0 then return signedFrame (0x1000 * f) else firstRun s n fs

def firstNFrames (s : Mm) (n : Nat) : Except Fault Nat :=
  firstRun s n (List.range (wrap (s.nframes * 0x1000) / 0x1000))

/-- The word loop of `first_frame`; the bit loop stops at the first zero. -/
def firstFrameFrom (s : Mm) : List Nat → Except Fault Nat
  | [] => .error (.panic "%s: Out of memory")
  | i :: is =>
    if s.inFrames i then
      match (List.range 32).find? fun j => !(s.mem.word (s.frames + 4 * i)).getLsbD j with
      | some j => .ok (i * 32 + j)
      | none => firstFrameFrom s is
    else .error .outOfBounds

def firstFrame (s : Mm) : Except Fault Nat := firstFrameFrom s (List.range (s.nframes / 32))

end Levos.Memory
