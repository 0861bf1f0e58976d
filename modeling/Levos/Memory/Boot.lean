import Levos.Memory.Layout

namespace Levos.Memory

open Levos.Framework

/-- The memory manager at the entry of the kernel: `plp` stands behind the kernel image. -/
structure Loaded (s : Mm) : Prop where
  frames : s.frames = 0
  offline : s.heapOnline = false
  low : 0x100000 ≤ s.plp

/-- The image leaves the upper half of the address space free. -/
structure Booting (s : Mm) : Prop extends Loaded s where
  high : s.plp < 2 ^ 31

/-- The heap before `heap_install`. -/
def noHeap : Nat → Mm → Except Fault (Nat × Mm) := fun _ _ => .error .uninitialised

/-- The bytes of the bitmap for `n` frames. -/
def bitmapBytes (n : Nat) : Nat := wrap (n * 8) / 32

/-- Where `set_nframes` puts the directory: on the first page boundary behind the bitmap. -/
def dirStart (s : Mm) (n : Nat) : Nat :=
  s.plp + bitmapBytes n - (s.plp + bitmapBytes n) % 0x1000 + 0x1000

theorem bitmapBytes_lt (n : Nat) : bitmapBytes n < 2 ^ 27 := by
  have := wrap_lt (n * 8)
  unfold bitmapBytes
  omega

/-- The state that `set_nframes` leaves: the bitmap begins where `plp` was, and the directory is empty. -/
def framesSet (s : Mm) (n : Nat) : Mm :=
  { s with
    nframes := n
    frames := s.plp
    plp := dirStart s n + pageDirSize
    kernelDir := dirStart s n
    mem := (s.mem.fill s.plp 0 (n / 32)).fill (dirStart s n) 0 pageDirSize }

section SetNframes

variable {s : Mm}

theorem dirStart_spec (hb : Booting s) (n : Nat) : s.plp + bitmapBytes n < dirStart s n ∧
    dirStart s n + pageDirSize < 2 ^ 32 ∧ dirStart s n % 0x1000 = 0 := by
  have hlt := bitmapBytes_lt n
  have hhigh := hb.high
  unfold dirStart pageDirSize
  omega

theorem setNframes_eq (hb : Booting s) (newMalloc : Nat → Mm → Except Fault (Nat × Mm)) (n : Nat) :
    setNframes newMalloc s n = .ok (framesSet s n) := by
  have hlow := hb.low
  obtain ⟨hbehind, hend, -⟩ := dirStart_spec hb n
  have hbitmap : kmalloc newMalloc { s with nframes := n } (wrap (n * 8) / 32) false =
      .ok (s.plp, s.plp, { s with nframes := n, plp := s.plp + bitmapBytes n }) :=
    kmalloc_room newMalloc hb.offline (by change s.plp + bitmapBytes n < 2 ^ 32; omega)
  let s₀ : Mm := { s with
    nframes := n
    plp := s.plp + bitmapBytes n
    frames := s.plp
    mem := s.mem.fill s.plp 0 (n / 32) }
  have hstart : s₀.blockStart true = dirStart s n :=
    (blockStart_spec s₀ true).2.2.1 rfl (by simp only [s₀]; omega)
  have hdir : kvmallocP s₀ pageDirSize =
      .ok (dirStart s n, dirStart s n, { s₀ with plp := dirStart s n + pageDirSize }) := by
    rw [← hstart]
    exact kvmallocP_room hb.offline (by rw [hstart]; exact hend)
  have hz : ¬s.frames ≠ 0 := fun h => h hb.frames
  simp only [setNframes, if_neg hz]
  rw [hbitmap, ok_bind]
  change kvmallocP s₀ pageDirSize >>= (fun r => .ok { r.2.2 with
    kernelDir := r.1
    mem := r.2.2.mem.fill r.1 0 pageDirSize }) = .ok (framesSet s n)
  rw [hdir]
  rfl

theorem framesSet_tbl (s : Mm) (n : Nat) {t : Nat} (ht : t < 1024) : (framesSet s n).tbl t = 0 := by
  have hword : (framesSet s n).mem.word (dirStart s n + 4096 + 4 * t) = 0 :=
    Memory.word_fill_zero (by omega) (by unfold pageDirSize; omega)
  have hdir : (framesSet s n).kernelDir = dirStart s n := rfl
  rw [Mm.tbl, Mm.table, hdir, hword]
  rfl

theorem framesSet_layout (hb : Booting s) (n : Nat) : Layout (framesSet s n) := by
  obtain ⟨hbehind, hend, -⟩ := dirStart_spec hb n
  refine ⟨?_, Nat.le_refl _, hend, ?_, ?_, ?_⟩
  · change s.plp + 4 * (wrap (n * 8) / 32 / 4) ≤ dirStart s n
    unfold bitmapBytes at hbehind
    omega
  · intro t ht hmade
    exact absurd (framesSet_tbl s n ht) hmade
  · intro t ht
    rw [framesSet_tbl s n ht]
  · intro t ht u _ hmade
    exact absurd (framesSet_tbl s n ht) hmade

/-- The first `n / 32` bytes of the bitmap are cleared, and the others are what the memory held. -/
theorem framesSet_used (hb : Booting s) (n : Nat) {f : Nat} (hf : f / 8 < bitmapBytes n) :
    (framesSet s n).used f = (decide (8 * (n / 32) ≤ f) && s.mem.bit s.plp f) := by
  have hbehind := (dirStart_spec hb n).1
  have hbyte : (framesSet s n).mem (s.plp + f / 8) = s.mem.fill s.plp 0 (n / 32) (s.plp + f / 8) :=
    Memory.fill_apply (.inl (by omega))
  change (framesSet s n).mem.bit s.plp f = _
  rw [Memory.bit_eq_byte, hbyte, Memory.bit_eq_byte]
  by_cases hc : 8 * (n / 32) ≤ f
  · have hkept : s.mem.fill s.plp 0 (n / 32) (s.plp + f / 8) = s.mem (s.plp + f / 8) :=
      Memory.fill_apply (.inr (by omega))
    rw [hkept, decide_eq_true hc, Bool.true_and]
  · have hcleared : s.mem.fill s.plp 0 (n / 32) (s.plp + f / 8) = 0 := if_pos (by omega)
    rw [hcleared, decide_eq_false hc, Bool.false_and]
    simp

/-- `set_nframes` gives the bitmap and an empty directory their places. It clears the first
`8 * (n / 32)` bits; behind them the bitmap is what the memory held. -/
theorem setNframes_spec (newMalloc : Nat → Mm → Except Fault (Nat × Mm)) (n : Nat) (hb : Booting s) :
    ∃ s', setNframes newMalloc s n = .ok s' ∧ Layout s' ∧ s'.nframes = n ∧ s'.frames = s.plp ∧
      s'.heapOnline = false ∧ s'.kernelDir = dirStart s n ∧
      s'.plp = dirStart s n + pageDirSize ∧ (∀ t < 1024, s'.tbl t = 0) ∧
      ∀ f, f / 8 < bitmapBytes n →
        s'.used f = (decide (8 * (n / 32) ≤ f) && s.mem.bit s.plp f) :=
  ⟨framesSet s n, setNframes_eq hb newMalloc n, framesSet_layout hb n, rfl, rfl, hb.offline, rfl, rfl,
    fun _ ht => framesSet_tbl s n ht, fun _ hf => framesSet_used hb n hf⟩

end SetNframes

/-- The word of the bitmap that `set_frame`, `clear_frame` and `test_frame` access for address `a`. -/
def Mm.frameWord (s : Mm) (a : Nat) : Nat := s.frames + 4 * (a / 0x1000 / 32)

/-- After `set_nframes` the frames below `n` are all free, and their words are in the block that
`kmalloc` gave for the bitmap. -/
def BitmapRight (newMalloc : Nat → Mm → Except Fault (Nat × Mm)) (s : Mm) (n : Nat) : Prop :=
  ∃ s', setNframes newMalloc s n = .ok s' ∧ ∀ f < n,
    testFrame s' (wrap (f * 0x1000)) = .ok false ∧ s.plp ≤ s'.frameWord (wrap (f * 0x1000)) ∧
      s'.frameWord (wrap (f * 0x1000)) + 4 ≤ s.plp + bitmapBytes n

/-- The block has a word for each frame that an address reaches, and the memory behind its part that is
cleared holds zeros. -/
structure BitmapMeets (s : Mm) (n : Nat) : Prop where
  words : min n (2 ^ 20) ≤ 32 * (bitmapBytes n / 4)
  zeros : ∀ f < min n (2 ^ 20), 8 * (n / 32) ≤ f → s.mem.bit s.plp f = false

section Bitmap

variable {s s' : Mm} {n f : Nat}

/-- `test_frame` looks at the frame that the address wraps to. -/
theorem testFrame_wrap (s : Mm) (f : Nat) :
    testFrame s (wrap (f * 0x1000)) =
      if s.inFrames (f % 2 ^ 20 / 32) then .ok (s.used (f % 2 ^ 20)) else .error .outOfBounds := by
  have haddr : wrap (f * 0x1000) / 0x1000 = f % 2 ^ 20 := by
    unfold wrap
    omega
  rw [testFrame, haddr]

/-- The bitmap is right exactly when its block is large enough and held zeros where it is not cleared. -/
theorem setNframes_right_iff (newMalloc : Nat → Mm → Except Fault (Nat × Mm)) (n : Nat)
    (hb : Booting s) : BitmapRight newMalloc s n ↔ BitmapMeets s n := by
  obtain ⟨s', hset, -, hnframes, hframes, -, -, -, -, hused⟩ := setNframes_spec newMalloc n hb
  have hwords : s'.frameWords = bitmapBytes n / 4 := by
    rw [Mm.frameWords, hnframes, bitmapBytes]
  have hword (f : Nat) : s'.frameWord (wrap (f * 0x1000)) = s.plp + 4 * (f % 2 ^ 20 / 32) := by
    have haddr : wrap (f * 0x1000) / 0x1000 = f % 2 ^ 20 := by
      unfold wrap
      omega
    rw [Mm.frameWord, haddr, hframes]
  constructor
  · rintro ⟨s₁, hset₁, hright⟩
    cases hset.symm.trans hset₁
    refine ⟨?_, ?_⟩
    · -- the last frame that an address reaches
      by_cases hn : n = 0
      · omega
      · obtain ⟨-, -, hin⟩ := hright (min n (2 ^ 20) - 1) (by omega)
        rw [hword, Nat.mod_eq_of_lt (by omega)] at hin
        omega
    · intro f hf hlate
      obtain ⟨htest, -, hin⟩ := hright f (by omega)
      have hmod : f % 2 ^ 20 = f := Nat.mod_eq_of_lt (by omega)
      rw [hword, hmod] at hin
      rw [testFrame_wrap, hmod] at htest
      split_ifs at htest
      have hfree := Except.ok.inj htest
      rw [hused f (by omega), decide_eq_true hlate, Bool.true_and] at hfree
      exact hfree
  · rintro ⟨hlarge, hzeros⟩
    refine ⟨s', hset, ?_⟩
    intro f hf
    have hle : f % 2 ^ 20 ≤ f := Nat.mod_le _ _
    have hlt : f % 2 ^ 20 < 2 ^ 20 := Nat.mod_lt _ (by decide)
    have hin : s'.inFrames (f % 2 ^ 20 / 32) := by
      unfold Mm.inFrames
      omega
    rw [hword, testFrame_wrap, if_pos hin, hused _ (by omega)]
    refine ⟨?_, by omega, by omega⟩
    by_cases hlate : 8 * (n / 32) ≤ f % 2 ^ 20
    · rw [hzeros _ (by omega) hlate, Bool.and_false]
    · rw [decide_eq_false hlate, Bool.false_and]

/-- The kernel before the boot, with ones in all of the memory. -/
def dirtyMemory : Mm where
  mem := fun _ => 0xFF
  nframes := 0
  frames := 0
  kernelDir := 0
  currentDirectory := 0
  plp := 0x100000
  heapOnline := false

theorem dirtyMemory_booting : Booting dirtyMemory := ⟨⟨rfl, rfl, by decide⟩, by decide⟩

/-- Of 64 frames only the first 16 are cleared. -/
theorem dirtyMemory_bitmap : Booting dirtyMemory ∧ ¬BitmapRight noHeap dirtyMemory 64 := by
  refine ⟨dirtyMemory_booting, ?_⟩
  intro hright
  have hzeros := ((setNframes_right_iff noHeap 64 dirtyMemory_booting).mp hright).zeros 16
  exact absurd (hzeros (by decide) (by decide)) (by decide)

/-- Where the memory holds zeros the bitmap of 64 frames is right. -/
theorem cleanMemory_bitmap : BitmapRight noHeap { dirtyMemory with mem := fun _ => 0 } 64 := by
  have hbooting : Booting { dirtyMemory with mem := fun _ => 0 } := ⟨⟨rfl, rfl, by decide⟩, by decide⟩
  apply (setNframes_right_iff noHeap 64 hbooting).mpr
  refine ⟨by decide, ?_⟩
  intro f _ _
  simp [Memory.bit, Memory.word]

end Bitmap

end Levos.Memory
