import Levos.Framework.Run
import Levos.Memory.Search
import Mathlib.Data.List.Nodup

namespace Levos.Memory

open Levos.Framework

def brokenPanic : Fault := .panic "first_n_frames is broken\n"

/-- Page `g` is mapped. -/
def Mm.mapped (s : Mm) (g : Nat) : Prop := ∃ pg, s.pte g = some pg ∧ pg.present = true

/-- One turn of `mm_alloc_pages` at a frame that is free. -/
theorem allocPage_spec {s : Mm} {i : Nat} (hl : Layout s) (hi : i < 2 ^ 32)
    (hin : s.inFrames (i / 0x1000 / 32)) (hfree : s.used (i / 0x1000) = false) :
    (∃ e, allocPage i s = .error e ∧ e ≠ brokenPanic) ∨
    ∃ s', allocPage i s = .ok s' ∧ Layout s' ∧ SameVars s s' ∧
      (∀ f, s.inFrames (f / 32) →
        s'.used f = (s.used f || decide (f = i / 0x1000 ∧ i < s.memEnd))) ∧
      s'.mapped (i / 0x1000) ∧
      ∀ g < 2 ^ 20, g ≠ i / 0x1000 → ∀ pg, s.pte g = some pg → s'.pte g = some pg := by
  have htest : testFrame s i = .ok false := by rw [testFrame_ok hin, hfree]
  have hpage : allocPage i s =
      getPage s i true s.kernelDir >>= fun r => allocDmaFrame r.2 r.1 true false i := by
    rw [allocPage, htest]
    rfl
  rw [hpage]
  have hg : i / 0x1000 < 2 ^ 20 := by omega
  rcases getPage_spec hl hi with ⟨he, -⟩ | ⟨he, -⟩ | ⟨s₁, he, hl₁, hv₁, -, ht₁, -, hu₁, hp₁⟩
  · exact .inl ⟨_, by rw [he]; rfl, by simp [brokenPanic]⟩
  · exact .inl ⟨_, by rw [he]; rfl, by simp [brokenPanic]⟩
  · obtain ⟨s₂, hs₂, hl₂, hv₂, -, -, hu₂, hp₂⟩ := allocDmaFrame_spec (a := i) true false hl₁
      hg ht₁ fun _ => hv₁.inFrames.mpr hin
    refine .inr ⟨s₂, by rw [he, ok_bind]; exact hs₂, hl₂, hv₁.trans hv₂, ?_, ?_, ?_⟩
    · intro f hf
      rw [hu₂ f (hv₁.inFrames.mpr hf), hu₁ f hf, hv₁.memEnd]
    · exact ⟨_, (hp₂ _ hg).trans (if_pos rfl), rfl⟩
    · intro g hg' hne pg hpg
      rw [hp₂ g hg', if_neg hne, hp₁ g hg', if_neg (by simp [hpg]), hpg]

/-- A request of `n` pages that `mm_alloc_pages` can meet: some free run starts below `nframes`,
has its bits in the array and ends below the last frame of the address space. -/
def Available (s : Mm) (n : Nat) : Prop :=
  ∃ f < s.nframes, f + n < 2 ^ 20 ∧ s.inFrames ((f + n - 1) / 32) ∧ ∀ j < n, s.used (f + j) = false

/-- The loop of `mm_alloc_pages` at page `i` of the run of `n` frames from `f` on: the pages below are
done, and the others as they were. -/
structure AllocatedUpTo (s : Mm) (f n i : Nat) (s₁ : Mm) : Prop where
  aligned : i % 0x1000 = 0
  low : 0x1000 * f ≤ i
  high : i ≤ 0x1000 * (f + n)
  layout : Layout s₁
  vars : SameVars s s₁
  used : ∀ g, s.inFrames (g / 32) →
    s₁.used g = (s.used g || decide ((f ≤ g ∧ 0x1000 * g < i) ∧ g < s.nframes))
  mapped : ∀ g, f ≤ g → 0x1000 * g < i → s₁.mapped g
  kept : ∀ g < 2 ^ 20, (g < f ∨ f + n ≤ g) → ∀ pg, s.pte g = some pg → s₁.pte g = some pg

section Pages

variable {s s₁ : Mm} {f n i : Nat}

theorem AllocatedUpTo.start (hl : Layout s) (f n : Nat) : AllocatedUpTo s f n (0x1000 * f) s := by
  refine ⟨by omega, le_refl _, by omega, hl, .refl s, ?_, ?_, fun _ _ _ _ h => h⟩
  · intro g _
    simp
  · intro g h1 h2
    omega

/-- One turn of the loop, at a frame that is free. -/
theorem AllocatedUpTo.step (h : AllocatedUpTo s f n i s₁) (hn : s.nframes < 2 ^ 20)
    (hend : f + n < 2 ^ 20) (hi : i < 0x1000 * (f + n)) (hin : s.inFrames (i / 0x1000 / 32))
    (hfree : s.used (i / 0x1000) = false) :
    (∃ e, allocPage i s₁ = .error e ∧ e ≠ brokenPanic) ∨
    ∃ s₂, allocPage i s₁ = .ok s₂ ∧ AllocatedUpTo s f n (i + 0x1000) s₂ := by
  obtain ⟨haligned, hlow, -, hl, hv, hu, hm, hp⟩ := h
  have hend' := memEnd_eq hn
  have hfree₁ : s₁.used (i / 0x1000) = false := by
    rw [hu _ hin, hfree]
    simp
    omega
  rcases allocPage_spec hl (by omega) (hv.inFrames.mpr hin) hfree₁ with
    herr | ⟨s₂, hs₂, hl₂, hv₂, hu₂, hm₂, hp₂⟩
  · exact .inl herr
  · refine .inr ⟨s₂, hs₂, by omega, by omega, by omega, hl₂, hv.trans hv₂, ?_, ?_, ?_⟩
    · intro g hg
      rw [hu₂ g (hv.inFrames.mpr hg), hu g hg, hv.memEnd, hend', Bool.or_assoc, ← Bool.decide_or]
      congr 1
      rw [decide_eq_decide]
      omega
    · intro g hg hgi
      by_cases hgi' : g = i / 0x1000
      · exact hgi' ▸ hm₂
      · obtain ⟨pg, hpg, hpr⟩ := hm g hg (by omega)
        exact ⟨pg, hp₂ g (by omega) hgi' pg hpg, hpr⟩
    · intro g hg hout pg hpg
      exact hp₂ g hg (by omega) pg (hp g hg hout pg hpg)

end Pages

/-- `mm_alloc_pages` hands out the free run it found, or fails for want of a page table. -/
theorem mmAllocPages_spec {s : Mm} {n : Nat} (hl : Layout s) (hn : s.nframes < 2 ^ 20)
    (h1 : 1 ≤ n) (hav : Available s n) :
    (∃ e, mmAllocPages s n = .error e ∧ e ≠ brokenPanic) ∨
    ∃ f s', mmAllocPages s n = .ok (0x1000 * f, s') ∧ f + n < 2 ^ 20 ∧
      (∀ j < n, s.inFrames ((f + j) / 32) ∧ s.used (f + j) = false) ∧ Layout s' ∧ SameVars s s' ∧
      (∀ g, s.inFrames (g / 32) →
        s'.used g = (s.used g || decide ((f ≤ g ∧ g < f + n) ∧ g < s.nframes))) ∧
      (∀ g, f ≤ g → g < f + n → s'.mapped g) ∧
      ∀ g < 2 ^ 20, (g < f ∨ f + n ≤ g) → ∀ pg, s.pte g = some pg → s'.pte g = some pg := by
  obtain ⟨f₁, hf₁, hend, hin, hfree⟩ := hav
  have inside (g : Nat) (hg : g ≤ (f₁ + n - 1) / 32) : s.inFrames g := Nat.lt_of_le_of_lt hg hin
  have hrun : s.runFree f₁ n := by
    intro j hj
    rw [Nat.mod_eq_of_lt (by omega)]
    exact hfree j hj
  obtain ⟨f, hf, hfirst, hfr, -⟩ := firstNFrames_ok (f := f₁) (n := n) hn hf₁
    (fun g hg j hj => by
      rw [Nat.mod_eq_of_lt (by omega)]
      exact inside _ (by omega)) hrun
  have haddr := wrap_signedFrame (f := f) (by omega)
  have hbound : wrap (0x1000 * f + wrap (n * 0x1000)) = 0x1000 * (f + n) := by
    rw [wrap_of_lt (x := n * 0x1000) (by omega), wrap_of_lt (by omega)]
    omega
  have hloop := forPages_rule (fun _ => 0x1000 * (f + n)) allocPage (AllocatedUpTo s f n)
    (fun e => e ≠ brokenPanic) (0x1000 * (f + n)) (by omega) ?_ pageTurns (0x1000 * f) s (.start hl f n)
    (by unfold pageTurns; omega) (by decide)
  · have hdef : mmAllocPages s n = (do
        let s ← forPages (fun _ => 0x1000 * (f + n)) allocPage pageTurns (0x1000 * f) s
        return (0x1000 * f, s)) := by
      rw [mmAllocPages, hfirst, ok_bind]
      simp only [haddr, hbound]
    rw [hdef]
    rcases hloop with ⟨e, he, hE⟩ | ⟨i, s', hs', hdone, hi⟩
    · exact .inl ⟨e, by rw [he]; rfl, hE⟩
    · obtain rfl : i = 0x1000 * (f + n) := Nat.le_antisymm hdone.high hi
      refine .inr ⟨f, s', by rw [hs']; rfl, by omega, ?_, hdone.layout, hdone.vars, ?_, ?_, hdone.kept⟩
      · intro j hj
        have := hfr j hj
        rw [Nat.mod_eq_of_lt (by omega)] at this
        exact ⟨inside _ (by omega), this⟩
      · intro g hg
        rw [hdone.used g hg]
        congr 1
        rw [decide_eq_decide]
        omega
      · exact fun g h1 h2 => hdone.mapped g h1 (by omega)
  · intro i s₁ hat hi
    have hlow := hat.low
    have hfree₁ : s.used (i / 0x1000) = false := by
      have hu := hfr (i / 0x1000 - f) (by omega)
      rw [show f + (i / 0x1000 - f) = i / 0x1000 by omega, Nat.mod_eq_of_lt (by omega)] at hu
      exact hu
    exact ⟨hi, hat.step hn (by omega) hi (inside _ (by omega)) hfree₁⟩

/-- A pointer to a page entry, in `kernel_dir` or elsewhere: it points into neither the bitmap nor
a directory. -/
def EntryPointer (s : Mm) (p : Nat) : Prop :=
  p ≠ 0 ∧ p % 4 = 0 ∧ (p + 4 ≤ s.frames ∨
    s.frames + 4 * s.frameWords ≤ p ∧ p + 4 ≤ s.kernelDir ∨ s.kernelDir + pageDirSize ≤ p)

section EntryPointer

variable {s : Mm} {p : Nat}

@[simp] theorem page_setPage (s : Mm) (p : Nat) (pg : Page) : (s.setPage p pg).page p = pg := by
  simp [Mm.page, Mm.setPage]

/-- Writing an entry disturbs neither the bitmap nor the directory, and unmaps nothing that it
does not say is absent. -/
theorem setPage_spec (pg : Page) (hl : Layout s) (hp : EntryPointer s p)
    (hpres : (s.page p).present = true → pg.present = true) :
    Layout (s.setPage p pg) ∧ (∀ f, s.inFrames (f / 32) → (s.setPage p pg).used f = s.used f) ∧
      ∀ g < 2 ^ 20, s.mapped g → (s.setPage p pg).mapped g := by
  obtain ⟨-, h4, hwhere⟩ := hp
  have hb := hl.bitmap
  have hd : Memory.Agree s.kernelDir (s.kernelDir + pageDirSize) s.mem (s.mem.setWord p pg.toWord) :=
    Memory.agree_setWord (by omega)
  have hbits : Memory.Agree s.frames (s.frames + 4 * s.frameWords) s.mem
      (s.mem.setWord p pg.toWord) := Memory.agree_setWord (by unfold pageDirSize at hwhere; omega)
  refine ⟨hl.write hd, fun f hf => used_write hbits hf, ?_⟩
  rintro g hg ⟨pg', hpg', hpr⟩
  have ht : s.tbl (g / 1024) ≠ 0 := pte_isSome.mp (by simp [hpg'])
  have htbl : (s.setPage p pg).tbl (g / 1024) = s.tbl (g / 1024) := tbl_write hd (by omega)
  have hentry : (s.setPage p pg).entry g = s.entry g := by rw [Mm.entry, htbl, Mm.entry]
  obtain rfl : s.page (s.entry g) = pg' := Option.some.inj ((pte_eq_some ht).symm.trans hpg')
  have hsome : (s.setPage p pg).pte g = some ((s.setPage p pg).page (s.entry g)) := by
    rw [pte_eq_some (htbl ▸ ht), hentry]
  refine ⟨_, hsome, ?_⟩
  by_cases hpe : p = s.entry g
  · rw [← hpe, page_setPage]
    exact hpres (hpe ▸ hpr)
  · have ha := hl.aligned (g / 1024) (by omega)
    have hword : (s.setPage p pg).page (s.entry g) = s.page (s.entry g) := by
      refine congrArg Page.ofWord (Memory.word_setWord_ne ?_)
      unfold Mm.entry at hpe ⊢
      omega
    rw [hword]
    exact hpr

theorem SameVars.entryPointer {s' : Mm} (h : SameVars s s') (hp : EntryPointer s p) :
    EntryPointer s' p := by
  unfold EntryPointer at *
  rw [h.frames, h.frameWords, h.kernelDir]
  exact hp

/-- What drawing a frame for the entry `p` leaves: `f` is marked, and it is what the entry holds. -/
def Drawn (s s' : Mm) (p f : Nat) : Prop :=
  Layout s' ∧ SameVars s s' ∧ (s'.page p).frame = BitVec.ofNat 20 f ∧
    (∀ g, s.inFrames (g / 32) → s'.used g = (decide (g = f) || s.used g)) ∧
    ∀ g < 2 ^ 20, s.mapped g → s'.mapped g

/-- One call of `alloc_frame` on an entry without a frame. -/
theorem allocFrameLoop_draw {k w : Bool} {f : Nat} (hl : Layout s) (hn : s.nframes < 2 ^ 20)
    (hp : EntryPointer s p) (hz : (s.page p).frame = 0) (hf : f < 32 * (s.nframes / 32))
    (hfree : s.used f = false) :
    ∃ f₀ s', f₀ ≤ f ∧ s.used f₀ = false ∧ (∀ g < f₀, s.used g = true) ∧ Drawn s s' p f₀ ∧
      ∀ fuel, allocFrameLoop p k w (fuel + 1) s = allocFrameLoop p k w fuel s' := by
  obtain ⟨f₀, hle, hfirst, hfree₀, hmin⟩ := firstFrame_ok hn hf hfree
  have hin : s.inFrames (f₀ / 32) := by
    rw [Mm.inFrames_iff (by omega)]
    omega
  have haddr : wrap (f₀ * 0x1000) / 0x1000 = f₀ := by
    rw [wrap_of_lt (by omega)]
    omega
  obtain ⟨s₁, hs₁⟩ : ∃ s₁, setFrame s (wrap (f₀ * 0x1000)) = .ok s₁ :=
    ⟨_, if_pos (by rw [haddr]; exact hin)⟩
  obtain ⟨hl₁, hv₁, -, -, hu₁, hp₁, -⟩ := setFrame_ok hl hs₁
  obtain ⟨hl₂, hu₂, hm₂⟩ := setPage_spec { s₁.page p with frame := BitVec.ofNat 20 f₀ } hl₁
    (hv₁.entryPointer hp) (fun h => h)
  refine ⟨f₀, _, hle, hfree₀, hmin, ⟨hl₂, hv₁.trans rfl, by rw [page_setPage], ?_, ?_⟩, ?_⟩
  · intro g hg
    rw [hu₂ g (hv₁.inFrames.mpr hg), hu₁, haddr]
  · rintro g hg ⟨pg, hpg, hpr⟩
    exact hm₂ g hg ⟨pg, (hp₁ g hg).trans hpg, hpr⟩
  · intro fuel
    rw [allocFrameLoop, if_neg (by simp [hz]), hfirst, ok_bind, hs₁, ok_bind]

/-- The last call, which finds the frame in the entry and sets the flags. -/
theorem allocFrameLoop_done {k w : Bool} {f : Nat} (hl : Layout s) (hp : EntryPointer s p)
    (hf : (s.page p).frame = BitVec.ofNat 20 f) (h0 : f ≠ 0) (hlt : f < 2 ^ 20) :
    ∃ s', (∀ fuel, allocFrameLoop p k w (fuel + 1) s = .ok s') ∧ (s'.page p).frame.toNat = f ∧
      Layout s' ∧ SameVars s s' ∧ (∀ g, s.inFrames (g / 32) → s'.used g = s.used g) ∧
      ∀ g < 2 ^ 20, s.mapped g → s'.mapped g := by
  obtain ⟨hl', hu', hm'⟩ := setPage_spec
    { s.page p with present := true, rw := w, user := !k } hl hp (fun _ => rfl)
  have htoNat : (BitVec.ofNat 20 f).toNat = f := by
    rw [BitVec.toNat_ofNat]
    exact Nat.mod_eq_of_lt hlt
  have hne : (s.page p).frame ≠ 0 := by
    rw [hf]
    intro h
    rw [h] at htoNat
    exact h0 htoNat.symm
  refine ⟨_, fun fuel => if_pos hne, ?_, hl', rfl, hu', hm'⟩
  rw [page_setPage, hf, htoNat]

/-- `alloc_frame` on an entry without a frame comes back with one, and never with frame 0. -/
theorem allocFrame_spec {k w : Bool} (hl : Layout s) (hn : s.nframes < 2 ^ 20)
    (hp : EntryPointer s p) (hz : (s.page p).frame = 0)
    (hmem : ∃ f, f ≠ 0 ∧ f < 32 * (s.nframes / 32) ∧ s.used f = false) :
    ∃ f s', allocFrame s p k w = .ok s' ∧ f ≠ 0 ∧ f < s.nframes ∧
      (s'.page p).frame.toNat = f ∧ s.used f = false ∧ Layout s' ∧ SameVars s s' ∧
      (∀ g, s.inFrames (g / 32) →
        s'.used g = (decide (g = f) || s.used g) ∨ g = 0 ∧ s'.used g = true) ∧
      ∀ g < 2 ^ 20, s.mapped g → s'.mapped g := by
  obtain ⟨f, hf0, hf, hfree⟩ := hmem
  have hdef (fuel : Nat) (hfuel : s.nframes + 2 = fuel) :
      allocFrame s p k w = allocFrameLoop p k w fuel s := by
    rw [← hfuel]
    exact if_neg hp.1
  have hin (g : Nat) (hg : g < 32 * (s.nframes / 32)) : s.inFrames (g / 32) := by
    rw [Mm.inFrames_iff (by omega)]
    omega
  obtain ⟨f₀, s₁, hle, hfree₀, -, ⟨hl₁, hv₁, hfr₁, hu₁, hm₁⟩, hloop⟩ :=
    allocFrameLoop_draw (k := k) (w := w) hl hn hp hz hf hfree
  by_cases h0 : f₀ = 0
  · -- frame 0 was free: it is marked, the entry still reads 0, and the next call skips it
    subst h0
    have hz₁ : (s₁.page p).frame = 0 := hfr₁
    have hfree₁ : s₁.used f = false := by
      rw [hu₁ f (hin f hf), hfree]
      simp [hf0]
    obtain ⟨f₂, s₂, hle₂, hfree₂, -, ⟨hl₂, hv₂, hfr₂, hu₂, hm₂⟩, hloop₂⟩ :=
      allocFrameLoop_draw (k := k) (w := w) hl₁ (hv₁.nframes ▸ hn) (hv₁.entryPointer hp) hz₁
        (hv₁.nframes ▸ hf) hfree₁
    have hne₂ : f₂ ≠ 0 := by
      rintro rfl
      rw [hu₁ 0 (hin 0 (by omega))] at hfree₂
      simp at hfree₂
    obtain ⟨s₃, hs₃, hfr₃, hl₃, hv₃, hu₃, hm₃⟩ := allocFrameLoop_done (k := k) (w := w) hl₂
      ((hv₁.trans hv₂).entryPointer hp) hfr₂ hne₂ (by omega)
    refine ⟨f₂, s₃, ?_, hne₂, by omega, hfr₃, ?_, hl₃, (hv₁.trans hv₂).trans hv₃, ?_,
      fun g hg hm => hm₃ g hg (hm₂ g hg (hm₁ g hg hm))⟩
    · rw [hdef (s.nframes - 1 + 1 + 1 + 1) (by omega), hloop, hloop₂, hs₃]
    · rw [hu₁ f₂ (hin f₂ (by omega))] at hfree₂
      simpa [hne₂] using hfree₂
    · intro g hg
      have hg₁ := hv₁.inFrames.mpr hg
      rw [hu₃ g ((hv₁.trans hv₂).inFrames.mpr hg), hu₂ g hg₁, hu₁ g hg]
      by_cases hg0 : g = 0
      · exact .inr ⟨hg0, by simp [hg0]⟩
      · exact .inl (by simp [hg0])
  · obtain ⟨s₂, hs₂, hfr₂, hl₂, hv₂, hu₂, hm₂⟩ := allocFrameLoop_done (k := k) (w := w) hl₁
      (hv₁.entryPointer hp) hfr₁ h0 (by omega)
    refine ⟨f₀, s₂, ?_, h0, by omega, hfr₂, hfree₀, hl₂, hv₁.trans hv₂, ?_,
      fun g hg hm => hm₂ g hg (hm₁ g hg hm)⟩
    · rw [hdef (s.nframes + 1 + 1) rfl, hloop, hs₂]
    · intro g hg
      rw [hu₂ g (hv₁.inFrames.mpr hg), hu₁ g hg]
      exact .inl rfl

end EntryPointer

/-- The calls that hand out frames. -/
inductive Call
  | pages (n : Nat)
  | frame (p : Nat) (k w : Bool)

/-- A call, with the frames it hands out. -/
def Call.run (s : Mm) : Call → Except Fault (List Nat × Mm)
  | .pages n => do
    let (addr, s) ← mmAllocPages s n
    return ((List.range n).map (addr / 0x1000 + ·), s)
  | .frame p k w => do
    let s ← allocFrame s p k w
    return ([(s.page p).frame.toNat], s)

/-- The calls that find what they ask for. -/
def Call.Served (s : Mm) : Call → Prop
  | .pages n => 1 ≤ n ∧ Available s n
  | .frame p _ _ => EntryPointer s p ∧ (s.page p).frame = 0 ∧
    ∃ f, f ≠ 0 ∧ f < 32 * (s.nframes / 32) ∧ s.used f = false

def CallStep (s : Mm) (l : Call × List Nat) (s' : Mm) : Prop :=
  l.1.Served s ∧ l.1.run s = .ok (l.2, s')

/-- The frames that a run hands out, in order. -/
def handedOut (ls : List (Call × List Nat)) : List Nat := ls.flatMap Prod.snd

/-- What one call does: the frames were free, and afterwards they are marked as far as memory
reaches; `alloc_frame` may mark frame 0 besides. -/
structure HandedOut (s : Mm) (c : Call) (fs : List Nat) (s' : Mm) : Prop where
  layout : Layout s'
  vars : SameVars s s'
  nodup : fs.Nodup
  free : ∀ f ∈ fs, s.inFrames (f / 32) ∧ s.used f = false
  marked : ∀ g ∈ fs, g < s.nframes → s'.used g = true
  others : ∀ g, s.inFrames (g / 32) → g ∉ fs →
    s'.used g = s.used g ∨ g = 0 ∧ (∃ p k w, c = .frame p k w) ∧ s'.used g = true
  mapped : ∀ g < 2 ^ 20, s.mapped g → s'.mapped g

section Calls

variable {s s' : Mm} {c : Call} {fs : List Nat}

theorem mem_run {f n g : Nat} : g ∈ (List.range n).map (f + ·) ↔ f ≤ g ∧ g < f + n := by
  simp only [List.mem_map, List.mem_range]
  constructor
  · intro h
    obtain ⟨j, hj, hg⟩ := h
    omega
  · intro h
    exact ⟨g - f, by omega, by omega⟩

/-- A call of `mm_alloc_pages` that comes back. -/
theorem pagesStep_spec {n : Nat} (hl : Layout s) (hn : s.nframes < 2 ^ 20)
    (h : CallStep s (.pages n, fs) s') : HandedOut s (.pages n) fs s' := by
  obtain ⟨⟨h1, hav⟩, hrun⟩ := h
  rcases mmAllocPages_spec hl hn h1 hav with ⟨e, he, -⟩ | ⟨f, s₁, hs₁, hlt, hfree, hl₁, hv₁, hu, hm, hp⟩
  · simp [Call.run, he] at hrun
  · simp only [Call.run, hs₁, ok_bind] at hrun
    cases hrun
    have hdiv : 0x1000 * f / 0x1000 = f := by omega
    rw [hdiv]
    have hgiven (g : Nat) (hg : g ∈ (List.range n).map (f + ·)) :
        s.inFrames (g / 32) ∧ s.used g = false := by
      have hrange := mem_run.mp hg
      have hfree' := hfree (g - f) (by omega)
      have hsum : f + (g - f) = g := by omega
      rwa [hsum] at hfree'
    refine ⟨hl₁, hv₁, List.nodup_range.map (fun a b h => by simpa using h), hgiven, ?_, ?_, ?_⟩
    · intro g hgf hgn
      rw [hu g (hgiven g hgf).1]
      simp [mem_run.mp hgf, hgn]
    · intro g hg hgf
      have hout := mem_run.not.mp hgf
      rw [hu g hg]
      simp [hout]
    · intro g hg hmg
      by_cases hin : f ≤ g ∧ g < f + n
      · exact hm g hin.1 hin.2
      · obtain ⟨pg, hpg, hpr⟩ := hmg
        exact ⟨pg, hp g hg (by omega) pg hpg, hpr⟩

/-- A call of `alloc_frame` on an entry without a frame. -/
theorem frameStep_spec {p : Nat} {k w : Bool} (hl : Layout s) (hn : s.nframes < 2 ^ 20)
    (h : CallStep s (.frame p k w, fs) s') : HandedOut s (.frame p k w) fs s' := by
  obtain ⟨⟨hp, hz, hmem⟩, hrun⟩ := h
  obtain ⟨f, s₁, hs₁, h0, hlt, hfr, hfree, hl₁, hv₁, hu, hm⟩ :=
    allocFrame_spec (k := k) (w := w) hl hn hp hz hmem
  simp only [Call.run, hs₁, ok_bind] at hrun
  cases hrun
  rw [hfr]
  have hin : s.inFrames (f / 32) := by
    obtain ⟨g, -, hg, -⟩ := hmem
    rw [Mm.inFrames_iff (by omega)]
    omega
  refine ⟨hl₁, hv₁, List.nodup_singleton f, ?_, ?_, ?_, hm⟩
  · intro g hg
    rw [List.mem_singleton.mp hg]
    exact ⟨hin, hfree⟩
  · intro g hgf _
    rw [List.mem_singleton.mp hgf]
    cases hu f hin with
    | inl hmarked => rw [hmarked, decide_eq_true rfl, Bool.true_or]
    | inr hzero => exact absurd hzero.1 h0
  · intro g hg hgf
    have hne : g ≠ f := fun heq => hgf (List.mem_singleton.mpr heq)
    cases hu g hg with
    | inl hkept =>
      left
      rw [hkept, decide_eq_false hne, Bool.false_or]
    | inr hzero => exact .inr ⟨hzero.1, ⟨p, k, w, rfl⟩, hzero.2⟩

theorem callStep_spec (hl : Layout s) (hn : s.nframes < 2 ^ 20) (h : CallStep s (c, fs) s') :
    HandedOut s c fs s' := by
  cases c with
  | pages n => exact pagesStep_spec hl hn h
  | frame p k w => exact frameStep_spec hl hn h

end Calls

theorem callStep_used {s s' : Mm} {l : Call × List Nat} (hl : Layout s)
    (hn : s.nframes < 2 ^ 20) (h : CallStep s l s') {g : Nat} (hg : s.inFrames (g / 32))
    (hu : s.used g = true) : s'.used g = true := by
  obtain ⟨c, fs⟩ := l
  obtain ⟨-, -, -, hfree, -, hsame, -⟩ := callStep_spec hl hn h
  by_cases hgf : g ∈ fs
  · have := (hfree g hgf).2
    simp [hu] at this
  · rcases hsame g hg hgf with h1 | ⟨-, -, h1⟩
    · rw [h1, hu]
    · exact h1

/-- Over a run, the frames of memory that were handed out are marked, were free at the start, and
differ from each other. -/
theorem calls_run {s₀ s : Mm} {ls : List (Call × List Nat)} (hl : Layout s₀)
    (hn : s₀.nframes < 2 ^ 20) (hrun : Run CallStep s₀ ls s) :
    Layout s ∧ SameVars s₀ s ∧
      (∀ g < 2 ^ 20, s₀.mapped g → s.mapped g) ∧
      (∀ g, s₀.inFrames (g / 32) → s₀.used g = true → s.used g = true) ∧
      ((handedOut ls).filter (· < s₀.nframes)).Nodup ∧
      ∀ f ∈ handedOut ls, s₀.inFrames (f / 32) ∧ s₀.used f = false ∧
        (f < s₀.nframes → s.used f = true) := by
  induction hrun with
  | nil s => exact ⟨hl, .refl s, fun _ _ h => h, fun _ _ h => h, by simp [handedOut]⟩
  | @cons s s₁ s' l ls hst _ ih =>
    obtain ⟨c, fs⟩ := l
    obtain ⟨hl₁, hv₁, hnodup, hfree, hset, hsame, hm₁⟩ := callStep_spec hl hn hst
    obtain ⟨hl', hv', hm', hu', hnd, hall⟩ := ih hl₁ (hv₁.nframes ▸ hn)
    rw [hv₁.nframes] at hnd hall
    have keep (g : Nat) (hg : s.inFrames (g / 32)) (h : s.used g = true) : s₁.used g = true :=
      callStep_used hl hn hst hg h
    have hcons : handedOut ((c, fs) :: ls) = fs ++ handedOut ls := by simp [handedOut]
    refine ⟨hl', hv₁.trans hv', fun g hg h => hm' g hg (hm₁ g hg h),
      fun g hg h => hu' g (hv₁.inFrames.mpr hg) (keep g hg h), ?_, ?_⟩
    · rw [hcons, List.filter_append]
      refine List.nodup_append.mpr ⟨hnodup.filter _, hnd, ?_⟩
      intro a ha b hb hab
      subst hab
      rw [List.mem_filter, decide_eq_true_eq] at ha hb
      have h1 := hset a ha.1 ha.2
      have h2 := (hall a hb.1).2.1
      simp [h1] at h2
    · intro f hf
      rw [hcons] at hf
      rcases List.mem_append.mp hf with hf | hf
      · obtain ⟨hin, hff⟩ := hfree f hf
        exact ⟨hin, hff, fun hlt => hu' f (hv₁.inFrames.mpr hin) (hset f hf hlt)⟩
      · obtain ⟨hin, h1, h2⟩ := hall f hf
        have hin' := hv₁.inFrames.mp hin
        refine ⟨hin', ?_, h2⟩
        cases hu : s.used f with
        | false => rfl
        | true =>
          have := keep f hin' hu
          simp [this] at h1

/-- Runs of calls that find what they ask for hand out every frame of memory at most once and touch
no other bits, `alloc_frame` comes back with a marked frame, and `mm_alloc_pages` never finds its
own search wrong. -/
theorem calls_sound {s₀ s : Mm} {ls : List (Call × List Nat)} (hl : Layout s₀)
    (hn : s₀.nframes < 2 ^ 20) (hrun : Run CallStep s₀ ls s) :
    ((handedOut ls).filter (· < s₀.nframes)).Nodup ∧
    (∀ f ∈ handedOut ls, s₀.used f = false) ∧
    (∀ c fs s', CallStep s (c, fs) s' → ∀ g, s.inFrames (g / 32) → g ∉ fs →
      s'.used g = s.used g ∨ g = 0 ∧ (∃ p k w, c = .frame p k w) ∧ s'.used g = true) ∧
    (∀ p k w, (Call.frame p k w).Served s →
      ∃ f s', CallStep s (.frame p k w, [f]) s' ∧ f ≠ 0 ∧ s'.used f = true) ∧
    ∀ c : Call, c.Served s → c.run s ≠ .error brokenPanic := by
  obtain ⟨hl', hv, -, -, hnodup, hall⟩ := calls_run hl hn hrun
  have hn' : s.nframes < 2 ^ 20 := hv.nframes ▸ hn
  refine ⟨hnodup, fun f hf => (hall f hf).2.1, ?_, ?_, ?_⟩
  · intro c fs s' hst
    exact (callStep_spec hl' hn' hst).others
  · intro p k w hserved
    obtain ⟨hp, hz, hmem⟩ := hserved
    obtain ⟨f, s', hs', h0, hlt, hfr, -⟩ := allocFrame_spec (k := k) (w := w) hl' hn' hp hz hmem
    have hst : CallStep s (.frame p k w, [f]) s' := by
      refine ⟨⟨hp, hz, hmem⟩, ?_⟩
      simp only [Call.run, hs', ok_bind, hfr]
      rfl
    exact ⟨f, s', hst, h0, (callStep_spec hl' hn' hst).marked f (by simp) hlt⟩
  · intro c hserved herr
    cases c with
    | pages n =>
      rcases mmAllocPages_spec hl' hn' hserved.1 hserved.2 with ⟨e, he, hne⟩ | ⟨f, s', hs', -⟩
      · rw [Call.run, he] at herr
        cases herr
        exact hne rfl
      · rw [Call.run, hs'] at herr
        cases herr
    | frame p k w =>
      obtain ⟨f, s', hs', -⟩ := allocFrame_spec (k := k) (w := w) hl' hn' hserved.1 hserved.2.1
        hserved.2.2
      rw [Call.run, hs'] at herr
      cases herr

/-- 256 KiB of memory behind an empty bitmap, before any page table exists. -/
def smallMemory : Mm where
  mem := fun _ => 0
  nframes := 64
  frames := 0x100000
  kernelDir := 0x101000
  currentDirectory := 0
  plp := 0x103004
  heapOnline := false

theorem smallMemory_layout : Layout smallMemory := by
  have htbl (t : Nat) : smallMemory.tbl t = 0 := by
    simp [Mm.tbl, Mm.table, Memory.word, smallMemory]
  exact ⟨by decide, by decide, by decide, fun t _ h => absurd (htbl t) h,
    fun t _ => by rw [htbl], fun t _ u _ h => absurd (htbl t) h⟩

/-- The state after a call that does not fault. -/
def Call.after (c : Call) (s : Mm) : Mm :=
  match c.run s with
  | .ok (_, s') => s'
  | .error _ => s

theorem Call.step_after {c : Call} {s : Mm} {fs : List Nat} (hserved : c.Served s)
    (h : (c.run s).map Prod.fst = .ok fs) : CallStep s (c, fs) (c.after s) := by
  refine ⟨hserved, ?_⟩
  unfold Call.after
  cases hrun : c.run s with
  | error e =>
    rw [hrun] at h
    cases h
  | ok r =>
    rw [hrun] at h
    cases h
    rfl

/-- Two pages, a frame for the entry of page 10 in the table that they made, and three pages. -/
theorem calls_sound_mixed : ∃ s, Run CallStep smallMemory
      [(.pages 2, [0, 1]), (.frame 0x104028 true false, [2]), (.pages 3, [3, 4, 5])] s ∧
    (∀ f ∈ [0, 1, 2, 3, 4, 5], smallMemory.used f = false) ∧
    ∀ c : Call, c.Served s → c.run s ≠ .error brokenPanic := by
  let s₁ := (Call.pages 2).after smallMemory
  let s₂ := (Call.frame 0x104028 true false).after s₁
  have hpages : (Call.pages 2).Served smallMemory := ⟨by decide, 0, by decide, by decide, by decide, by decide⟩
  have hframe : (Call.frame 0x104028 true false).Served s₁ :=
    ⟨⟨by decide, by decide +kernel, by decide +kernel⟩, by decide +kernel, 2, by decide, by decide +kernel,
      by decide +kernel⟩
  have hpages' : (Call.pages 3).Served s₂ :=
    ⟨by decide, 3, by decide +kernel, by decide, by decide +kernel, by decide +kernel⟩
  have hrun : Run CallStep smallMemory [(.pages 2, [0, 1]), (.frame 0x104028 true false, [2]),
      (.pages 3, [3, 4, 5])] ((Call.pages 3).after s₂) :=
    .cons (Call.step_after hpages (by decide +kernel)) (.cons (Call.step_after hframe (by decide +kernel))
      (.single (Call.step_after hpages' (by decide +kernel))))
  obtain ⟨-, hfree, -, -, hsearch⟩ := calls_sound smallMemory_layout (by decide) hrun
  exact ⟨_, hrun, hfree, hsearch⟩

/-- All of the address space but its last page, with the last two bits clear. -/
def highMemory : Mm where
  mem := fun x =>
    if 0x100000 ≤ x ∧ x < 0x100000 + 131071 then 0xFF#8
    else if x = 0x100000 + 131071 then 0x3F#8 else 0#8
  nframes := 0xFFFFF
  frames := 0x100000
  kernelDir := 0x140000
  currentDirectory := 0
  plp := 0x142004
  heapOnline := false

theorem highMemory_used {f : Nat} (hf : f < 2 ^ 20) : highMemory.used f = decide (f < 0xFFFFE) := by
  rw [Mm.used, Memory.bit_eq_byte]
  simp only [highMemory]
  by_cases h : f / 8 < 131071
  · have hall : ∀ i < 8, (0xFF#8).getLsbD i = true := by decide
    rw [if_pos (by omega), hall _ (by omega), eq_comm, decide_eq_true_eq]
    omega
  · have hlast : ∀ i < 8, (0x3F#8).getLsbD i = decide (i < 6) := by decide
    rw [if_neg (by omega), if_pos (by omega), hlast _ (by omega), decide_eq_decide]
    omega

/-- The end of the last run wraps to 0, the loop that would mark it makes no turn, and the same
frames are handed out again. -/
theorem highMemory_twice :
    Run (fun s (l : Call × List Nat) s' => l.1.run s = .ok (l.2, s')) highMemory
      [(.pages 2, [0xFFFFE, 0xFFFFF]), (.pages 2, [0xFFFFE, 0xFFFFF])] highMemory ∧
    highMemory.nframes < 2 ^ 20 ∧
    ¬((handedOut [(.pages 2, [0xFFFFE, 0xFFFFF]), (.pages 2, [0xFFFFE, 0xFFFFF])]).filter
      (· < highMemory.nframes)).Nodup := by
  have hin (f : Nat) (hf : f < 2 ^ 20) : highMemory.inFrames (f / 32) := by
    have hwords : highMemory.frameWords = 65535 := by decide
    unfold Mm.inFrames
    omega
  have hfree : highMemory.runFree 0xFFFFE 2 := by
    intro j hj
    rw [highMemory_used (by omega), decide_eq_false_iff_not]
    omega
  obtain ⟨f, hf, hfirst, hrun, -⟩ := firstNFrames_ok (s := highMemory) (by decide) (by decide)
    (fun g hg j hj => hin _ (Nat.mod_lt _ (by decide))) hfree
  obtain rfl : f = 0xFFFFE := by
    have := hrun 0 (by omega)
    rw [highMemory_used (by omega), decide_eq_false_iff_not] at this
    omega
  have hcall : mmAllocPages highMemory 2 = .ok (0xFFFFE000, highMemory) := by
    have haddr := wrap_signedFrame (f := 0xFFFFE) (by decide)
    rw [mmAllocPages, hfirst, ok_bind]
    simp only [haddr]
    rfl
  have hstep : (Call.pages 2).run highMemory = .ok ([0xFFFFE, 0xFFFFF], highMemory) := by
    simp only [Call.run, hcall, ok_bind]
    rfl
  exact ⟨.cons hstep (.single hstep), by decide, by decide⟩

end Levos.Memory
