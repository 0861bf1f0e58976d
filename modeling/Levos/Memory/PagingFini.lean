import Levos.Memory.Boot
import Levos.Memory.FrameAllocation

namespace Levos.Memory

open Levos.Framework

def kheapStart : Nat := 0x00800000
def kheapEnd : Nat := 0x20000000

/-- The bodies of the loops of `paging_fini`. -/
def dmaTurn (make k w : Bool) (i : Nat) (s : Mm) : Except Fault Mm := do
  let (p, s) ← getPage s i make s.kernelDir
  allocDmaFrame s p k w i

def allocTurn (i : Nat) (s : Mm) : Except Fault Mm := do
  let (p, s) ← getPage s i true s.kernelDir
  allocFrame s p true false

def makeTurn (i : Nat) (s : Mm) : Except Fault Mm := do
  let (_, s) ← getPage s i true s.kernelDir
  return s

/-- `paging_fini`, without what it prints. -/
def pagingFini (s : Mm) : Except Fault Mm := do
  let (p, s) ← getPage s 0 true s.kernelDir
  let s := s.setPage p { s.page p with present := false }
  let s ← setFrame s 0
  let s ← forPages (fun _ => 0x80000) (dmaTurn true true false) pageTurns 0x1000 s
  let s ← forPages (fun _ => 0x100000) (dmaTurn true true false) pageTurns 0x80000 s
  -- the tables that this loop makes move its bound
  let s ← forPages (fun s => wrap (s.plp + 0x3000)) (dmaTurn true true false) pageTurns 0x100000 s
  let s ← forPages (fun _ => 0xC0000) (dmaTurn false false true) pageTurns 0xB8000 s
  let s := { s with mem := s.mem.setWord (s.kernelDir + 8192) (BitVec.ofNat 32 s.kernelDir) }
  let hs := if kheapStart < wrap (s.plp + 0x3000) then wrap (s.plp + 0x100000) else kheapStart
  let s ← forPages (fun _ => hs) allocTurn pageTurns (wrap (s.plp + 0x3000)) s
  let s ← forPages (fun _ => kheapEnd) makeTurn pageTurns hs s
  return { s with currentDirectory := s.kernelDir }

/-- The page that `plp` stands on. -/
def Mm.floor (s : Mm) : Nat := s.plp - s.plp % 0x1000

/-- Memory reaches 16 MiB beyond the kernel and beyond the start of the heap, and it ends where 32-bit
addresses end or below. -/
structure Ample (s : Mm) : Prop where
  kernel : s.plp + 0x1000000 ≤ 32 * (s.nframes / 32) * 0x1000
  heap : kheapStart + 0x1000000 ≤ 32 * (s.nframes / 32) * 0x1000
  space : s.nframes ≤ 2 ^ 20

/-- Memory reaches 16 MiB beyond the kernel and beyond the start of the heap, and it ends below the
last page that a 32-bit address can name. -/
structure Roomy (s : Mm) : Prop where
  kernel : s.plp + 0x1000000 ≤ 32 * (s.nframes / 32) * 0x1000
  heap : kheapStart + 0x1000000 ≤ 32 * (s.nframes / 32) * 0x1000
  space : s.nframes < 2 ^ 20

theorem Roomy.ample {s : Mm} (h : Roomy s) : Ample s := ⟨h.kernel, h.heap, Nat.le_of_lt h.space⟩

/-- Where `paging_fini` has room for its tables: the heap is not online yet. -/
structure Enough (s : Mm) : Prop extends Ample s where
  offline : s.heapOnline = false
  low : 0x100000 ≤ s.plp

/-- `alloc_frame` on the empty entry of page `g` gives it the first free frame, when that is not
frame 0. -/
theorem allocFrame_entry {s : Mm} {g f : Nat} (hl : Layout s) (hg : g < 2 ^ 20)
    (htbl : s.tbl (g / 1024) ≠ 0) (hempty : (s.page (s.entry g)).frame = 0)
    (hfirst : firstFrame s = .ok f) (h0 : f ≠ 0) (hf : f < 2 ^ 20) (hin : s.inFrames (f / 32))
    (k w : Bool) :
    ∃ s' pg, allocFrame s (s.entry g) k w = .ok s' ∧ pg.present = true ∧ pg.frame = BitVec.ofNat 20 f ∧
      Layout s' ∧ SameVars s s' ∧ s'.plp = s.plp ∧ (∀ t < 1024, s'.tbl t = s.tbl t) ∧
      (∀ x, s.inFrames (x / 32) → s'.used x = (decide (x = f) || s.used x)) ∧
      (∀ x < 2 ^ 20, s'.pte x = if x = g then some pg else s.pte x) ∧
      ∀ z, OffTables s z → s'.mem z = s.mem z := by
  have hentry : s.entry g ≠ 0 := by
    have hinside := (hl.entry_inside hg htbl).1
    unfold pageDirSize at hinside
    omega
  have haddr : wrap (f * 0x1000) / 0x1000 = f := by
    rw [wrap_of_lt (by omega)]
    omega
  -- the frame is marked
  obtain ⟨s₁, hs₁⟩ : ∃ s₁, setFrame s (wrap (f * 0x1000)) = .ok s₁ :=
    ⟨_, if_pos (by rw [haddr]; exact hin)⟩
  obtain ⟨hl₁, hv₁, hp₁, -, hu₁, he₁, ht₁⟩ := setFrame_ok hl hs₁
  rw [haddr] at hu₁
  have hentry₁ : s₁.entry g = s.entry g := by rw [Mm.entry, ht₁ _ (by omega), Mm.entry]
  have htbl₁ : s₁.tbl (g / 1024) ≠ 0 := by rwa [ht₁ _ (by omega)]
  -- the entry holds it
  let pg₁ : Page := { s₁.page (s₁.entry g) with frame := BitVec.ofNat 20 f }
  let s₂ := s₁.setPage (s₁.entry g) pg₁
  obtain ⟨hl₂, ht₂, hu₂⟩ := setPage_entry hl₁ hg htbl₁ pg₁
  have hentry₂ : s₂.entry g = s₁.entry g := by rw [Mm.entry, ht₂ _ (by omega), Mm.entry]
  have htbl₂ : s₂.tbl (g / 1024) ≠ 0 := by rwa [ht₂ _ (by omega)]
  have hpage : s₂.page (s₂.entry g) = pg₁ := by rw [hentry₂, page_setPage]
  -- and the flags are set
  let pg₂ : Page := { pg₁ with present := true, rw := w, user := !k }
  obtain ⟨hl₃, ht₃, hu₃⟩ := setPage_entry hl₂ hg htbl₂ pg₂
  have hrun : allocFrame s (s.entry g) k w = .ok (s₂.setPage (s₂.entry g) pg₂) := by
    have hne : (s₂.page (s₂.entry g)).frame ≠ 0 := by
      rw [hpage]
      intro hzero
      have hnat := congrArg BitVec.toNat hzero
      rw [BitVec.toNat_ofNat, Nat.mod_eq_of_lt hf] at hnat
      exact h0 hnat
    rw [allocFrame, if_neg hentry, allocFrameLoop, if_neg (not_not.mpr hempty), hfirst, ok_bind, hs₁,
      ok_bind, ← hentry₁]
    change allocFrameLoop (s₁.entry g) k w (s.nframes + 1) s₂ = _
    rw [← hentry₂, allocFrameLoop, if_pos hne, hpage]
  refine ⟨_, pg₂, hrun, rfl, rfl, hl₃, hv₁.trans rfl, hp₁, ?_, ?_, ?_, ?_⟩
  · intro t ht
    rw [ht₃ t ht, ht₂ t ht, ht₁ t ht]
  · intro x hx
    have hx₁ := hv₁.inFrames.mpr hx
    rw [hu₃ x hx₁, hu₂ x hx₁, hu₁ x]
  · intro x hx
    rw [pte_setPage hl₂ hg hx htbl₂]
    by_cases hxg : x = g
    · rw [if_pos hxg, if_pos hxg]
    · rw [if_neg hxg, if_neg hxg, pte_setPage hl₁ hg hx htbl₁, if_neg hxg, he₁ x hx]
  · intro z hz
    have hz₁ : OffTables s₁ z := hz.vars hv₁ hp₁
    have hz₂ : OffTables s₂ z := hz₁
    rw [setPage_off hl₂ hg htbl₂ _ hz₂, setPage_off hl₁ hg htbl₁ _ hz₁, setFrame_off hl hs₁ hz]

/-- The frames in use when the pages below `h` are mapped onto themselves. The end of a memory of 4 GiB is 0
in 32 bits, so that `alloc_dma_frame` marks nothing of it, and only frame 0 is in use. -/
def Mm.marked (s : Mm) (h : Nat) : Nat := if s.nframes < 2 ^ 20 then h else 1

theorem marked_one (s : Mm) : s.marked 1 = 1 := ite_self 1

/-- A state inside `paging_fini` when it began in `s₀`: `t` page tables are made, the frames below `c` are
in use, the pages below `d` are mapped onto themselves, and those from `d` up to `h` have drawn the last of
the frames in use. Behind `plp` nothing is written. -/
structure Mapping (s₀ s : Mm) (c d t h : Nat) : Prop where
  layout : Layout s
  vars : SameVars s₀ s
  bound : t ≤ 1024
  plp : s.plp = s₀.floor + 0x2000 * t
  tables : ∀ u < 1024, s.tbl u ≠ 0 ↔ u < t
  place : ∀ u < t, s.tbl u = s₀.floor + 0x2000 * u + 0x1000
  used : ∀ f < s₀.nframes, s.used f = decide (f < c)
  marks : c ≤ h
  split : d ≤ h
  inside : h ≤ s₀.nframes
  ident : ∀ g, 1 ≤ g → g < d → ∃ pg, s.pte g = some pg ∧ pg.present = true ∧ pg.frame = BitVec.ofNat 20 g
  drawn : ∀ g, d ≤ g → g < h →
    ∃ pg, s.pte g = some pg ∧ pg.present = true ∧ pg.frame = BitVec.ofNat 20 (c + g - h)
  empty : ∀ g < 2 ^ 20, h ≤ g → g / 1024 < t → s.pte g = some (Page.ofWord 0)
  behind : ∀ z, s.plp ≤ z → s.mem z = s₀.mem z

namespace Mapping

variable {s₀ s : Mm} {c d t h : Nat}

theorem inFrames (hm : Mapping s₀ s c d t h) (he : Enough s₀) {f : Nat} (hf : f < s₀.nframes) :
    s.inFrames (f / 32) := by
  have h1 := he.heap
  have h2 := he.space
  rw [hm.vars.inFrames]
  rw [Mm.inFrames_iff (by omega)]
  omega

/-- A table that is missing is made behind the last one. -/
theorem makeNext (hm : Mapping s₀ s c d t h) (he : Enough s₀) {i : Nat} (hi : i < 2 ^ 32)
    (ht : i / 0x1000 / 1024 = t) :
    ∃ s', getPage s i true s.kernelDir = .ok (s'.entry (i / 0x1000), s') ∧
      Mapping s₀ s' c d (t + 1) h := by
  have hkernel := he.kernel
  have hspace := he.space
  have hinside := hm.inside
  have hplp := hm.plp
  have hsplit := hm.split
  have hfloor : s₀.floor % 0x1000 = 0 ∧ s₀.floor ≤ s₀.plp := by
    unfold Mm.floor
    omega
  have h0 : s.tbl t = 0 := by
    by_contra hne
    exact Nat.lt_irrefl t ((hm.tables t (by omega)).mp hne)
  have hnone (g : Nat) (hg : g / 1024 = t) : s.pte g = none := if_pos (hg ▸ h0)
  rcases getPage_spec hm.layout hi with ⟨-, hon⟩ | ⟨-, hlt⟩ | ⟨s', hs', hgot⟩
  · rw [hm.vars.heapOnline, he.offline] at hon
    cases hon
  · unfold pageTableSize at hlt
    omega
  · have htbl (u : Nat) (hu : u < 1024) :
        s'.tbl u = if u = t then s₀.floor + 0x2000 * t + 0x1000 else s.tbl u := by
      rw [hgot.tables u hu, ht]
      by_cases hut : u = t
      · rw [if_pos ⟨hut, hut ▸ h0⟩, if_pos hut]
        omega
      · rw [if_neg (fun hall => hut hall.1), if_neg hut]
    have hkept {g : Nat} {P : Page → Prop} (hg : g < 2 ^ 20) (hpte : ∃ pg, s.pte g = some pg ∧ P pg) :
        ∃ pg, s'.pte g = some pg ∧ P pg := by
      obtain ⟨pg, hpg, hpr⟩ := hpte
      exact ⟨pg, by rw [hgot.pages g hg, if_neg (by simp [hpg]), hpg], hpr⟩
    have hmore : s'.plp = s.plp + 0x2000 := by
      rw [hgot.plp, if_pos (hnone _ ht)]
      omega
    refine ⟨s', hs', hgot.layout, hm.vars.trans hgot.vars, by omega, ?_, ?_, ?_, ?_, hm.marks, hsplit, hinside,
      ?_, ?_, ?_, ?_⟩
    · rw [hmore, hplp, Nat.mul_succ, Nat.add_assoc]
    · intro u hu
      rw [htbl u hu]
      by_cases hut : u = t
      · rw [if_pos hut]
        omega
      · rw [if_neg hut, hm.tables u hu]
        omega
    · intro u hu
      rw [htbl u (by omega)]
      by_cases hut : u = t
      · rw [if_pos hut, hut]
      · rw [if_neg hut, hm.place u (by omega)]
    · intro f hf
      rw [hgot.used f (hm.inFrames he hf), hm.used f hf]
    · exact fun g h1 h2 => hkept (by omega) (hm.ident g h1 h2)
    · exact fun g h1 h2 => hkept (by omega) (hm.drawn g h1 h2)
    · intro g hg h1 h2
      rw [hgot.pages g hg, ht]
      by_cases hgt : g / 1024 = t
      · rw [if_pos ⟨hnone g hgt, hgt⟩]
      · rw [if_neg (fun hall => hgt hall.2)]
        exact hm.empty g hg h1 (by omega)
    · intro z hz
      rw [hgot.behind z hz]
      exact hm.behind z (by omega)

/-- Making the table of page `g`, if it is missing, adds the next one. -/
theorem make (hm : Mapping s₀ s c d t h) (he : Enough s₀) {i : Nat} (hi : i < 2 ^ 32)
    (ht : i / 0x1000 / 1024 ≤ t) :
    ∃ s', getPage s i true s.kernelDir = .ok (s'.entry (i / 0x1000), s') ∧
      Mapping s₀ s' c d (max t (i / 0x1000 / 1024 + 1)) h := by
  by_cases hlast : i / 0x1000 / 1024 = t
  · rw [hlast, Nat.max_eq_right (Nat.le_succ t)]
    exact hm.makeNext he hi hlast
  · have hlt : i / 0x1000 / 1024 < t := Nat.lt_of_le_of_ne ht hlast
    have hthere : s.tbl (i / 0x1000 / 1024) ≠ 0 := (hm.tables _ (by omega)).mpr hlt
    rw [Nat.max_eq_left hlt]
    exact ⟨s, getPage_there hthere, hm⟩

/-- A page below `h`, or the next one, is mapped onto itself. -/
theorem dma (hm : Mapping s₀ s (s₀.marked h) h t h) (he : Enough s₀) (k w : Bool) {i : Nat}
    (hi : i % 0x1000 = 0) (h1 : 1 ≤ h) (hle : i / 0x1000 ≤ h) (ht : i / 0x1000 / 1024 < t)
    (hn : i / 0x1000 < s₀.nframes) :
    ∃ s', allocDmaFrame s (s.entry (i / 0x1000)) k w i = .ok s' ∧
      Mapping s₀ s' (s₀.marked (max h (i / 0x1000 + 1))) (max h (i / 0x1000 + 1)) t
        (max h (i / 0x1000 + 1)) := by
  have hspace := he.space
  have hin := hm.inside
  have hb := hm.bound
  have hend : s.memEnd = s₀.nframes * 0x1000 % 2 ^ 32 := by rw [hm.vars.memEnd, memEnd_mod]
  have htbl : s.tbl (i / 0x1000 / 1024) ≠ 0 := (hm.tables _ (by omega)).mpr ht
  obtain ⟨s', hs', hl', hv', hp', ht', hu', he'⟩ := allocDmaFrame_spec k w hm.layout
    (by omega) htbl fun _ => hm.inFrames he hn
  obtain ⟨-, hoff⟩ := allocDmaFrame_off hm.layout (by omega) htbl hs'
  refine ⟨s', hs', hl', hm.vars.trans hv', hb, hp'.trans hm.plp, ?_, ?_, ?_, ?_, Nat.le_refl _, by omega, ?_,
    ?_, ?_, ?_⟩
  · intro u hu
    rw [ht' u hu, hm.tables u hu]
  · intro u hu
    rw [ht' u (by omega), hm.place u hu]
  · intro f hf
    rw [hu' f (hm.inFrames he hf), hm.used f hf, ← Bool.decide_or, decide_eq_decide, hend]
    unfold Mm.marked
    split <;> omega
  · unfold Mm.marked
    split <;> omega
  · intro g h1 h2
    rw [he' g (by omega)]
    split_ifs with hgi
    · exact ⟨_, rfl, rfl, by rw [hgi]; rfl⟩
    · exact hm.ident g h1 (by omega)
  · intro g h1 h2
    omega
  · intro g hg h1 h2
    rw [he' g hg, if_neg (by omega)]
    exact hm.empty g hg (by omega) h2
  · intro z hz
    rw [hp'] at hz
    rw [hoff z (.inl hz), hm.behind z hz]

/-- The next page gets the first free frame. -/
theorem alloc (hm : Mapping s₀ s c d t h) (he : Enough s₀) (h1 : 1 ≤ c) (ht : h / 1024 < t)
    (hn : h < 32 * (s₀.nframes / 32)) (k w : Bool) :
    ∃ s', allocFrame s (s.entry h) k w = .ok s' ∧ Mapping s₀ s' (c + 1) d t (h + 1) := by
  have hspace := he.space
  have hmarks := hm.marks
  have hsplit := hm.split
  have hb := hm.bound
  have hvn := hm.vars.nframes
  have hg : h < 2 ^ 20 := by omega
  have htbl : s.tbl (h / 1024) ≠ 0 := (hm.tables _ (by omega)).mpr ht
  have hempty : s.page (s.entry h) = Page.ofWord 0 :=
    Option.some.inj ((pte_eq_some htbl).symm.trans (hm.empty h hg (Nat.le_refl _) ht))
  have hfree : s.used c = false := by
    rw [hm.used c (by omega)]
    simp
  obtain ⟨f, hf, hfirst, hff, -⟩ : ∃ f ≤ c, firstFrame s = .ok f ∧ s.used f = false ∧
      ∀ g < f, s.used g = true := by
    refine firstFrame_search (fun i hi => ?_) (by omega) hfree
    rw [hvn] at hi
    have hword := hm.inFrames he (f := 32 * i) (by omega)
    rwa [Nat.mul_div_cancel_left i (by decide)] at hword
  obtain rfl : f = c := by
    rw [hm.used f (by omega), decide_eq_false_iff_not] at hff
    omega
  have hframe : (s.page (s.entry h)).frame = 0 := by
    rw [hempty]
    rfl
  obtain ⟨s', pg, hrun, hpresent, hpg, hl', hv', hp', ht', hu', he', hoff⟩ :=
    allocFrame_entry hm.layout hg htbl hframe hfirst (by omega) (by omega) (hm.inFrames he (by omega)) k w
  refine ⟨s', hrun, hl', hm.vars.trans hv', hb, hp'.trans hm.plp, ?_, ?_, ?_, by omega, by omega, by omega, ?_,
    ?_, ?_, ?_⟩
  · intro u hu
    rw [ht' u hu, hm.tables u hu]
  · intro u hu
    rw [ht' u (by omega), hm.place u hu]
  · intro g hg'
    rw [hu' g (hm.inFrames he hg'), hm.used g hg', ← Bool.decide_or, decide_eq_decide]
    omega
  · intro g h2 h3
    rw [he' g (by omega), if_neg (by omega)]
    exact hm.ident g h2 h3
  · intro g h2 h3
    rw [he' g (by omega), show f + 1 + g - (h + 1) = f + g - h by omega]
    by_cases hgh : g = h
    · rw [if_pos hgh, hgh, Nat.add_sub_cancel]
      exact ⟨pg, rfl, hpresent, hpg⟩
    · rw [if_neg hgh]
      exact hm.drawn g h2 (by omega)
  · intro g hg' h2 h3
    rw [he' g hg', if_neg (by omega)]
    exact hm.empty g hg' (by omega) h3
  · intro z hz
    rw [hp'] at hz
    rw [hoff z (.inl hz), hm.behind z hz]

theorem dmaTurn (hm : Mapping s₀ s (s₀.marked h) h ((h + 1023) / 1024) h) (he : Enough s₀) (h1 : 1 ≤ h)
    (hn : h < s₀.nframes) :
    ∃ s', dmaTurn true true false (0x1000 * h) s = .ok s' ∧
      Mapping s₀ s' (s₀.marked (h + 1)) (h + 1) ((h + 1 + 1023) / 1024) (h + 1) := by
  have hspace := he.space
  have hdiv : 0x1000 * h / 0x1000 = h := by omega
  obtain ⟨s₁, hs₁, hm₁⟩ := hm.make he (i := 0x1000 * h) (by omega) (by omega)
  rw [hdiv] at hs₁ hm₁
  rw [show max ((h + 1023) / 1024) (h / 1024 + 1) = (h + 1 + 1023) / 1024 by omega] at hm₁
  obtain ⟨s₂, hs₂, hm₂⟩ := hm₁.dma he true false (i := 0x1000 * h) (by omega) h1 (by omega) (by omega)
    (by omega)
  rw [hdiv] at hs₂ hm₂
  rw [show max h (h + 1) = h + 1 by omega] at hm₂
  exact ⟨s₂, by rw [Memory.dmaTurn, hs₁, ok_bind]; exact hs₂, hm₂⟩

theorem allocTurn (hm : Mapping s₀ s c d ((h + 1023) / 1024) h) (he : Enough s₀) (h1 : 1 ≤ c)
    (hn : h < 32 * (s₀.nframes / 32)) :
    ∃ s', allocTurn (0x1000 * h) s = .ok s' ∧
      Mapping s₀ s' (c + 1) d ((h + 1 + 1023) / 1024) (h + 1) := by
  have hspace := he.space
  have hdiv : 0x1000 * h / 0x1000 = h := by omega
  obtain ⟨s₁, hs₁, hm₁⟩ := hm.make he (i := 0x1000 * h) (by omega) (by omega)
  rw [hdiv] at hs₁ hm₁
  rw [show max ((h + 1023) / 1024) (h / 1024 + 1) = (h + 1 + 1023) / 1024 by omega] at hm₁
  obtain ⟨s₂, hs₂, hm₂⟩ := hm₁.alloc he h1 (by omega) hn true false
  exact ⟨s₂, by rw [Memory.allocTurn, hs₁, ok_bind]; exact hs₂, hm₂⟩

/-- A loop with a fixed bound whose turns map one page each. -/
theorem fixedLoop (body : Nat → Mm → Except Fault Mm) (c d : Nat → Nat) (e : Nat)
    (hend : 0x1000 * (e + 1) ≤ 2 ^ 32)
    (hbody : ∀ s h', h ≤ h' → h' < e → Mapping s₀ s (c h') (d h') ((h' + 1023) / 1024) h' →
      ∃ s', body (0x1000 * h') s = .ok s' ∧
        Mapping s₀ s' (c (h' + 1)) (d (h' + 1)) ((h' + 1 + 1023) / 1024) (h' + 1))
    (hm : Mapping s₀ s (c h) (d h) ((h + 1023) / 1024) h) (hle : h ≤ e) :
    ∃ s', forPages (fun _ => 0x1000 * e) body pageTurns (0x1000 * h) s = .ok s' ∧
      Mapping s₀ s' (c e) (d e) ((e + 1023) / 1024) e := by
  have hloop := forPages_rule (fun _ => 0x1000 * e) body
    (fun i s => ∃ h', i = 0x1000 * h' ∧ h ≤ h' ∧ h' ≤ e ∧
      Mapping s₀ s (c h') (d h') ((h' + 1023) / 1024) h')
    (fun _ => False) (0x1000 * e) (by omega) ?_ pageTurns (0x1000 * h) s
    ⟨h, rfl, Nat.le_refl h, hle, hm⟩
    (by unfold pageTurns; omega) (by decide)
  · rcases hloop with ⟨_, _, hF⟩ | ⟨i, s', hs', ⟨h', rfl, h1', hle', hm'⟩, hi⟩
    · exact hF.elim
    · obtain rfl : h' = e := by omega
      exact ⟨s', hs', hm'⟩
  · rintro i s₁ ⟨h', rfl, h1', hle', hm'⟩ hi
    obtain ⟨s₂, hs₂, hm₂⟩ := hbody s₁ h' h1' (by omega) hm'
    exact ⟨hi, .inr ⟨s₂, hs₂, h' + 1, by omega, by omega, by omega, hm₂⟩⟩

/-- The loop over the kernel image: when it ends, the slack of three pages behind `plp` is mapped.
The loop stops at the first bound it meets; below `0x7FA000` two tables are enough for that. -/
theorem imageLoop (hm : Mapping s₀ s (s₀.marked 0x100) 0x100 ((0x100 + 1023) / 1024) 0x100)
    (he : Enough s₀) :
    ∃ s' h', forPages (fun s => wrap (s.plp + 0x3000)) (Memory.dmaTurn true true false) pageTurns
        0x100000 s = .ok s' ∧ Mapping s₀ s' (s₀.marked h') h' ((h' + 1023) / 1024) h' ∧ 0x100 ≤ h' ∧
      0x1000 * h' = s'.plp + 0x3000 ∧ (s₀.floor < 0x7FA000 → h' ≤ 2048) := by
  have hlow := he.low
  have hk := he.kernel
  have hspace := he.space
  have hfloor : s₀.floor % 0x1000 = 0 ∧ s₀.floor ≤ s₀.plp ∧ s₀.plp < s₀.floor + 0x1000 := by
    unfold Mm.floor
    omega
  have hbound (s : Mm) (c d t h : Nat) (hm : Mapping s₀ s c d t h) :
      wrap (s.plp + 0x3000) = s.plp + 0x3000 ∧ s.plp + 0x3000 ≤ s₀.floor + 0x803000 := by
    have hp := hm.plp
    have hb := hm.bound
    refine ⟨wrap_of_lt (by omega), by omega⟩
  have hloop := forPages_rule (fun s => wrap (s.plp + 0x3000)) (Memory.dmaTurn true true false)
    (fun i s => ∃ h, i = 0x1000 * h ∧ 0x100 ≤ h ∧
      Mapping s₀ s (s₀.marked h) h ((h + 1023) / 1024) h ∧ 0x1000 * h ≤ s.plp + 0x3000 ∧
      (s₀.floor < 0x7FA000 → h ≤ 2048))
    (fun _ => False) (s₀.floor + 0x803000) (by omega) ?_ pageTurns 0x100000 s
    ⟨0x100, rfl, le_refl _, hm, by have := hm.plp; omega, by omega⟩
    (by unfold pageTurns; omega) (by decide)
  · rcases hloop with ⟨_, _, hF⟩ | ⟨i, s', hs', ⟨h', rfl, h1', hm', hle', hlow'⟩, hi⟩
    · exact hF.elim
    · obtain ⟨hw, -⟩ := hbound s' _ _ _ _ hm'
      exact ⟨s', h', hs', hm', h1', by omega, hlow'⟩
  · rintro i s₁ ⟨h', rfl, h1', hm', hle', hlow'⟩ hi
    obtain ⟨hw, hlim⟩ := hbound s₁ _ _ _ _ hm'
    have hp := hm'.plp
    obtain ⟨s₂, hs₂, hm₂⟩ := hm'.dmaTurn he (by omega) (by omega)
    have hp₂ := hm₂.plp
    exact ⟨by omega, .inr ⟨s₂, hs₂, h' + 1, by omega, by omega, hm₂, by omega, by omega⟩⟩

/-- The text screen is mapped again, for everyone and for writing. -/
theorem vgaLoop {t : Nat} (hm : Mapping s₀ s (s₀.marked h) h t h) (he : Enough s₀) (ht : 1 ≤ t)
    (hh : 0x100 ≤ h) :
    ∃ s', forPages (fun _ => 0xC0000) (Memory.dmaTurn false false true) pageTurns 0xB8000 s =
      .ok s' ∧ Mapping s₀ s' (s₀.marked h) h t h := by
  have hheap := he.heap
  have hloop := forPages_rule (fun _ => 0xC0000) (Memory.dmaTurn false false true)
    (fun i s => i % 0x1000 = 0 ∧ Mapping s₀ s (s₀.marked h) h t h) (fun _ => False) 0xC0000 (by omega) ?_ pageTurns
    0xB8000 s ⟨by omega, hm⟩ (by unfold pageTurns; omega) (by decide)
  · rcases hloop with ⟨_, _, hF⟩ | ⟨i, s', hs', ⟨-, hm'⟩, -⟩
    · exact hF.elim
    · exact ⟨s', hs', hm'⟩
  · rintro i s₁ ⟨hi0, hm'⟩ hi
    have htbl : s₁.tbl (i / 0x1000 / 1024) ≠ 0 := (hm'.tables _ (by omega)).mpr (by omega)
    have hget : getPage s₁ i false s₁.kernelDir = .ok (s₁.entry (i / 0x1000), s₁) := by
      simp only [getPage]
      exact if_pos htbl
    obtain ⟨s₂, hs₂, hm₂⟩ := hm'.dma he false true hi0 (by omega) (by omega) (by omega)
      (by unfold kheapStart at hheap; omega)
    rw [show max h (i / 0x1000 + 1) = h by omega] at hm₂
    exact ⟨hi, .inr ⟨s₂, by rw [Memory.dmaTurn, hget, ok_bind]; exact hs₂, by omega, hm₂⟩⟩

theorem phyAddr (hm : Mapping s₀ s c d t h) (he : Enough s₀) (w : BitVec 32) :
    Mapping s₀ { s with mem := s.mem.setWord (s.kernelDir + 8192) w } c d t h := by
  have hl := hm.layout
  have hd := hl.dir
  unfold pageDirSize at hd
  have htbl (u : Nat) (hu : u < 1024) :
      ({ s with mem := s.mem.setWord (s.kernelDir + 8192) w } : Mm).tbl u = s.tbl u :=
    congrArg BitVec.toNat
      (Memory.word_setWord_ne (b := s.kernelDir + 4096 + 4 * u) (.inr (by omega)))
  have hpte (g : Nat) (hg : g < 2 ^ 20) :
      ({ s with mem := s.mem.setWord (s.kernelDir + 8192) w } : Mm).pte g = s.pte g := by
    unfold Mm.pte Mm.entry
    rw [htbl _ (by omega)]
    split_ifs with h0
    · rfl
    · obtain ⟨h1, -⟩ := hl.entry_inside hg h0
      unfold Mm.entry pageDirSize at h1
      exact congrArg some (congrArg Page.ofWord (Memory.word_setWord_ne (by omega)))
  have hin := hm.inside
  have hb := hm.bound
  have hbm := hl.bitmap
  have hspace := he.space
  have hsplit := hm.split
  refine ⟨hl.of_tbl htbl, hm.vars.trans rfl, hb, hm.plp, ?_, ?_, ?_, hm.marks, hsplit, hin, ?_, ?_, ?_, ?_⟩
  · intro u hu
    rw [htbl u hu, hm.tables u hu]
  · intro u hu
    rw [htbl u (by omega), hm.place u hu]
  · intro f hf
    have hword := hm.inFrames he hf
    unfold Mm.inFrames at hword
    rw [← hm.used f hf]
    have hagree : Memory.Agree s.frames s.kernelDir s.mem
        (s.mem.setWord (s.kernelDir + 8192) w) := Memory.agree_setWord (.inr (by omega))
    exact Memory.Agree.bit s.frames f hagree (Nat.le_refl _) (by omega)
  · intro g h1 h2
    rw [hpte g (by omega)]
    exact hm.ident g h1 h2
  · intro g h1 h2
    rw [hpte g (by omega)]
    exact hm.drawn g h1 h2
  · intro g hg h1 h2
    rw [hpte g hg]
    exact hm.empty g hg h1 h2
  · intro z hz
    have hz' : s.plp ≤ z := hz
    have hunwritten : s.mem.setWord (s.kernelDir + 8192) w z = s.mem z := Memory.setWord_apply (by omega)
    exact hunwritten.trans (hm.behind z hz)

/-- The last loop makes the tables up to the end of the heap and maps nothing. -/
theorem tableLoop (hm : Mapping s₀ s c d ((h + 1023) / 1024) h) (he : Enough s₀) :
    ∃ s', forPages (fun _ => kheapEnd) makeTurn pageTurns (0x1000 * h) s = .ok s' ∧
      Mapping s₀ s' c d (max ((h + 1023) / 1024) 128) h := by
  have hspace := he.space
  have hin := hm.inside
  have hloop := forPages_rule (fun _ => kheapEnd) makeTurn
    (fun i s => ∃ g, i = 0x1000 * g ∧ h ≤ g ∧ g ≤ max h 0x20000 ∧
      Mapping s₀ s c d (max ((h + 1023) / 1024) ((g + 1023) / 1024)) h)
    (fun _ => False) kheapEnd (by decide) ?_ pageTurns (0x1000 * h) s
    ⟨h, rfl, le_refl _, by omega, by rwa [Nat.max_self]⟩ (by unfold pageTurns kheapEnd; omega)
    (by decide)
  · rcases hloop with ⟨_, _, hF⟩ | ⟨i, s', hs', ⟨g, rfl, hle, hmax, hm'⟩, hi⟩
    · exact hF.elim
    · unfold kheapEnd at hi
      rw [show max ((h + 1023) / 1024) ((g + 1023) / 1024) = max ((h + 1023) / 1024) 128 by omega]
        at hm'
      exact ⟨s', hs', hm'⟩
  · rintro i s₁ ⟨g, rfl, hle, hmax, hm'⟩ hi
    have hi' : 0x1000 * g < kheapEnd := hi
    unfold kheapEnd at hi'
    obtain ⟨s₂, hs₂, hm₂⟩ := hm'.make he (i := 0x1000 * g) (by omega) (by omega)
    rw [show 0x1000 * g / 0x1000 = g by omega] at hm₂
    rw [show max (max ((h + 1023) / 1024) ((g + 1023) / 1024)) (g / 1024 + 1) =
      max ((h + 1023) / 1024) ((g + 1 + 1023) / 1024) by omega] at hm₂
    exact ⟨hi, .inr ⟨s₂, by rw [makeTurn, hs₂]; rfl, g + 1, by omega, by omega, by omega, hm₂⟩⟩

end Mapping

/-- The state that `paging_fini` finds: nothing is marked, and there are no page tables yet. -/
structure Unmapped (s : Mm) : Prop where
  layout : Layout s
  tables : ∀ t < 1024, s.tbl t = 0
  clear : ∀ f < s.nframes, s.used f = false

/-- Page 0 is made absent and its frame is marked. -/
theorem Mapping.start {s₀ : Mm} (hu : Unmapped s₀) (he : Enough s₀) :
    ∃ p s₁ s₂, getPage s₀ 0 true s₀.kernelDir = .ok (p, s₁) ∧
      setFrame (s₁.setPage p { s₁.page p with present := false }) 0 = .ok s₂ ∧
      Mapping s₀ s₂ 1 1 1 1 := by
  have hk := he.kernel
  have hheap := he.heap
  have hspace := he.space
  unfold kheapStart at hheap
  have hin (f : Nat) (hf : f < s₀.nframes) : s₀.inFrames (f / 32) := by
    rw [Mm.inFrames_iff (by omega)]
    omega
  have hnone (g : Nat) (hg : g < 2 ^ 20) : s₀.pte g = none := if_pos (hu.tables _ (by omega))
  rcases getPage_spec (a := 0) hu.layout (by decide) with
    ⟨-, hon⟩ | ⟨-, hlt⟩ | ⟨s₁, hs₁, hl₁, hv₁, hp₁, ht₁, htbl₁, hu₁, he₁, hbehind₁⟩
  · rw [he.offline] at hon
    cases hon
  · unfold pageTableSize at hlt
    omega
  · simp only [Nat.zero_div] at hs₁ hp₁ ht₁ htbl₁ he₁
    rw [if_pos (hnone 0 (by omega))] at hp₁
    obtain ⟨pg, hpg⟩ : ∃ pg : Page, { s₁.page (s₁.entry 0) with present := false } = pg := ⟨_, rfl⟩
    have h20 : 0 < 2 ^ 20 := by decide
    obtain ⟨hl₂, ht₂, hu₂⟩ := setPage_entry hl₁ h20 ht₁ pg
    obtain ⟨s₃, hs₃⟩ : ∃ s₃, setFrame (s₁.setPage (s₁.entry 0) pg) 0 = .ok s₃ :=
      ⟨_, if_pos (hv₁.inFrames.mpr (hin 0 (by omega)))⟩
    obtain ⟨hl₃, hv₃, hp₃, -, hu₃, he₃, ht₃⟩ := setFrame_ok hl₂ hs₃
    have hv : SameVars s₁ (s₁.setPage (s₁.entry 0) pg) := rfl
    have hplp : s₃.plp = s₀.floor + 0x2000 * 1 := hp₃.trans hp₁
    refine ⟨_, s₁, s₃, hs₁, hpg ▸ hs₃, hl₃, (hv₁.trans hv).trans hv₃, by omega, hplp, ?_, ?_, ?_,
      Nat.le_refl 1, Nat.le_refl 1, by omega, ?_, ?_, ?_, ?_⟩
    · intro u hu'
      rw [ht₃ u hu', ht₂ u hu', htbl₁ u hu']
      have := hu.tables u hu'
      split_ifs with h0
      · omega
      · have : u ≠ 0 := fun h => h0 ⟨h, by omega⟩
        omega
    · intro u hu'
      obtain rfl : u = 0 := by omega
      rw [ht₃ 0 (by omega), ht₂ 0 (by omega), htbl₁ 0 (by omega), if_pos ⟨rfl, hu.tables 0 (by omega)⟩]
      rfl
    · intro f hf
      rw [hu₃ f, hu₂ f (hv₁.inFrames.mpr (hin f hf)), hu₁ f (hin f hf), hu.clear f hf,
        Bool.or_false, decide_eq_decide]
      omega
    · intro g h1 h2
      omega
    · intro g h1 h2
      omega
    · intro g hg h1 h2
      have hg0 : g ≠ 0 := by omega
      have hnew : s₀.pte g = none ∧ g / 1024 = 0 := ⟨hnone g hg, by omega⟩
      rw [he₃ g hg, pte_setPage hl₁ h20 hg ht₁, if_neg hg0, he₁ g hg, if_pos hnew]
    · intro z hz
      have hz₁ : s₁.plp ≤ z := hp₃ ▸ hz
      rw [setFrame_off hl₂ hs₃ (.inl hz₁), setPage_off hl₁ h20 ht₁ pg (.inl hz₁), hbehind₁ z hz₁]

/-- Where the kernel image ends at page `h`, with `plp` on the last tables, the heap starts at `e`: at its
usual place, unless the kernel reaches up to it. -/
structure HeapStart (s₀ : Mm) (h plp e : Nat) : Prop where
  aligned : e % 0x1000 = 0
  behind : 0x1000 * h ≤ e
  inside : e ≤ 32 * (s₀.nframes / 32) * 0x1000
  space : e < 2 ^ 32
  room : plp + 0x100000 < 2 ^ 32
  low : s₀.floor < 0x7FA000 → e = 0x800000
  high : 0x7FA000 ≤ s₀.floor → e = plp + 0x100000

theorem heapStart_spec {s₀ : Mm} (he : Enough s₀) {h plp : Nat} (hend : 0x1000 * h = plp + 0x3000)
    (hplp : plp = s₀.floor + 0x2000 * ((h + 1023) / 1024)) (hlow : s₀.floor < 0x7FA000 → h ≤ 2048) :
    HeapStart s₀ h plp (if kheapStart < 0x1000 * h then plp + 0x100000 else kheapStart) := by
  have hkernel := he.kernel
  have hheap := he.heap
  have hspace := he.space
  have hfloor : s₀.floor % 0x1000 = 0 ∧ s₀.floor ≤ s₀.plp := by
    unfold Mm.floor
    omega
  unfold kheapStart at hheap ⊢
  have hroom : plp + 0x100000 < 2 ^ 32 := by omega
  split
  · exact ⟨by omega, by omega, by omega, hroom, hroom, by omega, by omega⟩
  · exact ⟨by omega, by omega, by omega, by omega, hroom, by omega, by omega⟩

/-- How far `paging_fini` comes: `t` tables are made, the pages below `d` are mapped onto themselves, and those
from there up to `h` have drawn a frame each. -/
structure Finished (s₀ s : Mm) (d t h : Nat) : Prop where
  mapping : Mapping s₀ s (s₀.marked d + (h - d)) d t h
  image : 0x1000 * d = s₀.floor + 0x2000 * ((d + 1023) / 1024) + 0x3000
  low : s₀.floor < 0x7FA000 → d ≤ 0x800 ∧ h = 0x800 ∧ t = 128
  high : 0x7FA000 ≤ s₀.floor → h = d + 0xFD ∧ s₀.floor + 0x2000 * t ≤ 0x1000 * h

/-- The tables up to the end of the heap, where the pages below its start are mapped. -/
theorem HeapStart.tables {s₀ : Mm} {h plp e : Nat} (hs : HeapStart s₀ h plp e)
    (hplp : plp = s₀.floor + 0x2000 * ((h + 1023) / 1024)) (hend : 0x1000 * h = plp + 0x3000) :
    (s₀.floor < 0x7FA000 → h ≤ 0x800 ∧ e / 0x1000 = 0x800 ∧ max ((e / 0x1000 + 1023) / 1024) 128 = 128) ∧
      (0x7FA000 ≤ s₀.floor → e / 0x1000 = h + 0xFD ∧
        s₀.floor + 0x2000 * max ((e / 0x1000 + 1023) / 1024) 128 ≤ 0x1000 * (e / 0x1000)) := by
  obtain ⟨haligned, hbehind, -, -, -, hlow, hhigh⟩ := hs
  constructor
  · intro hlt
    have he := hlow hlt
    omega
  · intro hge
    have he := hhigh hge
    omega

theorem marked_le {s : Mm} {h : Nat} (h1 : 1 ≤ h) : 1 ≤ s.marked h ∧ s.marked h ≤ h := by
  unfold Mm.marked
  split
  · exact ⟨h1, Nat.le_refl h⟩
  · exact ⟨Nat.le_refl 1, h1⟩

theorem pagingFini_finished {s₀ : Mm} (hu : Unmapped s₀) (he : Enough s₀) :
    ∃ s d t h, pagingFini s₀ = .ok { s with currentDirectory := s.kernelDir } ∧ Finished s₀ s d t h := by
  have hheap := he.heap
  have hspace := he.space
  unfold kheapStart at hheap
  obtain ⟨p, s₁, s₂, hs₁, hs₂, hm₂⟩ := Mapping.start hu he
  have hm₂' : Mapping s₀ s₂ (s₀.marked 1) 1 1 1 := by
    rw [marked_one]
    exact hm₂
  obtain ⟨s₃, hs₃, hm₃⟩ := Mapping.fixedLoop (dmaTurn true true false) s₀.marked (fun h => h) 0x80 (by omega)
    (fun s h h1 hlt hm => hm.dmaTurn he h1 (by omega)) (h := 1) hm₂' (by omega)
  obtain ⟨s₄, hs₄, hm₄⟩ := Mapping.fixedLoop (dmaTurn true true false) s₀.marked (fun h => h) 0x100 (by omega)
    (fun s h h1 hlt hm => hm.dmaTurn he (by omega) (by omega)) hm₃ (by omega)
  obtain ⟨s₅, d, hs₅, hm₅, h100, hplp, hlow⟩ := hm₄.imageLoop he
  obtain ⟨s₆, hs₆, hm₆⟩ := hm₅.vgaLoop he (by omega) h100
  let phyAddr := s₆.mem.setWord (s₆.kernelDir + 8192) (BitVec.ofNat 32 s₆.kernelDir)
  have hm₇ : Mapping s₀ { s₆ with mem := phyAddr } (s₀.marked d + (d - d)) d ((d + 1023) / 1024) d := by
    rw [Nat.sub_self, Nat.add_zero]
    exact hm₆.phyAddr he (BitVec.ofNat 32 s₆.kernelDir)
  have hp₆ := hm₆.plp
  have hend : 0x1000 * d = s₆.plp + 0x3000 := by
    rw [hp₆, ← hm₅.plp]
    exact hplp
  obtain ⟨e, hes⟩ : ∃ e, (if kheapStart < 0x1000 * d then s₆.plp + 0x100000 else kheapStart) = e :=
    ⟨_, rfl⟩
  have hstart : HeapStart s₀ d s₆.plp e := hes ▸ heapStart_spec he hend hp₆ hlow
  have hdiv : 0x1000 * (e / 0x1000) = e := Nat.mul_div_cancel' (Nat.dvd_of_mod_eq_zero hstart.aligned)
  have hbehind := hstart.behind
  have hinside := hstart.inside
  have hspace' := hstart.space
  have hd : 1 ≤ d := by omega
  -- from `d` on each page draws the next frame
  obtain ⟨s₈, hs₈, hm₈⟩ := Mapping.fixedLoop allocTurn (fun h => s₀.marked d + (h - d)) (fun _ => d)
    (e / 0x1000) (by omega)
    (fun s h h1 hlt hm => by
      have hnext := hm.allocTurn he (Nat.le_add_right_of_le (marked_le hd).1) (by omega)
      rwa [Nat.add_assoc, ← Nat.sub_add_comm h1] at hnext) hm₇ (by omega)
  obtain ⟨s₉, hs₉, hm₉⟩ := hm₈.tableLoop he
  rw [hdiv] at hs₈ hs₉
  have htables := hstart.tables hp₆ hend
  refine ⟨s₉, d, _, _, ?_, hm₉, by omega, htables.1, htables.2⟩
  have hhigh : 0x1000 * d ≤ 32 * (s₀.nframes / 32) * 0x1000 := Nat.le_trans hbehind hinside
  have hroom := hstart.room
  have hw : wrap (s₆.plp + 0x3000) = 0x1000 * d := by
    rw [← hend]
    exact wrap_of_lt (by omega)
  have hw' : wrap (s₆.plp + 0x100000) = s₆.plp + 0x100000 := wrap_of_lt hstart.room
  rw [pagingFini, hs₁, ok_bind]
  simp only
  rw [hs₂, ok_bind, hs₃, ok_bind, hs₄, ok_bind, hs₅, ok_bind, hs₆, ok_bind]
  simp only [hw, hw', hes]
  rw [hs₈, ok_bind, hs₉]
  rfl

/-- Below 4 GiB the frames in use are those below the start of the heap. -/
theorem Finished.used {s₀ s : Mm} {d t h : Nat} (hf : Finished s₀ s d t h) (hspace : s₀.nframes < 2 ^ 20) :
    ∀ f < s₀.nframes, s.used f = decide (f < h) := by
  have hused := hf.mapping.used
  have hsplit := hf.mapping.split
  rwa [Mm.marked, if_pos hspace, Nat.add_sub_cancel' hsplit] at hused

end Levos.Memory
