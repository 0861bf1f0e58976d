import Levos.Framework.Run
import Levos.Memory.Layout

namespace Levos.Memory

open Levos.Framework

/-- The entry of page `g` that the processor finds from the physical address `cr3` on. The memory
that the kernel works in is mapped onto itself, so that it is read here as it is. -/
def mmuEntry (m : Memory) (cr3 g : Nat) : Option Page :=
  let pde := m.word (cr3 + 4 * (g / 1024))
  if pde.getLsbD 0 then
    let pte := Page.ofWord (m.word ((pde &&& 0xFFFFF000#32).toNat + 4 * (g % 1024)))
    if pte.present then some pte else none
  else none

def mmuWalk (m : Memory) (cr3 x : Nat) : Option Nat :=
  (mmuEntry m cr3 (x / 0x1000)).map fun pte => pte.frame.toNat * 0x1000 + x % 0x1000

/-- `dir->phy_tables[t]` and `dir->phy_addr`. -/
def Mm.phyTable (s : Mm) (dir t : Nat) : BitVec 32 := s.mem.word (dir + 4 * t)

def Mm.phyAddr (s : Mm) (dir : Nat) : Nat := (s.mem.word (dir + 8192)).toNat

/-- The entry of page `g` behind `dir->tables`. -/
def Mm.entryIn (s : Mm) (dir g : Nat) : Nat := s.table dir (g / 1024) + 4 * (g % 1024)

def Mm.view (s : Mm) (dir g : Nat) : Option Page :=
  if s.table dir (g / 1024) = 0 then none else some (s.page (s.entryIn dir g))

/-- A block for a page table: page aligned, behind the bitmap, below `plp` and beside all
directories. -/
structure TableBlock (D : List Nat) (s : Mm) (b : Nat) : Prop where
  aligned : b % 0x1000 = 0
  bitmap : s.frames + 4 * s.frameWords ≤ b
  below : b + pageTableSize ≤ s.plp
  dirs : ∀ e ∈ D, b + pageTableSize ≤ e ∨ e + pageDirSize ≤ b

/-- The directories `D` and those of their tables whose index satisfies `A` are blocks of their
own, and both views that a directory gives of such a table agree. -/
structure Spaces (D : List Nat) (A : Nat → Prop) (s : Mm) : Prop where
  bitmap : ∀ d ∈ D, s.frames + 4 * s.frameWords ≤ d
  dir : ∀ d ∈ D, d + pageDirSize ≤ s.plp
  space : s.plp < 2 ^ 32
  beside : ∀ d ∈ D, ∀ e ∈ D, d ≠ e → d + pageDirSize ≤ e ∨ e + pageDirSize ≤ d
  table : ∀ d ∈ D, ∀ t < 1024, A t → s.table d t ≠ 0 → TableBlock D s (s.table d t)
  apart : ∀ d ∈ D, ∀ e ∈ D, ∀ t < 1024, ∀ u < 1024, A t → A u → s.table d t ≠ 0 →
    s.table d t = s.table e u → d = e ∧ t = u
  linked : ∀ d ∈ D, ∀ t < 1024, A t →
    s.phyTable d t = if s.table d t = 0 then 0 else BitVec.ofNat 32 (s.table d t) ||| 7#32

/-- The low bits of the hardware entry are flags, and its address is the block. -/
theorem pde_table {b : Nat} (ha : b % 0x1000 = 0) (hb : b < 2 ^ 32) :
    (BitVec.ofNat 32 b ||| 7#32).getLsbD 0 = true ∧
      ((BitVec.ofNat 32 b ||| 7#32) &&& 0xFFFFF000#32).toNat = b := by
  obtain ⟨q, rfl⟩ : ∃ q, b = q <<< 12 := ⟨b / 0x1000, by rw [Nat.shiftLeft_eq]; omega⟩
  have hflags : ∀ i < 32, (7#32).getLsbD i = decide (i < 3) := by decide
  have hmask : ∀ i < 32, (0xFFFFF000#32).getLsbD i = decide (12 ≤ i) := by decide
  have hword : (BitVec.ofNat 32 (q <<< 12) ||| 7#32) &&& 0xFFFFF000#32 = BitVec.ofNat 32 (q <<< 12) := by
    apply BitVec.eq_of_getLsbD_eq
    intro i hi
    rw [BitVec.getLsbD_and, BitVec.getLsbD_or, hflags i hi, hmask i hi, BitVec.getLsbD_ofNat,
      Nat.testBit_shiftLeft]
    by_cases h12 : 12 ≤ i
    · have h3 : ¬i < 3 := by omega
      simp [h12, h3]
    · simp [h12]
  refine ⟨by simp, ?_⟩
  rw [hword, BitVec.toNat_ofNat, Nat.mod_eq_of_lt hb]

namespace Spaces

variable {D : List Nat} {A : Nat → Prop} {s s' : Mm} {m : Memory} {d e g h t : Nat}

/-- Fewer tables are asked for less. -/
theorem mono {A' : Nat → Prop} (hs : Spaces D A s) (hA : ∀ t < 1024, A' t → A t) : Spaces D A' s where
  bitmap := hs.bitmap
  dir := hs.dir
  space := hs.space
  beside := hs.beside
  table d hd t ht h := hs.table d hd t ht (hA t ht h)
  apart d hd e he t ht u hu h k := hs.apart d hd e he t ht u hu (hA t ht h) (hA u hu k)
  linked d hd t ht h := hs.linked d hd t ht (hA t ht h)

/-- A write that leaves the directories alone leaves their structure alone. -/
theorem write (hs : Spaces D A s) (hm : ∀ d ∈ D, Memory.Agree d (d + pageDirSize) s.mem m) :
    Spaces D A { s with mem := m } ∧
      ∀ d ∈ D, ∀ t < 1024, ({ s with mem := m } : Mm).table d t = s.table d t := by
  unfold pageDirSize at hm
  have htable (d : Nat) (hd : d ∈ D) (t : Nat) (ht : t < 1024) :
      ({ s with mem := m } : Mm).table d t = s.table d t :=
    congrArg BitVec.toNat ((hm d hd).word (a := d + 4096 + 4 * t) (by omega) (by omega))
  have hphy (d : Nat) (hd : d ∈ D) (t : Nat) (ht : t < 1024) :
      ({ s with mem := m } : Mm).phyTable d t = s.phyTable d t :=
    (hm d hd).word (a := d + 4 * t) (by omega) (by omega)
  refine ⟨⟨hs.bitmap, hs.dir, hs.space, hs.beside, ?_, ?_, ?_⟩, htable⟩
  · intro d hd t ht hA hne
    rw [htable d hd t ht] at hne ⊢
    obtain ⟨h1, h2, h3, h4⟩ := hs.table d hd t ht hA hne
    exact ⟨h1, h2, h3, h4⟩
  · intro d hd e he t ht u hu hAt hAu hne heq
    rw [htable d hd t ht] at hne heq
    rw [htable e he u hu] at heq
    exact hs.apart d hd e he t ht u hu hAt hAu hne heq
  · intro d hd t ht hA
    rw [hphy d hd t ht, htable d hd t ht]
    exact hs.linked d hd t ht hA

/-- An entry lies in its table, beside the directories and the bitmap. -/
theorem entry_inside (hs : Spaces D A s) (hd : d ∈ D) (hg : g < 2 ^ 20) (hA : A (g / 1024))
    (ht : s.table d (g / 1024) ≠ 0) :
    s.frames + 4 * s.frameWords ≤ s.entryIn d g ∧ s.entryIn d g + 4 ≤ s.plp ∧
      ∀ e ∈ D, s.entryIn d g + 4 ≤ e ∨ e + pageDirSize ≤ s.entryIn d g := by
  obtain ⟨-, h1, h2, h3⟩ := hs.table d hd _ (by omega) hA ht
  unfold Mm.entryIn
  unfold pageTableSize at h2 h3
  refine ⟨by omega, by omega, ?_⟩
  intro e he
  have := h3 e he
  omega

theorem entry_apart (hs : Spaces D A s) (hd : d ∈ D) (he : e ∈ D) (hg : g < 2 ^ 20)
    (hh : h < 2 ^ 20) (hAg : A (g / 1024)) (hAh : A (h / 1024)) (htg : s.table d (g / 1024) ≠ 0)
    (hth : s.table e (h / 1024) ≠ 0) (hne : ¬(e = d ∧ h = g)) :
    s.entryIn d g + 4 ≤ s.entryIn e h ∨ s.entryIn e h + 4 ≤ s.entryIn d g := by
  have ha := (hs.table d hd _ (by omega) hAg htg).aligned
  have hb := (hs.table e he _ (by omega) hAh hth).aligned
  unfold Mm.entryIn
  by_cases heq : s.table d (g / 1024) = s.table e (h / 1024)
  · obtain ⟨rfl, ht⟩ := hs.apart d hd e he _ (by omega) _ (by omega) hAg hAh htg heq
    rw [← heq]
    omega
  · omega

/-- A view changes only where its table or the entry itself is written. -/
theorem view_write (hs : Spaces D A s) (hm : ∀ d ∈ D, Memory.Agree d (d + pageDirSize) s.mem m)
    (hd : d ∈ D) (hg : g < 2 ^ 20)
    (hentry : s.table d (g / 1024) ≠ 0 →
      Memory.Agree (s.entryIn d g) (s.entryIn d g + 4) s.mem m) :
    ({ s with mem := m } : Mm).view d g = s.view d g := by
  have ht := (hs.write hm).2 d hd (g / 1024) (by omega)
  unfold Mm.view Mm.entryIn
  rw [ht]
  split_ifs with h0
  · rfl
  · exact congrArg some (congrArg Page.ofWord ((hentry h0).word (Nat.le_refl _) (Nat.le_refl _)))

/-- What the processor finds through `phy_tables` is what the directory says, as far as it is
present. -/
theorem mmuEntry_eq (hs : Spaces D A s) (hd : d ∈ D) (hg : g < 2 ^ 20) (hA : A (g / 1024)) :
    mmuEntry s.mem d g = (s.view d g).filter fun pg => pg.present := by
  have hlink := hs.linked d hd _ (by omega) hA
  unfold mmuEntry Mm.view
  unfold Mm.phyTable at hlink
  rw [hlink]
  split_ifs with h0
  · simp
  · obtain ⟨ha, -, hb, -⟩ := hs.table d hd _ (by omega) hA h0
    have hspace := hs.space
    obtain ⟨hp, hmask⟩ := pde_table ha (by omega)
    simp only [hp, if_true, hmask]
    rfl

end Spaces

/-- From `s` to `s'` the entry of page `g` in `d` becomes `pg`, and besides it only the bitmap may
change. -/
structure Sets (D : List Nat) (A : Nat → Prop) (d g : Nat) (pg : Page) (s s' : Mm) : Prop where
  spaces : Spaces D A s'
  vars : SameVars s s'
  plp : s'.plp = s.plp
  dirs : ∀ e ∈ D, Memory.Agree e (e + pageDirSize) s.mem s'.mem
  view : ∀ e ∈ D, ∀ h < 2 ^ 20, A (h / 1024) →
    s'.view e h = if e = d ∧ h = g then some pg else s.view e h

namespace Sets

variable {D : List Nat} {A : Nat → Prop} {s s' s'' : Mm} {d e g t : Nat} {pg pg' : Page}

theorem trans (h : Sets D A d g pg s s') (k : Sets D A d g pg' s' s'') :
    Sets D A d g pg' s s'' := by
  refine ⟨k.spaces, h.vars.trans k.vars, k.plp.trans h.plp,
    fun e he => (h.dirs e he).trans (k.dirs e he), ?_⟩
  intro e he p hp hA
  rw [k.view e he p hp hA, h.view e he p hp hA]
  split_ifs <;> rfl

theorem table (h : Sets D A d g pg s s') (he : e ∈ D) (ht : t < 1024) :
    s'.table e t = s.table e t := by
  have hagree := h.dirs e he
  unfold pageDirSize at hagree
  exact congrArg BitVec.toNat (hagree.word (a := e + 4096 + 4 * t) (by omega) (by omega))

theorem phyAddr (h : Sets D A d g pg s s') (he : e ∈ D) : s'.phyAddr e = s.phyAddr e := by
  have hagree := h.dirs e he
  unfold pageDirSize at hagree
  exact congrArg BitVec.toNat (hagree.word (a := e + 8192) (by omega) (by omega))

end Sets

namespace Spaces

variable {D : List Nat} {A : Nat → Prop} {s s' : Mm} {d g a : Nat} {pg : Page}

theorem view_eq (hd0 : s.table d (g / 1024) ≠ 0) : s.view d g = some (s.page (s.entryIn d g)) :=
  if_neg hd0

theorem setPage (hs : Spaces D A s) (hd : d ∈ D) (hg : g < 2 ^ 20) (hA : A (g / 1024))
    (ht : s.table d (g / 1024) ≠ 0) (pg : Page) :
    Sets D A d g pg s (s.setPage (s.entryIn d g) pg) := by
  obtain ⟨-, -, hdirs⟩ := hs.entry_inside hd hg hA ht
  have hagree (e : Nat) (he : e ∈ D) : Memory.Agree e (e + pageDirSize) s.mem
      (s.mem.setWord (s.entryIn d g) pg.toWord) := Memory.agree_setWord (hdirs e he)
  obtain ⟨hspaces, htable⟩ := hs.write hagree
  refine ⟨hspaces, rfl, rfl, hagree, ?_⟩
  intro e he h hh hAh
  split_ifs with heq
  · obtain ⟨rfl, rfl⟩ := heq
    have ht' := htable e he (h / 1024) (by omega)
    have hentry : (s.setPage (s.entryIn e h) pg).entryIn e h = s.entryIn e h := by
      unfold Mm.entryIn
      exact congrArg (· + 4 * (h % 1024)) ht'
    have hne : (s.setPage (s.entryIn e h) pg).table e (h / 1024) ≠ 0 := by
      change ({ s with mem := s.mem.setWord (s.entryIn e h) pg.toWord } : Mm).table e (h / 1024) ≠ 0
      rwa [ht']
    rw [view_eq hne, hentry, Mm.page, Mm.setPage]
    simp
  · apply hs.view_write hagree he hh
    intro hth
    exact Memory.agree_setWord (hs.entry_apart hd he hg hh hA hAh ht hth heq)

/-- Marking a frame writes the bitmap only. -/
theorem setFrame (hs : Spaces D A s) (hd : d ∈ D) (hg : g < 2 ^ 20) (hA : A (g / 1024))
    (ht : s.table d (g / 1024) ≠ 0) (hrun : setFrame s a = .ok s') :
    Sets D A d g (s.page (s.entryIn d g)) s s' := by
  simp only [Memory.setFrame] at hrun
  split_ifs at hrun with hin
  cases hrun
  have hin' : a / 0x1000 / 32 < s.frameWords := hin
  have hagree (e : Nat) (he : e ∈ D) : Memory.Agree e (e + pageDirSize) s.mem
      (s.mem.setBit s.frames (a / 0x1000)) := by
    have hb := hs.bitmap e he
    exact Memory.agree_setBit (.inl (by omega))
  refine ⟨(hs.write hagree).1, rfl, rfl, hagree, ?_⟩
  intro e he h hh hAh
  have hkeep : ({ s with mem := s.mem.setBit s.frames (a / 0x1000) } : Mm).view e h = s.view e h := by
    apply hs.view_write hagree he hh
    intro hth
    obtain ⟨hb, -, -⟩ := hs.entry_inside he hh hAh hth
    exact Memory.agree_setBit (.inl (by omega))
  rw [hkeep]
  split_ifs with heq
  · obtain ⟨rfl, rfl⟩ := heq
    exact view_eq ht
  · rfl

/-- `alloc_dma_frame` on an entry of `d`. -/
theorem allocDmaFrame (hs : Spaces D A s) (hd : d ∈ D) (hg : g < 2 ^ 20) (hA : A (g / 1024))
    (ht : s.table d (g / 1024) ≠ 0) {k w : Bool}
    (hrun : allocDmaFrame s (s.entryIn d g) k w a = .ok s') :
    Sets D A d g (dmaPage (s.page (s.entryIn d g)) k w a) s s' := by
  have hset := hs.setPage hd hg hA ht (dmaPage (s.page (s.entryIn d g)) k w a)
  simp only [Memory.allocDmaFrame] at hrun
  split_ifs at hrun
  · have hne : (s.setPage (s.entryIn d g) (dmaPage (s.page (s.entryIn d g)) k w a)).table d
        (g / 1024) ≠ 0 := by
      rwa [hset.table hd (by omega)]
    have hmark := hset.spaces.setFrame hd hg hA hne hrun
    have hpage : (s.setPage (s.entryIn d g) (dmaPage (s.page (s.entryIn d g)) k w a)).page
        ((s.setPage (s.entryIn d g) (dmaPage (s.page (s.entryIn d g)) k w a)).entryIn d g) =
        dmaPage (s.page (s.entryIn d g)) k w a := by
      have hv := hset.view d hd g hg hA
      rw [view_eq hne, if_pos ⟨rfl, rfl⟩] at hv
      exact Option.some.inj hv
    rw [hpage] at hmark
    exact hset.trans hmark
  · cases hrun
    exact hset

/-- `alloc_frame` on an entry of `d`: however often it calls itself, in the end the entry is
present. -/
theorem allocFrameLoop (hd : d ∈ D) (hg : g < 2 ^ 20) (hA : A (g / 1024)) {k w : Bool} {p : Nat}
    (fuel : Nat) (s : Mm) (hs : Spaces D A s) (ht : s.table d (g / 1024) ≠ 0)
    (hp : s.entryIn d g = p) (hrun : allocFrameLoop p k w fuel s = .ok s') :
    ∃ pg : Page, pg.present = true ∧ Sets D A d g pg s s' := by
  induction fuel generalizing s with
  | zero => cases hrun
  | succ fuel ih =>
    rw [Memory.allocFrameLoop] at hrun
    split_ifs at hrun
    · cases hrun
      subst hp
      exact ⟨_, rfl, hs.setPage hd hg hA ht _⟩
    · obtain ⟨index, -, hrun⟩ := bind_eq_ok.mp hrun
      obtain ⟨s₁, hmark, hrun⟩ := bind_eq_ok.mp hrun
      have h₁ := hs.setFrame hd hg hA ht hmark
      have ht₁ : s₁.table d (g / 1024) ≠ 0 := by rwa [h₁.table hd (by omega)]
      have hp₁ : s₁.entryIn d g = p := by
        rw [Mm.entryIn, h₁.table hd (by omega), ← hp, Mm.entryIn]
      have h₂ := h₁.spaces.setPage hd hg hA ht₁ { s₁.page p with frame := BitVec.ofNat 20 index }
      rw [hp₁] at h₂
      obtain ⟨pg, hpresent, h₃⟩ := ih _ h₂.spaces (by rwa [h₂.table hd (by omega)])
        (by rw [Mm.entryIn, h₂.table hd (by omega), ← hp₁, Mm.entryIn]) hrun
      exact ⟨pg, hpresent, (h₁.trans h₂).trans h₃⟩

end Spaces

/-- Where the next page table starts. -/
def Mm.nextTable (s : Mm) : Nat := s.plp - s.plp % 0x1000 + 0x1000

/-- The state behind a table that `get_page` made in `d`. -/
def Mm.withTableIn (s : Mm) (d t : Nat) : Mm :=
  { s with
    plp := s.nextTable + pageTableSize
    mem := ((s.mem.setWord (d + 4096 + 4 * t) (BitVec.ofNat 32 s.nextTable)).fill s.nextTable 0
      pageTableSize).setWord (d + 4 * t) (BitVec.ofNat 32 s.nextTable ||| 7#32) }

/-- How `get_page` in `d` can come back when it is to make what is missing. -/
theorem getPage_cases {s s' : Mm} {a d p : Nat} (hplp : 0x1000 ≤ s.plp)
    (hrun : getPage s a true d = .ok (p, s')) :
    (s.table d (a / 0x1000 / 1024) ≠ 0 ∧ p = s.entryIn d (a / 0x1000) ∧ s' = s) ∨
    (s.table d (a / 0x1000 / 1024) = 0 ∧ s.nextTable + pageTableSize < 2 ^ 32 ∧
      p = s.nextTable + 4 * (a / 0x1000 % 1024) ∧ s' = s.withTableIn d (a / 0x1000 / 1024)) := by
  simp only [getPage] at hrun
  split_ifs at hrun with ht
  · cases hrun
    exact .inl ⟨ht, rfl, rfl⟩
  · right
    obtain ⟨⟨tbl, tmp, s₁⟩, hblock, hrun⟩ := bind_eq_ok.mp hrun
    rw [kvmallocP] at hblock
    split_ifs at hblock
    obtain ⟨rfl, rfl, hlt, rfl⟩ := placeBlock_ok hblock
    have hstart : s.blockStart true = s.nextTable := (blockStart_spec s true).2.2.1 rfl hplp
    rw [hstart] at hrun hlt
    cases hrun
    exact ⟨not_not.mp ht, hlt, rfl, rfl⟩

/-- With the heap offline and room behind `plp`, `get_page` comes back. -/
theorem getPage_returns {s : Mm} (a d : Nat) (hplp : 0x1000 ≤ s.plp) (hoff : s.heapOnline = false)
    (hroom : s.nextTable + pageTableSize < 2 ^ 32) :
    ∃ r, getPage s a true d = .ok r := by
  have hstart : s.blockStart true = s.nextTable := (blockStart_spec s true).2.2.1 rfl hplp
  have hblock : kvmallocP s pageTableSize =
      .ok (s.nextTable, s.nextTable, { s with plp := s.nextTable + pageTableSize }) := by
    rw [kvmallocP_room hoff (by omega), hstart]
  simp only [getPage, hblock]
  split_ifs
  · exact ⟨_, rfl⟩
  · exact ⟨_, rfl⟩

/-- From `s` to `s'` the table of page `g` in `d` is there, made if it was missing, and nothing
else changes. -/
structure Makes (D : List Nat) (A : Nat → Prop) (d g : Nat) (s s' : Mm) : Prop where
  spaces : Spaces D A s'
  vars : SameVars s s'
  made : s'.table d (g / 1024) ≠ 0
  plp : s'.plp ≤ if s.table d (g / 1024) = 0 then s.plp + 0x2000 else s.plp
  table : ∀ e ∈ D, ∀ t < 1024, ¬(e = d ∧ t = g / 1024) → s'.table e t = s.table e t
  phyAddr : ∀ e ∈ D, s'.phyAddr e = s.phyAddr e
  view : ∀ e ∈ D, ∀ h < 2 ^ 20, A (h / 1024) →
    s'.view e h = if e = d ∧ h / 1024 = g / 1024 ∧ s.view e h = none then some (Page.ofWord 0)
      else s.view e h

namespace Spaces

variable {D : List Nat} {A : Nat → Prop} {s s' : Mm} {d e g t u a p : Nat}

theorem plp_low (hs : Spaces D A s) (hd : d ∈ D) : 0x1000 ≤ s.plp := by
  have := hs.dir d hd
  unfold pageDirSize at this
  omega

theorem nextTable_spec (s : Mm) :
    s.plp ≤ s.nextTable ∧ s.nextTable % 0x1000 = 0 ∧ s.nextTable ≤ s.plp + 0x1000 := by
  unfold Mm.nextTable
  omega

/-- The words of the directories behind a new table: two of `d` are new. -/
theorem word_withTableIn (hs : Spaces D A s) (hd : d ∈ D) (he : e ∈ D) (ht : t < 1024) {i : Nat}
    (hi : i < 2049) :
    (s.withTableIn d t).mem.word (e + 4 * i) =
      if e = d ∧ i = t then BitVec.ofNat 32 s.nextTable ||| 7#32
      else if e = d ∧ i = 1024 + t then BitVec.ofNat 32 s.nextTable
      else s.mem.word (e + 4 * i) := by
  have hdir := hs.dir e he
  have hdird := hs.dir d hd
  obtain ⟨hnext, -, -⟩ := nextTable_spec s
  unfold pageDirSize at hdir hdird
  simp only [Mm.withTableIn]
  by_cases hed : e = d
  · subst hed
    by_cases hit : i = t
    · subst hit
      simp
    · rw [if_neg (by omega), Memory.word_setWord_ne (by omega), Memory.word_fill_ne (by omega)]
      by_cases hit' : i = 1024 + t
      · rw [if_pos ⟨rfl, hit'⟩, hit', show e + 4 * (1024 + t) = e + 4096 + 4 * t by omega,
          Memory.word_setWord]
      · rw [if_neg (by omega), Memory.word_setWord_ne (by omega)]
  · have hbeside := hs.beside d hd e he (Ne.symm hed)
    unfold pageDirSize at hbeside
    rw [if_neg (by simp [hed]), if_neg (by simp [hed]), Memory.word_setWord_ne (by omega),
      Memory.word_fill_ne (by omega), Memory.word_setWord_ne (by omega)]

theorem table_withTableIn (hs : Spaces D A s) (hd : d ∈ D) (he : e ∈ D) (ht : t < 1024)
    (hroom : s.nextTable + pageTableSize < 2 ^ 32) (hu : u < 1024) :
    (s.withTableIn d t).table e u = if e = d ∧ u = t then s.nextTable else s.table e u := by
  have hword := hs.word_withTableIn hd he ht (i := 1024 + u) (by omega)
  rw [show e + 4 * (1024 + u) = e + 4096 + 4 * u by omega] at hword
  unfold Mm.table
  rw [hword, if_neg (by omega)]
  by_cases heq : e = d ∧ u = t
  · rw [if_pos heq, if_pos ⟨heq.1, by omega⟩, BitVec.toNat_ofNat, Nat.mod_eq_of_lt (by omega)]
  · rw [if_neg heq, if_neg (by omega)]

theorem withTableIn (hs : Spaces D A s) (hd : d ∈ D) (ht : t < 1024)
    (hroom : s.nextTable + pageTableSize < 2 ^ 32) : Spaces D A (s.withTableIn d t) := by
  obtain ⟨hnext, haligned, -⟩ := nextTable_spec s
  have hdird := hs.dir d hd
  have htable (e : Nat) (he : e ∈ D) (u : Nat) (hu : u < 1024) :=
    hs.table_withTableIn hd he ht hroom hu
  have hplp : (s.withTableIn d t).plp = s.nextTable + pageTableSize := rfl
  have hold (e : Nat) (he : e ∈ D) (u : Nat) (hu : u < 1024) (hA : A u) (hne : s.table e u ≠ 0) :
      s.table e u + pageTableSize ≤ s.nextTable := by
    have := (hs.table e he u hu hA hne).below
    omega
  refine ⟨hs.bitmap, ?_, hroom, hs.beside, ?_, ?_, ?_⟩
  · intro e he
    have := hs.dir e he
    omega
  · intro e he u hu hA hne
    rw [htable e he u hu] at hne ⊢
    split_ifs at hne ⊢ with heq
    · refine ⟨haligned, ?_, by omega, ?_⟩
      · have hb := hs.bitmap d hd
        change s.frames + 4 * s.frameWords ≤ s.nextTable
        omega
      · intro e' he'
        have := hs.dir e' he'
        omega
    · obtain ⟨h1, h2, h3, h4⟩ := hs.table e he u hu hA hne
      exact ⟨h1, h2, by omega, h4⟩
  · intro e he e' he' u hu v hv hAu hAv hne heq
    rw [htable e he u hu] at hne heq
    rw [htable e' he' v hv] at heq
    unfold pageTableSize at hold
    split_ifs at hne heq with h1 h2 h2
    · exact ⟨h1.1.trans h2.1.symm, h1.2.trans h2.2.symm⟩
    · have := hold e' he' v hv hAv (by omega)
      omega
    · have := hold e he u hu hAu hne
      omega
    · exact hs.apart e he e' he' u hu v hv hAu hAv hne heq
  · intro e he u hu hA
    have hword := hs.word_withTableIn hd he ht (i := u) (by omega)
    unfold Mm.phyTable
    rw [hword, htable e he u hu]
    by_cases heq : e = d ∧ u = t
    · rw [if_pos heq, if_pos heq, if_neg (by unfold pageDirSize at hdird; omega)]
    · rw [if_neg heq, if_neg (by omega), if_neg heq]
      exact hs.linked e he u hu hA

/-- The table was there. -/
theorem makes_there (hs : Spaces D A s) (hne : s.table d (g / 1024) ≠ 0) : Makes D A d g s s := by
  refine ⟨hs, rfl, hne, by simp [hne], fun _ _ _ _ _ => rfl, fun _ _ => rfl, ?_⟩
  intro e he h hh hAh
  rw [if_neg]
  rintro ⟨rfl, heq, hnone⟩
  rw [view_eq (by rwa [heq])] at hnone
  cases hnone

/-- What a directory shows when a table is made: the entries of the new table are empty, and the others
are as they were. -/
theorem view_withTableIn (hs : Spaces D A s) (hd : d ∈ D) (ht : t < 1024) (h0 : s.table d t = 0)
    (hroom : s.nextTable + pageTableSize < 2 ^ 32) (he : e ∈ D) {h : Nat} (hh : h < 2 ^ 20)
    (hAh : A (h / 1024)) : (s.withTableIn d t).view e h =
      if e = d ∧ h / 1024 = t ∧ s.view e h = none then some (Page.ofWord 0) else s.view e h := by
  obtain ⟨hnext, -, -⟩ := nextTable_spec s
  have hdird := hs.dir d hd
  unfold pageDirSize at hdird
  have hth := hs.table_withTableIn hd he ht hroom (u := h / 1024) (by omega)
  by_cases heq : e = d ∧ h / 1024 = t
  · obtain ⟨rfl, heq⟩ := heq
    have hnone : s.view e h = none := if_pos (heq ▸ h0)
    rw [if_pos ⟨rfl, heq⟩] at hth
    rw [if_pos ⟨rfl, heq, hnone⟩, view_eq (by omega), Mm.entryIn, hth]
    refine congrArg some (congrArg Page.ofWord ?_)
    change (Memory.setWord _ _ _).word _ = _
    rw [Memory.word_setWord_ne (by omega)]
    exact Memory.word_fill_zero (by omega) (by unfold pageTableSize; omega)
  · rw [if_neg heq] at hth
    rw [if_neg fun hall => heq ⟨hall.1, hall.2.1⟩]
    unfold Mm.view Mm.entryIn
    rw [hth]
    split_ifs with hzero
    · rfl
    · obtain ⟨-, hbelow, hdirs⟩ := hs.entry_inside he hh hAh hzero
      have hbeside := hdirs d hd
      unfold Mm.entryIn at hbelow hbeside
      unfold pageDirSize at hbeside
      refine congrArg some (congrArg Page.ofWord ?_)
      change (Memory.setWord _ _ _).word _ = _
      rw [Memory.word_setWord_ne (by omega), Memory.word_fill_ne (by omega),
        Memory.word_setWord_ne (by omega)]

/-- What `get_page` in `d` leaves, when it is to make what is missing. -/
theorem getPage (hs : Spaces D A s) (hd : d ∈ D) (ha : a < 2 ^ 32)
    (hrun : getPage s a true d = .ok (p, s')) :
    p = s'.entryIn d (a / 0x1000) ∧ Makes D A d (a / 0x1000) s s' := by
  have hlt : a / 0x1000 / 1024 < 1024 := by omega
  rcases getPage_cases (hs.plp_low hd) hrun with ⟨hne, rfl, rfl⟩ | ⟨h0, hroom, rfl, rfl⟩
  · exact ⟨rfl, hs.makes_there hne⟩
  · have htable (e : Nat) (he : e ∈ D) (u : Nat) (hu : u < 1024) :=
      hs.table_withTableIn hd he hlt hroom hu
    obtain ⟨hnext, -, hnear⟩ := nextTable_spec s
    have hlow := hs.plp_low hd
    have hself : (s.withTableIn d (a / 0x1000 / 1024)).table d (a / 0x1000 / 1024) = s.nextTable := by
      rw [htable d hd _ hlt, if_pos ⟨rfl, rfl⟩]
    refine ⟨by rw [Mm.entryIn, hself], hs.withTableIn hd hlt hroom, rfl, by omega, ?_, ?_, ?_,
      fun e he h hh hAh => hs.view_withTableIn hd hlt h0 hroom he hh hAh⟩
    · rw [if_pos h0]
      change s.nextTable + pageTableSize ≤ _
      unfold pageTableSize
      omega
    · intro e he u hu hne
      rw [htable e he u hu, if_neg hne]
    · intro e he
      have hword := hs.word_withTableIn hd he hlt (i := 2048) (by omega)
      rw [if_neg (by omega), if_neg (by omega)] at hword
      exact congrArg BitVec.toNat hword

end Spaces

/-- The two ways in which a page gets a frame. -/
inductive Assign
  | dma (k w : Bool) (a : Nat)
  | frame (k w : Bool)

def Assign.run (s : Mm) (p : Nat) : Assign → Except Fault Mm
  | .dma k w a => allocDmaFrame s p k w a
  | .frame k w => allocFrame s p k w

/-- A `get_page(addr, 1, dir)` and what is done with the entry. -/
structure MapCall where
  dir : Nat
  addr : Nat
  assign : Assign

def MapCall.page (c : MapCall) : Nat := c.addr / 0x1000

def mapPage (s : Mm) (c : MapCall) : Except Fault Mm := do
  let (p, s) ← getPage s c.addr true c.dir
  c.assign.run s p

def MapStep (s : Mm) (c : MapCall) (s' : Mm) : Prop := mapPage s c = .ok s'

namespace Spaces

variable {D : List Nat} {A : Nat → Prop} {s s' : Mm} {d g : Nat}

theorem assign (hs : Spaces D A s) (hd : d ∈ D) (hg : g < 2 ^ 20) (hA : A (g / 1024))
    (ht : s.table d (g / 1024) ≠ 0) {f : Assign} (hrun : f.run s (s.entryIn d g) = .ok s') :
    ∃ pg : Page, pg.present = true ∧
      (∀ k w a, f = .dma k w a → pg.frame = BitVec.ofNat 20 (a / 0x1000)) ∧ Sets D A d g pg s s' := by
  cases f with
  | dma k w a =>
    refine ⟨_, rfl, ?_, hs.allocDmaFrame hd hg hA ht hrun⟩
    intro k' w' a' h
    cases h
    rfl
  | frame k w =>
    simp only [Assign.run, Memory.allocFrame] at hrun
    split_ifs at hrun
    obtain ⟨pg, hpresent, hset⟩ := allocFrameLoop hd hg hA _ s hs ht rfl hrun
    refine ⟨pg, hpresent, ?_, hset⟩
    intro k' w' a' h
    cases h

/-- What a call that maps a page leaves: its own entry is present, the others of a new table are
empty, and no other entry of any directory changes. -/
theorem mapPage (hs : Spaces D A s) {c : MapCall} (hd : c.dir ∈ D) (ha : c.addr < 2 ^ 32)
    (hA : A (c.page / 1024)) (hrun : mapPage s c = .ok s') :
    Spaces D A s' ∧ SameVars s s' ∧ s'.table c.dir (c.page / 1024) ≠ 0 ∧
    s'.plp ≤ (if s.table c.dir (c.page / 1024) = 0 then s.plp + 0x2000 else s.plp) ∧
    (∀ e ∈ D, ∀ t < 1024, ¬(e = c.dir ∧ t = c.page / 1024) → s'.table e t = s.table e t) ∧
    (∀ e ∈ D, s'.phyAddr e = s.phyAddr e) ∧
    ∃ pg : Page, pg.present = true ∧
      (∀ k w a, c.assign = .dma k w a → pg.frame = BitVec.ofNat 20 (a / 0x1000)) ∧
      ∀ e ∈ D, ∀ h < 2 ^ 20, A (h / 1024) → s'.view e h =
        if e = c.dir ∧ h = c.page then some pg
        else if e = c.dir ∧ h / 1024 = c.page / 1024 ∧ s.view e h = none then some (Page.ofWord 0)
        else s.view e h := by
  obtain ⟨⟨p, s₁⟩, hget, hrun⟩ := bind_eq_ok.mp hrun
  obtain ⟨rfl, hmake⟩ := hs.getPage hd ha hget
  have hg : c.page < 2 ^ 20 := by
    unfold MapCall.page
    omega
  obtain ⟨pg, hpresent, hdma, hset⟩ := hmake.spaces.assign hd hg hA hmake.made hrun
  refine ⟨hset.spaces, hmake.vars.trans hset.vars, ?_, ?_, ?_, ?_, pg, hpresent, hdma, ?_⟩
  · rw [hset.table hd (by omega)]
    exact hmake.made
  · rw [hset.plp]
    exact hmake.plp
  · intro e he t ht hne
    rw [hset.table he ht, hmake.table e he t ht hne]
  · intro e he
    rw [hset.phyAddr he, hmake.phyAddr e he]
  · intro e he h hh hAh
    rw [hset.view e he h hh hAh, hmake.view e he h hh hAh]
    rfl

end Spaces

end Levos.Memory
