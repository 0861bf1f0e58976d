import Levos.Memory.Page

namespace Levos.Memory

open Levos.Framework

/-- `kernel_dir->tables[t]`. -/
def Mm.tbl (s : Mm) (t : Nat) : Nat := s.table s.kernelDir t

/-- Where the entry of page `g` lies, if its table exists. -/
def Mm.entry (s : Mm) (g : Nat) : Nat := s.tbl (g / 1024) + 4 * (g % 1024)

/-- What `kernel_dir` says of page `g`; nothing while its table is missing. -/
def Mm.pte (s : Mm) (g : Nat) : Option Page :=
  if s.tbl (g / 1024) = 0 then none else some (s.page (s.entry g))

/-- Does the processor find the page of address `a`: the tables that it walks are those of `kernel_dir`,
whatever directory is loaded. -/
def Mm.present (s : Mm) (a : Nat) : Bool := (s.pte (a / 0x1000)).any fun pg => pg.present

/-- A page fault, as `exc_pf` ends it. -/
def pageFault : Fault := .panic "Unable to handle kernel paging request\n"

/-- The bitmap, the directory and the page tables are blocks of their own, in the order in which
`kmalloc` gave them out. -/
structure Layout (s : Mm) : Prop where
  bitmap : s.frames + 4 * s.frameWords ≤ s.kernelDir
  dir : s.kernelDir + pageDirSize ≤ s.plp
  space : s.plp < 2 ^ 32
  inside : ∀ t < 1024, s.tbl t ≠ 0 →
    s.kernelDir + pageDirSize ≤ s.tbl t ∧ s.tbl t + pageTableSize ≤ s.plp
  aligned : ∀ t < 1024, s.tbl t % 0x1000 = 0
  apart : ∀ t < 1024, ∀ u < 1024, s.tbl t ≠ 0 → s.tbl t = s.tbl u → t = u

/-- Nothing but the memory and `plp` differs. -/
def SameVars (s s' : Mm) : Prop := s' = { s with mem := s'.mem, plp := s'.plp }

theorem SameVars.refl (s : Mm) : SameVars s s := rfl

theorem SameVars.trans {s s' s'' : Mm} (h : SameVars s s') (k : SameVars s' s'') :
    SameVars s s'' := by
  unfold SameVars at *
  rw [k, h]

theorem SameVars.nframes {s s' : Mm} (h : SameVars s s') : s'.nframes = s.nframes := by rw [h]

theorem SameVars.frames {s s' : Mm} (h : SameVars s s') : s'.frames = s.frames := by rw [h]

theorem SameVars.kernelDir {s s' : Mm} (h : SameVars s s') : s'.kernelDir = s.kernelDir := by rw [h]

theorem SameVars.heapOnline {s s' : Mm} (h : SameVars s s') : s'.heapOnline = s.heapOnline := by
  rw [h]

theorem SameVars.frameWords {s s' : Mm} (h : SameVars s s') : s'.frameWords = s.frameWords := by
  rw [Mm.frameWords, Mm.frameWords, h.nframes]

theorem SameVars.memEnd {s s' : Mm} (h : SameVars s s') : s'.memEnd = s.memEnd := by
  rw [Mm.memEnd, Mm.memEnd, h.nframes]

theorem SameVars.inFrames {s s' : Mm} (h : SameVars s s') {i : Nat} :
    s'.inFrames i ↔ s.inFrames i := by
  rw [Mm.inFrames, Mm.inFrames, h.frameWords]

section Writes

variable {s : Mm} {m : Memory} {f g p : Nat}

theorem used_write (h : Memory.Agree s.frames (s.frames + 4 * s.frameWords) s.mem m)
    (hf : s.inFrames (f / 32)) : ({ s with mem := m } : Mm).used f = s.used f := by
  unfold Mm.inFrames at hf
  exact Memory.Agree.bit s.frames f h (Nat.le_refl _) (by omega)

theorem tbl_write (h : Memory.Agree s.kernelDir (s.kernelDir + pageDirSize) s.mem m) {t : Nat}
    (ht : t < 1024) : ({ s with mem := m } : Mm).tbl t = s.tbl t := by
  unfold pageDirSize at h
  exact congrArg BitVec.toNat (h.word (a := s.kernelDir + 4096 + 4 * t) (by omega) (by omega))

theorem Layout.of_tbl (hl : Layout s)
    (h : ∀ t < 1024, ({ s with mem := m } : Mm).tbl t = s.tbl t) : Layout { s with mem := m } where
  bitmap := hl.bitmap
  dir := hl.dir
  space := hl.space
  inside t ht hne := by
    rw [h t ht] at hne ⊢
    exact hl.inside t ht hne
  aligned t ht := by
    rw [h t ht]
    exact hl.aligned t ht
  apart t ht u hu hne he := by
    rw [h t ht] at hne he
    rw [h u hu] at he
    exact hl.apart t ht u hu hne he

theorem Layout.write (hl : Layout s)
    (h : Memory.Agree s.kernelDir (s.kernelDir + pageDirSize) s.mem m) :
    Layout { s with mem := m } := hl.of_tbl fun _ ht => tbl_write h ht

/-- The entries that exist lie behind the directory, below `plp`, and apart from each other. -/
theorem Layout.entry_inside (hl : Layout s) (hg : g < 2 ^ 20) (ht : s.tbl (g / 1024) ≠ 0) :
    s.kernelDir + pageDirSize ≤ s.entry g ∧ s.entry g + 4 ≤ s.plp := by
  obtain ⟨h1, h2⟩ := hl.inside (g / 1024) (by omega) ht
  unfold Mm.entry
  unfold pageTableSize at h2
  omega

theorem Layout.entry_apart (hl : Layout s) (hf : f < 2 ^ 20) (hg : g < 2 ^ 20)
    (htf : s.tbl (f / 1024) ≠ 0) (hne : f ≠ g) :
    s.entry f + 4 ≤ s.entry g ∨ s.entry g + 4 ≤ s.entry f := by
  have ha := hl.aligned (f / 1024) (by omega)
  have hb := hl.aligned (g / 1024) (by omega)
  unfold Mm.entry
  by_cases ht : f / 1024 = g / 1024
  · rw [ht]
    omega
  · have hts : s.tbl (f / 1024) ≠ s.tbl (g / 1024) :=
      fun e => ht (hl.apart (f / 1024) (by omega) (g / 1024) (by omega) htf e)
    omega

theorem pte_isSome : s.pte g ≠ none ↔ s.tbl (g / 1024) ≠ 0 := by
  unfold Mm.pte
  split_ifs with h <;> simp [h]

theorem pte_eq_some (h : s.tbl (g / 1024) ≠ 0) : s.pte g = some (s.page (s.entry g)) := if_neg h

/-- Entries are a matter of the directory and of the memory from its end to `plp`. -/
theorem pte_write (hl : Layout s) (h : Memory.Agree s.kernelDir s.plp s.mem m) (hg : g < 2 ^ 20) :
    ({ s with mem := m } : Mm).pte g = s.pte g := by
  have hd := h.mono (Nat.le_refl _) hl.dir
  have ht := tbl_write hd (t := g / 1024) (by omega)
  unfold Mm.pte Mm.entry
  rw [ht]
  split_ifs with h0
  · rfl
  · obtain ⟨h1, h2⟩ := hl.entry_inside hg h0
    unfold Mm.entry at h1 h2
    exact congrArg some (congrArg Page.ofWord (h.word (by omega) h2))

/-- An entry is written. -/
theorem pte_setPage (hl : Layout s) (hf : f < 2 ^ 20) (hg : g < 2 ^ 20)
    (ht : s.tbl (f / 1024) ≠ 0) (pg : Page) :
    (s.setPage (s.entry f) pg).pte g = if g = f then some pg else s.pte g := by
  obtain ⟨h1, -⟩ := hl.entry_inside hf ht
  have hd : Memory.Agree s.kernelDir (s.kernelDir + pageDirSize) s.mem
      (s.mem.setWord (s.entry f) pg.toWord) := Memory.agree_setWord (.inr h1)
  have htbl (t : Nat) (ht : t < 1024) : (s.setPage (s.entry f) pg).tbl t = s.tbl t :=
    tbl_write hd ht
  have hentry (h : Nat) (hh : h < 2 ^ 20) : (s.setPage (s.entry f) pg).entry h = s.entry h := by
    rw [Mm.entry, htbl _ (by omega), Mm.entry]
  split_ifs with hgf
  · subst hgf
    rw [pte_eq_some (by rwa [htbl _ (by omega)]), hentry g hg, Mm.page, Mm.setPage]
    simp
  · unfold Mm.pte
    rw [htbl _ (by omega), hentry g hg]
    split_ifs with h0
    · rfl
    · have hapart := hl.entry_apart hf hg ht (Ne.symm hgf)
      exact congrArg some (congrArg Page.ofWord (Memory.word_setWord_ne hapart))

theorem setPage_entry (hl : Layout s) (hf : f < 2 ^ 20) (ht : s.tbl (f / 1024) ≠ 0) (pg : Page) :
    Layout (s.setPage (s.entry f) pg) ∧
      (∀ t < 1024, (s.setPage (s.entry f) pg).tbl t = s.tbl t) ∧
      ∀ g, s.inFrames (g / 32) → (s.setPage (s.entry f) pg).used g = s.used g := by
  obtain ⟨h1, -⟩ := hl.entry_inside hf ht
  have hb := hl.bitmap
  have hd : Memory.Agree s.kernelDir (s.kernelDir + pageDirSize) s.mem
      (s.mem.setWord (s.entry f) pg.toWord) := Memory.agree_setWord (.inr h1)
  have hbits : Memory.Agree s.frames (s.frames + 4 * s.frameWords) s.mem
      (s.mem.setWord (s.entry f) pg.toWord) := Memory.agree_setWord (.inr (by omega))
  exact ⟨hl.write hd, fun t ht => tbl_write hd ht, fun g hg => used_write hbits hg⟩

/-- `z` lies behind `plp` or in the directory, and so neither in the bitmap nor in a page table. -/
def OffTables (s : Mm) (z : Nat) : Prop :=
  s.plp ≤ z ∨ (s.kernelDir ≤ z ∧ z < s.kernelDir + pageDirSize)

theorem OffTables.vars {s' : Mm} {z : Nat} (hz : OffTables s z) (hv : SameVars s s')
    (hplp : s'.plp = s.plp) : OffTables s' z := by
  rw [OffTables, hplp, hv.kernelDir]
  exact hz

theorem setPage_off (hl : Layout s) (hg : g < 2 ^ 20) (ht : s.tbl (g / 1024) ≠ 0) (pg : Page) {z : Nat}
    (hz : OffTables s z) : (s.setPage (s.entry g) pg).mem z = s.mem z := by
  obtain ⟨h1, h2⟩ := hl.entry_inside hg ht
  unfold OffTables at hz
  exact Memory.setWord_apply (by omega)

end Writes

/-- What `set_frame` does when the array has the frame's word. -/
theorem setFrame_ok {s s' : Mm} {a : Nat} (hl : Layout s) (h : setFrame s a = .ok s') :
    Layout s' ∧ SameVars s s' ∧ s'.plp = s.plp ∧ s.inFrames (a / 0x1000 / 32) ∧
      (∀ f, s'.used f = (decide (f = a / 0x1000) || s.used f)) ∧
      (∀ g < 2 ^ 20, s'.pte g = s.pte g) ∧ ∀ t < 1024, s'.tbl t = s.tbl t := by
  simp only [setFrame] at h
  split_ifs at h with hin
  cases h
  have hin' : a / 0x1000 / 32 < s.frameWords := hin
  have hb := hl.bitmap
  have hagree : Memory.Agree s.kernelDir s.plp s.mem (s.mem.setBit s.frames (a / 0x1000)) :=
    Memory.agree_setBit (.inl (by omega))
  exact ⟨hl.write (hagree.mono (Nat.le_refl _) hl.dir), rfl, rfl, hin, fun f => Memory.bit_setBit ..,
    fun g hg => pte_write hl hagree hg,
    fun t ht => tbl_write (hagree.mono (Nat.le_refl _) hl.dir) ht⟩

theorem setFrame_off {s s' : Mm} {a z : Nat} (hl : Layout s) (h : setFrame s a = .ok s')
    (hz : OffTables s z) : s'.mem z = s.mem z := by
  simp only [setFrame] at h
  split_ifs at h with hin
  cases h
  have hin' : a / 0x1000 / 32 < s.frameWords := hin
  have hb := hl.bitmap
  have hd := hl.dir
  unfold OffTables at hz
  change (Memory.setBit _ s.frames (a / 0x1000)) z = _
  rw [Memory.setBit, Memory.setWord_apply (by omega)]

/-- The state behind a table that was made at `b`. -/
def Mm.withTable (s : Mm) (t b : Nat) : Mm :=
  { s with
    plp := b + pageTableSize
    mem := ((s.mem.setWord (s.kernelDir + 4096 + 4 * t) (BitVec.ofNat 32 b)).fill b 0
      pageTableSize).setWord (s.kernelDir + 4 * t) (BitVec.ofNat 32 b ||| 7#32) }

section WithTable

variable {s : Mm} {t b : Nat}

theorem tbl_withTable (hl : Layout s) (ht : t < 1024) (hb : s.plp ≤ b) (hfit : b < 2 ^ 32)
    {u : Nat} (hu : u < 1024) : (s.withTable t b).tbl u = if u = t then b else s.tbl u := by
  have hd := hl.dir
  unfold pageDirSize at hd
  simp only [Mm.tbl, Mm.table, Mm.withTable]
  rw [Memory.word_setWord_ne (by omega), Memory.word_fill_ne (by omega)]
  split_ifs with hut
  · rw [hut, Memory.word_setWord, BitVec.toNat_ofNat]
    exact Nat.mod_eq_of_lt hfit
  · rw [Memory.word_setWord_ne (by omega)]

/-- Between the directory and the new table nothing changes, and nothing below the directory. -/
theorem agree_withTable (hl : Layout s) (ht : t < 1024) (hb : s.plp ≤ b) :
    Memory.Agree 0 s.kernelDir s.mem (s.withTable t b).mem ∧
    Memory.Agree (s.kernelDir + pageDirSize) b s.mem (s.withTable t b).mem := by
  have hd := hl.dir
  unfold pageDirSize at hd
  have hset (w : BitVec 32) {m : Memory} (i : Nat) (hi : i < 2048) :
      Memory.Agree 0 s.kernelDir m (m.setWord (s.kernelDir + 4 * i) w) ∧
      Memory.Agree (s.kernelDir + pageDirSize) b m (m.setWord (s.kernelDir + 4 * i) w) :=
    ⟨Memory.agree_setWord (.inr (by omega)),
      Memory.agree_setWord (.inl (by unfold pageDirSize; omega))⟩
  have h1 := hset (BitVec.ofNat 32 b) (m := s.mem) (1024 + t) (by omega)
  rw [show s.kernelDir + 4 * (1024 + t) = s.kernelDir + 4096 + 4 * t by omega] at h1
  constructor
  · exact (h1.1.trans (Memory.agree_fill (.inr (by omega)))).trans (hset _ t (by omega)).1
  · exact (h1.2.trans (Memory.agree_fill (.inr (Nat.le_refl _)))).trans (hset _ t (by omega)).2

theorem layout_withTable (hl : Layout s) (ht : t < 1024) (hb : s.plp ≤ b)
    (h4 : b % 0x1000 = 0) (hfit : b + pageTableSize < 2 ^ 32) : Layout (s.withTable t b) := by
  have hlt : b < 2 ^ 32 := by omega
  have hd := hl.dir
  have htbl (u : Nat) (hu : u < 1024) := tbl_withTable hl ht hb hlt hu
  refine ⟨hl.bitmap, ?_, hfit, ?_, ?_, ?_⟩
  · change s.kernelDir + pageDirSize ≤ b + pageTableSize
    omega
  · intro u hu hne
    rw [htbl u hu] at hne ⊢
    change s.kernelDir + pageDirSize ≤ _ ∧ _ + pageTableSize ≤ b + pageTableSize
    split_ifs at hne ⊢ with hut
    · omega
    · have := hl.inside u hu hne
      omega
  · intro u hu
    rw [htbl u hu]
    split_ifs with hut
    · exact h4
    · exact hl.aligned u hu
  · intro u hu v hv hne he
    rw [htbl u hu] at hne he
    rw [htbl v hv] at he
    have below (w : Nat) (hw : w < 1024) (hw0 : s.tbl w ≠ 0) : s.tbl w + pageTableSize ≤ b := by
      have := hl.inside w hw hw0
      omega
    unfold pageTableSize at below
    split_ifs at hne he with h1 h2 h2
    · rw [h1, h2]
    · have := below v hv (by omega)
      omega
    · have := below u hu hne
      omega
    · exact hl.apart u hu v hv hne he

theorem used_withTable (hl : Layout s) (ht : t < 1024) (hb : s.plp ≤ b) {f : Nat}
    (hf : s.inFrames (f / 32)) : (s.withTable t b).used f = s.used f := by
  have hbm := hl.bitmap
  exact used_write ((agree_withTable hl ht hb).1.mono (Nat.zero_le _) hbm) hf

theorem pte_withTable (hl : Layout s) (ht : t < 1024) (hb : s.plp ≤ b) (hfit : b < 2 ^ 32) {g : Nat}
    (hg : g < 2 ^ 20) :
    (s.withTable t b).pte g = if g / 1024 = t then some (Page.ofWord 0) else s.pte g := by
  have hd := hl.dir
  have htbl := tbl_withTable hl ht hb hfit (u := g / 1024) (by omega)
  split_ifs at htbl ⊢ with hgt
  · rw [pte_eq_some (by rw [htbl]; unfold pageDirSize at hd; omega), Mm.entry, htbl]
    refine congrArg some (congrArg Page.ofWord ?_)
    rw [Mm.withTable, Memory.word_setWord_ne (by unfold pageDirSize at hd; omega)]
    exact Memory.word_fill_zero (by omega) (by unfold pageTableSize; omega)
  · unfold Mm.pte Mm.entry
    rw [htbl]
    split_ifs with hg0
    · rfl
    · obtain ⟨h1, h2⟩ := hl.entry_inside hg hg0
      unfold Mm.entry at h1 h2
      exact congrArg some (congrArg Page.ofWord
        ((agree_withTable hl ht hb).2.word h1 (Nat.le_trans h2 hb)))

theorem withTable_behind (hl : Layout s) (ht : t < 1024) (hb : s.plp ≤ b) {z : Nat}
    (hz : (s.withTable t b).plp ≤ z) : (s.withTable t b).mem z = s.mem z := by
  have hd := hl.dir
  have hz' : b + pageTableSize ≤ z := hz
  unfold pageDirSize at hd
  change Memory.setWord _ _ _ z = s.mem z
  rw [Memory.setWord_apply (by omega), Memory.fill_apply (.inr hz'), Memory.setWord_apply (by omega)]

end WithTable

/-- With the heap online no table is ever made. -/
theorem getPage_online {s : Mm} {a d : Nat} (hon : s.heapOnline = true)
    (ht : s.table d (a / 0x1000 / 1024) = 0) :
    getPage s a true d = .error (.panic "liballoc does not support align yet\n") := by
  simp [getPage, ht, kvmallocP, hon]

/-- Where the table is, nothing is made. -/
theorem getPage_there {s : Mm} {a : Nat} (ht : s.tbl (a / 0x1000 / 1024) ≠ 0) :
    getPage s a true s.kernelDir = .ok (s.entry (a / 0x1000), s) := by
  simp only [getPage, Mm.entry, Mm.tbl] at ht ⊢
  rw [if_pos ht]

/-- What `get_page` leaves in `kernel_dir` when it comes back for address `a`: the table is there, the
entries of a new one are empty, and the bitmap is as it was, as is all that lies behind `plp`. -/
structure Got (s : Mm) (a : Nat) (s' : Mm) : Prop where
  layout : Layout s'
  vars : SameVars s s'
  plp : s'.plp = if s.pte (a / 0x1000) = none then s.plp - s.plp % 0x1000 + 0x2000 else s.plp
  made : s'.tbl (a / 0x1000 / 1024) ≠ 0
  tables : ∀ t < 1024, s'.tbl t = if t = a / 0x1000 / 1024 ∧ s.tbl t = 0 then
    s.plp - s.plp % 0x1000 + 0x1000 else s.tbl t
  used : ∀ f, s.inFrames (f / 32) → s'.used f = s.used f
  pages : ∀ g < 2 ^ 20, s'.pte g =
    if s.pte g = none ∧ g / 1024 = a / 0x1000 / 1024 then some (Page.ofWord 0) else s.pte g
  behind : ∀ z, s'.plp ≤ z → s'.mem z = s.mem z

section Got

variable {s : Mm} {a : Nat}

/-- The table was there. -/
theorem Got.refl (hl : Layout s) (ht : s.tbl (a / 0x1000 / 1024) ≠ 0) : Got s a s := by
  have hp : s.pte (a / 0x1000) ≠ none := pte_isSome.mpr ht
  refine ⟨hl, .refl s, by rw [if_neg hp], ht, ?_, fun _ _ => rfl, ?_, fun _ _ => rfl⟩
  · intro t _
    rw [if_neg]
    rintro ⟨rfl, h0⟩
    exact ht h0
  · intro g _
    rw [if_neg]
    rintro ⟨h0, hg⟩
    exact pte_isSome.mpr (hg ▸ ht) h0

/-- A new table is put behind the next page boundary. -/
theorem Got.withTable (hl : Layout s) (ha : a < 2 ^ 32) (ht : s.tbl (a / 0x1000 / 1024) = 0)
    (hfit : s.plp - s.plp % 0x1000 + 0x1000 + pageTableSize < 2 ^ 32) :
    Got s a (s.withTable (a / 0x1000 / 1024) (s.plp - s.plp % 0x1000 + 0x1000)) := by
  have h1024 : a / 0x1000 / 1024 < 1024 := by omega
  have hle : s.plp ≤ s.plp - s.plp % 0x1000 + 0x1000 := by omega
  have hlt : s.plp - s.plp % 0x1000 + 0x1000 < 2 ^ 32 := by omega
  have htbl (u : Nat) (hu : u < 1024) := tbl_withTable hl h1024 hle hlt hu
  refine ⟨layout_withTable hl h1024 hle (by omega) (by omega), rfl, ?_, ?_, ?_,
    fun f hf => used_withTable hl h1024 hle hf, ?_, fun z hz => withTable_behind hl h1024 hle hz⟩
  · rw [if_pos (by simp [Mm.pte, ht])]
    rfl
  · rw [htbl _ h1024, if_pos rfl]
    omega
  · intro u hu
    rw [htbl u hu]
    by_cases hut : u = a / 0x1000 / 1024
    · simp [hut, ht]
    · simp [hut]
  · intro g hg
    rw [pte_withTable hl h1024 hle hlt hg]
    by_cases hgt : g / 1024 = a / 0x1000 / 1024
    · simp [hgt, Mm.pte, ht]
    · simp [hgt]

/-- `get_page` in `kernel_dir`, where it is to make what is missing: it fails, or the entry is
there. -/
theorem getPage_spec (hl : Layout s) (ha : a < 2 ^ 32) :
    (getPage s a true s.kernelDir =
        .error (.panic "liballoc does not support align yet\n") ∧ s.heapOnline = true) ∨
    (getPage s a true s.kernelDir = .error .outOfBounds ∧
      2 ^ 32 ≤ s.plp - s.plp % 0x1000 + 0x1000 + pageTableSize) ∨
    ∃ s', getPage s a true s.kernelDir = .ok (s'.entry (a / 0x1000), s') ∧ Got s a s' := by
  by_cases ht : s.tbl (a / 0x1000 / 1024) = 0
  · cases hon : s.heapOnline with
    | true => exact .inl ⟨getPage_online hon ht, rfl⟩
    | false =>
      right
      have ht' : s.table s.kernelDir (a / 0x1000 / 1024) = 0 := ht
      have hstart : s.blockStart true = s.plp - s.plp % 0x1000 + 0x1000 :=
        (blockStart_spec s true).2.2.1 rfl (by have := hl.dir; unfold pageDirSize at this; omega)
      by_cases hfit : s.plp - s.plp % 0x1000 + 0x1000 + pageTableSize ≥ 2 ^ 32
      · left
        refine ⟨?_, hfit⟩
        have hblock := kvmallocP_full hon (hstart.symm ▸ hfit)
        simp [getPage, ht', hblock]
      · right
        have hgot := Got.withTable hl ha ht (Nat.not_le.mp hfit)
        refine ⟨_, ?_, hgot⟩
        have htbl := hgot.tables (a / 0x1000 / 1024) (by omega)
        rw [if_pos ⟨rfl, ht⟩] at htbl
        have hblock := kvmallocP_room hon (hstart.symm ▸ Nat.not_le.mp hfit)
        simp only [Mm.entry, htbl]
        simp [getPage, ht', hblock, hstart, Mm.withTable]
  · exact .inr (.inr ⟨s, getPage_there ht, .refl hl ht⟩)

end Got

theorem memEnd_mod (s : Mm) : s.memEnd = s.nframes * 0x1000 % 2 ^ 32 := by
  unfold Mm.memEnd wrap
  omega

theorem memEnd_eq {s : Mm} (hn : s.nframes < 2 ^ 20) : s.memEnd = s.nframes * 0x1000 := by
  rw [memEnd_mod, Nat.mod_eq_of_lt (by omega)]

/-- The entry that `alloc_dma_frame` leaves for address `a`. -/
def dmaPage (pg : Page) (k w : Bool) (a : Nat) : Page :=
  { pg with present := true, rw := w, user := !k, frame := BitVec.ofNat 20 (a / 0x1000) }

/-- `alloc_dma_frame` on an entry of `kernel_dir`: the entry is written, and the frame is marked
if memory reaches that far. -/
theorem allocDmaFrame_spec {s : Mm} {g a : Nat} (k w : Bool) (hl : Layout s) (hg : g < 2 ^ 20)
    (ht : s.tbl (g / 1024) ≠ 0) (hin : a < s.memEnd → s.inFrames (a / 0x1000 / 32)) :
    ∃ s', allocDmaFrame s (s.entry g) k w a = .ok s' ∧ Layout s' ∧ SameVars s s' ∧
      s'.plp = s.plp ∧ (∀ t < 1024, s'.tbl t = s.tbl t) ∧
      (∀ f, s.inFrames (f / 32) →
        s'.used f = (s.used f || decide (f = a / 0x1000 ∧ a < s.memEnd))) ∧
      ∀ h < 2 ^ 20, s'.pte h =
        if h = g then some (dmaPage (s.page (s.entry g)) k w a) else s.pte h := by
  obtain ⟨h1, -⟩ := hl.entry_inside hg ht
  have hp : s.entry g ≠ 0 := by
    unfold pageDirSize at h1
    omega
  obtain ⟨hl₁, ht₁, hu₁⟩ := setPage_entry hl hg ht (dmaPage (s.page (s.entry g)) k w a)
  have hdef : allocDmaFrame s (s.entry g) k w a =
      if a < s.memEnd then
        setFrame (s.setPage (s.entry g) (dmaPage (s.page (s.entry g)) k w a)) a
      else .ok (s.setPage (s.entry g) (dmaPage (s.page (s.entry g)) k w a)) := by
    exact if_neg hp
  rw [hdef]
  by_cases hlt : a < s.memEnd
  · rw [if_pos hlt]
    have hset : ∃ s', setFrame (s.setPage (s.entry g) (dmaPage (s.page (s.entry g)) k w a)) a =
        .ok s' := ⟨_, if_pos (hin hlt)⟩
    obtain ⟨s', hs'⟩ := hset
    obtain ⟨h3, h4, h5, -, h6, h7, h8⟩ := setFrame_ok hl₁ hs'
    have hv : SameVars s (s.setPage (s.entry g) (dmaPage (s.page (s.entry g)) k w a)) := rfl
    refine ⟨s', hs', h3, hv.trans h4, h5, fun t ht => (h8 t ht).trans (ht₁ t ht), ?_, ?_⟩
    · intro f hf
      rw [h6, hu₁ f hf, Bool.or_comm]
      simp [hlt]
    · intro h hh
      rw [h7 h hh]
      exact pte_setPage hl hg hh ht _
  · rw [if_neg hlt]
    refine ⟨_, rfl, hl₁, rfl, rfl, ht₁, ?_, fun h hh => pte_setPage hl hg hh ht _⟩
    intro f hf
    rw [hu₁ f hf]
    simp [hlt]

/-- It writes below `plp` only, and not to the directory. -/
theorem allocDmaFrame_off {s s' : Mm} {g a : Nat} {k w : Bool} (hl : Layout s) (hg : g < 2 ^ 20)
    (ht : s.tbl (g / 1024) ≠ 0) (h : allocDmaFrame s (s.entry g) k w a = .ok s') :
    s'.plp = s.plp ∧ ∀ z, OffTables s z → s'.mem z = s.mem z := by
  simp only [allocDmaFrame] at h
  split_ifs at h
  · obtain ⟨hl₁, -, -⟩ := setPage_entry hl hg ht (dmaPage (s.page (s.entry g)) k w a)
    obtain ⟨-, -, hplp, -⟩ := setFrame_ok hl₁ h
    exact ⟨hplp, fun z hz => (setFrame_off hl₁ h hz).trans (setPage_off hl hg ht _ hz)⟩
  · cases h
    exact ⟨rfl, fun z hz => setPage_off hl hg ht _ hz⟩

end Levos.Memory
