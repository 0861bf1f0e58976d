import Levos.Framework.Run
import Levos.Memory.PagingFini

namespace Levos.Memory

open Levos.Framework

/-- A block that `__kmalloc` gave out. -/
structure Block where
  addr : Nat
  phys : Nat
  size : Nat
  aligned : Bool

def Block.Apart (b c : Block) : Prop := b.addr + b.size ≤ c.addr ∨ c.addr + c.size ≤ b.addr

/-- What the kernel does before `paging_fini`: it asks for memory, it sets up the bitmap and the
directory, and it writes where it likes, but not into the directory. A step is labelled with the
blocks that it got. -/
inductive BootStep (newMalloc : Nat → Mm → Except Fault (Nat × Mm)) : Mm → List Block → Mm → Prop
  | request {s s' : Mm} {size addr phys : Nat} {a : Bool}
      (h : kmalloc newMalloc s size a = .ok (addr, phys, s')) :
      BootStep newMalloc s [⟨addr, phys, size, a⟩] s'
  | setup {s s₁ s₂ s' : Mm} {n frames dir phys₁ phys₂ : Nat}
      (h₁ : kmalloc newMalloc { s with nframes := n } (bitmapBytes n) false =
        .ok (frames, phys₁, s₁))
      (h₂ : kvmallocP { s₁ with frames := frames, mem := s₁.mem.fill frames 0 (n / 32) }
        pageDirSize = .ok (dir, phys₂, s₂))
      (h : setNframes newMalloc s n = .ok s') :
      BootStep newMalloc s
        [⟨frames, phys₁, bitmapBytes n, false⟩, ⟨dir, phys₂, pageDirSize, true⟩] s'
  | write {s : Mm} {m : Memory}
      (h : s.frames ≠ 0 → Memory.Agree s.kernelDir (s.kernelDir + pageDirSize) s.mem m) :
      BootStep newMalloc s [] { s with mem := m }

/-- What is promised of the blocks that were given out between two values of `plp`. -/
structure BlocksSound (lo hi : Nat) (bs : List Block) : Prop where
  apart : bs.Pairwise Block.Apart
  inside : ∀ b ∈ bs, lo ≤ b.addr ∧ b.addr + b.size ≤ hi
  phys : ∀ b ∈ bs, b.phys = b.addr
  aligned : ∀ b ∈ bs, b.aligned = true → b.addr % 0x1000 = 0

theorem BlocksSound.nil (lo hi : Nat) : BlocksSound lo hi [] := by
  constructor <;> simp

/-- A new block behind all others. -/
theorem BlocksSound.snoc {lo hi hi' : Nat} {bs : List Block} {b : Block}
    (h : BlocksSound lo hi bs) (hlo : lo ≤ hi) (hb : hi ≤ b.addr) (hb' : b.addr + b.size = hi')
    (hp : b.phys = b.addr) (ha : b.aligned = true → b.addr % 0x1000 = 0) :
    BlocksSound lo hi' (bs ++ [b]) := by
  have hmem {c : Block} : c ∈ bs ++ [b] ↔ c ∈ bs ∨ c = b := by simp
  refine ⟨?_, ?_, ?_, ?_⟩
  · refine List.pairwise_append.mpr ⟨h.apart, List.pairwise_singleton _ _, ?_⟩
    intro c hc d hd
    obtain rfl := List.mem_singleton.mp hd
    have := (h.inside c hc).2
    exact .inl (by omega)
  · intro c hc
    rcases hmem.mp hc with hc | rfl
    · have := h.inside c hc
      omega
    · omega
  · intro c hc
    rcases hmem.mp hc with hc | rfl
    · exact h.phys c hc
    · exact hp
  · intro c hc
    rcases hmem.mp hc with hc | rfl
    · exact h.aligned c hc
    · exact ha

/-- `__kmalloc` without the heap. -/
theorem kmalloc_offline {newMalloc : Nat → Mm → Except Fault (Nat × Mm)} {s s' : Mm}
    {size addr phys : Nat} {a : Bool} (hoff : s.heapOnline = false) (hlow : 0x1000 ≤ s.plp)
    (h : kmalloc newMalloc s size a = .ok (addr, phys, s')) :
    s.plp ≤ addr ∧ phys = addr ∧ (a = true → addr % 0x1000 = 0) ∧ addr + size < 2 ^ 32 ∧
      s' = { s with plp := addr + size } := by
  rw [kmalloc, if_neg (by simp [hoff])] at h
  obtain ⟨rfl, rfl, hlt, rfl⟩ := placeBlock_ok h
  obtain ⟨hle, -, halign, -⟩ := blockStart_spec s a
  refine ⟨hle, rfl, fun ha => ?_, hlt, rfl⟩
  rw [halign ha hlow]
  omega

/-- `set_nframes` asks for two blocks. -/
theorem setNframes_cases {newMalloc : Nat → Mm → Except Fault (Nat × Mm)} {s s' : Mm} {n : Nat}
    (h : setNframes newMalloc s n = .ok s') :
    ∃ frames phys₁ s₁ dir phys₂ s₂,
      kmalloc newMalloc { s with nframes := n } (bitmapBytes n) false = .ok (frames, phys₁, s₁) ∧
      kvmallocP { s₁ with frames := frames, mem := s₁.mem.fill frames 0 (n / 32) } pageDirSize =
        .ok (dir, phys₂, s₂) ∧
      s' = { s₂ with kernelDir := dir, mem := s₂.mem.fill dir 0 pageDirSize } := by
  simp only [setNframes] at h
  split_ifs at h
  obtain ⟨⟨frames, phys₁, s₁⟩, h₁, h⟩ := bind_eq_ok.mp h
  obtain ⟨⟨dir, phys₂, s₂⟩, h₂, h⟩ := bind_eq_ok.mp h
  exact ⟨frames, phys₁, s₁, dir, phys₂, s₂, h₁, h₂, (Except.ok.inj h).symm⟩

/-- Where a boot stands that began in `s₀` and has given out `bs`. -/
structure BootInvariant (s₀ : Mm) (bs : List Block) (s : Mm) : Prop where
  offline : s.heapOnline = false
  low : s₀.plp ≤ s.plp
  blocks : BlocksSound s₀.plp s.plp bs
  ready : s.frames ≠ 0 → Layout s ∧ ∀ t < 1024, s.tbl t = 0

theorem BootInvariant.request {newMalloc : Nat → Mm → Except Fault (Nat × Mm)} {s₀ s s' : Mm}
    {bs : List Block} {size addr phys : Nat} {a : Bool} (hi : BootInvariant s₀ bs s)
    (h0 : 0x1000 ≤ s₀.plp) (h : kmalloc newMalloc s size a = .ok (addr, phys, s')) :
    BootInvariant s₀ (bs ++ [⟨addr, phys, size, a⟩]) s' := by
  have hlow := hi.low
  obtain ⟨hle, hp, ha, hlt, rfl⟩ := kmalloc_offline hi.offline (by omega) h
  refine ⟨hi.offline, Nat.le_trans hi.low (Nat.le_trans hle (Nat.le_add_right _ _)),
    hi.blocks.snoc hlow hle rfl hp ha, fun hf => ?_⟩
  obtain ⟨hl, ht⟩ := hi.ready hf
  have hd := hl.dir
  refine ⟨⟨hl.bitmap, ?_, hlt, ?_, hl.aligned, hl.apart⟩, ht⟩
  · change s.kernelDir + pageDirSize ≤ addr + size
    omega
  · exact fun t ht' hne => absurd (ht t ht') hne

theorem BootInvariant.setup {newMalloc : Nat → Mm → Except Fault (Nat × Mm)} {s₀ s s₁ s₂ s' : Mm}
    {bs : List Block} {n frames dir phys₁ phys₂ : Nat} (hi : BootInvariant s₀ bs s)
    (h0 : 0x1000 ≤ s₀.plp)
    (h₁ : kmalloc newMalloc { s with nframes := n } (bitmapBytes n) false = .ok (frames, phys₁, s₁))
    (h₂ : kvmallocP { s₁ with frames := frames, mem := s₁.mem.fill frames 0 (n / 32) }
      pageDirSize = .ok (dir, phys₂, s₂))
    (h : setNframes newMalloc s n = .ok s') :
    BootInvariant s₀ (bs ++ [⟨frames, phys₁, bitmapBytes n, false⟩,
      ⟨dir, phys₂, pageDirSize, true⟩]) s' := by
  have hlow := hi.low
  obtain ⟨frames', phys₁', s₁', dir', phys₂', s₂', h₁', h₂', hs'⟩ := setNframes_cases h
  cases h₁.symm.trans h₁'
  cases h₂.symm.trans h₂'
  have hlow₁ : 0x1000 ≤ s.plp := by omega
  obtain ⟨hle₁, hp₁, ha₁, hlt₁, rfl⟩ := kmalloc_offline (by exact hi.offline) (by exact hlow₁) h₁
  have hle₁' : s.plp ≤ frames := hle₁
  have hlow₂ : 0x1000 ≤ frames + bitmapBytes n := by omega
  rw [← kmalloc_align newMalloc] at h₂
  obtain ⟨hle₂, hp₂, ha₂, hlt₂, rfl⟩ := kmalloc_offline (by exact hi.offline) (by exact hlow₂) h₂
  have hle₂' : frames + bitmapBytes n ≤ dir := hle₂
  have htbl (t : Nat) (ht : t < 1024) : s'.tbl t = 0 := by
    rw [hs', Mm.tbl, Mm.table]
    exact congrArg BitVec.toNat (Memory.word_fill_zero (b := dir + 4096 + 4 * t) (by omega)
      (by unfold pageDirSize; omega))
  have hblocks := (hi.blocks.snoc (b := ⟨frames, phys₁, bitmapBytes n, false⟩) hlow hle₁ rfl hp₁
    ha₁).snoc (b := ⟨dir, phys₂, pageDirSize, true⟩) (by simp only; omega) hle₂ rfl hp₂ ha₂
  rw [List.append_assoc] at hblocks
  refine ⟨by rw [hs']; exact hi.offline, ?_, by rw [hs']; exact hblocks, fun _ => ⟨?_, htbl⟩⟩
  · rw [hs']
    simp only
    omega
  · refine ⟨?_, ?_, ?_, ?_, ?_, ?_⟩
    · rw [hs', Mm.frameWords]
      change frames + 4 * (bitmapBytes n / 4) ≤ dir
      omega
    · rw [hs']
    · rw [hs']
      exact hlt₂
    · exact fun t ht hne => absurd (htbl t ht) hne
    · exact fun t ht => by rw [htbl t ht]
    · exact fun t ht u _ hne => absurd (htbl t ht) hne

theorem BootInvariant.step {newMalloc : Nat → Mm → Except Fault (Nat × Mm)} {s₀ s s' : Mm}
    {bs new : List Block} (hi : BootInvariant s₀ bs s) (h0 : 0x1000 ≤ s₀.plp)
    (h : BootStep newMalloc s new s') : BootInvariant s₀ (bs ++ new) s' := by
  cases h with
  | request h => exact hi.request h0 h
  | setup h₁ h₂ h => exact hi.setup h0 h₁ h₂ h
  | write h =>
    rw [List.append_nil]
    refine ⟨hi.offline, hi.low, hi.blocks, fun hf => ?_⟩
    obtain ⟨hl, ht⟩ := hi.ready hf
    exact ⟨hl.write (h hf), fun t ht' => (tbl_write (h hf) ht').trans (ht t ht')⟩

theorem BootInvariant.run {newMalloc : Nat → Mm → Except Fault (Nat × Mm)} {s₀ s : Mm}
    {ls : List (List Block)} (hl : Loaded s₀) (h : Run (BootStep newMalloc) s₀ ls s) :
    BootInvariant s₀ ls.flatten s := by
  have hlow := hl.low
  have hrun := h.historyInvariant (fun ls s => BootInvariant s₀ ls.flatten s)
    (fun ls s new s' hi hst => by
      rw [List.flatten_append, List.flatten_singleton]
      exact hi.step (by omega) hst) []
    ⟨hl.offline, Nat.le_refl _, .nil _ _, fun hf => absurd hl.frames hf⟩
  simpa using hrun

/-- The page tables are blocks of their own, behind all blocks that were given out before. -/
structure TablesSound (lo : Nat) (s : Mm) : Prop where
  inside : ∀ t < 1024, s.tbl t ≠ 0 → lo ≤ s.tbl t ∧ s.tbl t + pageTableSize ≤ s.plp
  aligned : ∀ t < 1024, s.tbl t % 0x1000 = 0
  apart : ∀ t < 1024, ∀ u < 1024, s.tbl t ≠ 0 → s.tbl u ≠ 0 → t ≠ u →
    s.tbl t + pageTableSize ≤ s.tbl u ∨ s.tbl u + pageTableSize ≤ s.tbl t

/-- Frame `f` overlaps the memory from `0x1000` up to `plp`. -/
def Mm.kernelFrame (s : Mm) (f : Nat) : Prop := 1 ≤ f ∧ 0x1000 * f < s.plp

/-- The memory of the kernel is marked and mapped onto itself, and the searches for free frames
never find any of it. -/
structure KernelKept (s : Mm) : Prop where
  marked : ∀ f, s.kernelFrame f → s.used f = true
  ident : ∀ f, s.kernelFrame f →
    ∃ pg, s.pte f = some pg ∧ pg.present = true ∧ pg.frame.toNat = f
  single : ∀ f, firstFrame s = .ok f → ¬s.kernelFrame f
  run : ∀ n f, firstNFrames s n = .ok f → f ≠ 0xFFFFFFFF →
    ∀ j < n, ¬s.kernelFrame ((f + j) % 2 ^ 20)

theorem KernelKept.of_marked {s : Mm} (hused : ∀ f, s.kernelFrame f → s.used f = true)
    (hident : ∀ f, s.kernelFrame f →
      ∃ pg, s.pte f = some pg ∧ pg.present = true ∧ pg.frame.toNat = f) : KernelKept s := by
  refine ⟨hused, hident, ?_, ?_⟩
  · intro f hf hk
    have hfree := firstFrame_free hf
    rw [hused f hk] at hfree
    cases hfree
  · intro n f hf hne j hj hk
    have hfree := firstNFrames_free hf hne j hj
    rw [hused _ hk] at hfree
    cases hfree

theorem Mapping.tablesSound {s₀ s : Mm} {c d t h : Nat} (hm : Mapping s₀ s c d t h) :
    TablesSound s₀.plp s := by
  have hplp := hm.plp
  have hb := hm.bound
  have hfloor : s₀.floor % 0x1000 = 0 ∧ s₀.plp < s₀.floor + 0x1000 := by
    unfold Mm.floor
    omega
  have place (u : Nat) (hu : u < 1024) (hne : s.tbl u ≠ 0) :
      u < t ∧ s.tbl u = s₀.floor + 0x2000 * u + 0x1000 := by
    have hut := (hm.tables u hu).mp hne
    exact ⟨hut, hm.place u hut⟩
  refine ⟨?_, hm.layout.aligned, ?_⟩
  · intro u hu hne
    obtain ⟨hut, hp⟩ := place u hu hne
    unfold pageTableSize
    omega
  · intro u hu v hv hnu hnv huv
    obtain ⟨-, hpu⟩ := place u hu hnu
    obtain ⟨-, hpv⟩ := place v hv hnv
    unfold pageTableSize
    omega

namespace Finished

variable {s₀ s : Mm} {d t h : Nat}

/-- Below 4 GiB each page below `h` is mapped onto itself: what it has drawn is its own frame. -/
theorem ident (hf : Finished s₀ s d t h) (hspace : s₀.nframes < 2 ^ 20) {g : Nat} (h1 : 1 ≤ g) (hg : g < h) :
    ∃ pg, s.pte g = some pg ∧ pg.present = true ∧ pg.frame = BitVec.ofNat 20 g := by
  rcases Nat.lt_or_ge g d with hlt | hge
  · exact hf.mapping.ident g h1 hlt
  · have hdrawn := hf.mapping.drawn g hge hg
    rwa [Mm.marked, if_pos hspace, show d + (h - d) + g - h = g by omega] at hdrawn

/-- The pages below `h` are kept. -/
theorem kernelKept (hf : Finished s₀ s d t h) (hspace : s₀.nframes < 2 ^ 20) (hle : s.plp ≤ 0x1000 * h) :
    KernelKept s := by
  have hin := hf.mapping.inside
  refine .of_marked ?_ ?_
  · rintro f ⟨-, hlt⟩
    rw [hf.used hspace f (by omega), decide_eq_true_eq]
    omega
  · rintro f ⟨h1, hlt⟩
    obtain ⟨pg, hpg, hpr, hfr⟩ := hf.ident hspace h1 (by omega)
    refine ⟨pg, hpg, hpr, ?_⟩
    rw [hfr, BitVec.toNat_ofNat]
    omega

/-- Page `h` is not. -/
theorem not_kernelKept (hf : Finished s₀ s d t h) (hspace : s₀.nframes < 2 ^ 20) (h1 : 1 ≤ h)
    (hlt : h < s₀.nframes) (hgt : 0x1000 * h < s.plp) : ¬KernelKept s := by
  intro hk
  have hmarked := hk.marked h ⟨h1, hgt⟩
  rw [hf.used hspace h hlt] at hmarked
  simp at hmarked

/-- With 4 GiB nothing of the kernel is marked when the heap draws its frames: the first page of the heap's
way up draws frame 1, and without such a page frame 1 stays free. The 253 pages behind a large kernel draw
the frames up to 253, so that frame 254 is free. -/
theorem not_kernelKept_wrapped (hf : Finished s₀ s d t h) (he : Enough s₀) (hspace : s₀.nframes = 2 ^ 20) :
    ¬KernelKept s := by
  have hlow := he.low
  have hplp := hf.mapping.plp
  have himage := hf.image
  have hfloor : s₀.plp < s₀.floor + 0x1000 := by
    unfold Mm.floor
    omega
  have hmarked : s₀.marked d = 1 := if_neg (by omega)
  have hused := hf.mapping.used
  have hdrawn := hf.mapping.drawn
  rw [hmarked] at hused hdrawn
  intro hk
  rcases Nat.lt_or_ge s₀.floor 0x7FA000 with hlt | hge
  · obtain ⟨hd, rfl, rfl⟩ := hf.low hlt
    by_cases hlast : d = 0x800
    · have hone := hk.marked 1 ⟨Nat.le_refl 1, by omega⟩
      rw [hused 1 (by omega), decide_eq_true_eq] at hone
      omega
    · obtain ⟨pg, hpg, -, hfr⟩ := hdrawn d (Nat.le_refl d) (by omega)
      obtain ⟨pg', hpg', -, hfr'⟩ := hk.ident d ⟨by omega, by omega⟩
      cases hpg.symm.trans hpg'
      rw [hfr, show 1 + (0x800 - d) + d - 0x800 = 1 by omega] at hfr'
      change 1 = d at hfr'
      omega
  · obtain ⟨rfl, -⟩ := hf.high hge
    have hfree := hk.marked 0xFE ⟨by decide, by omega⟩
    rw [hused 0xFE (by omega), decide_eq_true_eq] at hfree
    omega

end Finished

/-- What `paging_fini` leaves behind. -/
def MapsKernel (s : Mm) : Prop :=
  ∃ s', pagingFini s = .ok s' ∧ TablesSound s.plp s' ∧ KernelKept s'

/-- The tables of the last loop lie behind what the loops before it have mapped. When the kernel
reaches close to the start of the heap, the heap moves away and leaves room for them; when it ends
more than 1 MiB below, they fit under the heap. In between nothing covers them. And a memory of 4 GiB ends
at 0 in 32 bits, so that none of the kernel is marked when the heap draws its frames. -/
theorem mapsKernel_iff {s : Mm} (hu : Unmapped s) (he : Enough s) :
    MapsKernel s ↔ s.nframes < 2 ^ 20 ∧ (s.plp < 0x701000 ∨ 0x7FA000 ≤ s.plp) := by
  have hlow := he.low
  have hk := he.kernel
  have hheap := he.heap
  have hspace := he.space
  unfold kheapStart at hheap
  obtain ⟨s', d, t, h, hfini, hf⟩ := pagingFini_finished hu he
  have hm := hf.mapping
  have hplp := hm.plp
  have hb := hm.bound
  have hfloor : s.floor % 0x1000 = 0 ∧ s.floor ≤ s.plp ∧ s.plp < s.floor + 0x1000 := by
    unfold Mm.floor
    omega
  -- the directory that is switched to is no part of what is kept
  have hkept : KernelKept s' → MapsKernel s := fun hk =>
    ⟨_, hfini, ⟨hm.tablesSound.inside, hm.tablesSound.aligned, hm.tablesSound.apart⟩,
      .of_marked hk.marked hk.ident⟩
  constructor
  · rintro ⟨s₁, hs₁, -, hk₁⟩
    cases hfini.symm.trans hs₁
    have hk : KernelKept s' := .of_marked hk₁.marked hk₁.ident
    have hwrap : s.nframes < 2 ^ 20 := by
      by_contra hfull
      exact hf.not_kernelKept_wrapped he (by omega) hk
    refine ⟨hwrap, ?_⟩
    by_contra hmid
    obtain ⟨-, rfl, rfl⟩ := hf.low (by omega)
    exact hf.not_kernelKept hwrap (by omega) (by omega) (by omega) hk
  · rintro ⟨hwrap, hcond⟩
    refine hkept (hf.kernelKept hwrap ?_)
    rcases Nat.lt_or_ge s.floor 0x7FA000 with hlt | hge
    · obtain ⟨-, rfl, rfl⟩ := hf.low hlt
      omega
    · obtain ⟨-, hbehind⟩ := hf.high hge
      omega

/-- A boot with enough memory keeps all it has placed exactly when there are fewer than 4 GiB, whose end is
0 in 32 bits, and the page of `plp`, at the entry of `paging_fini`, lies 1 MiB or more below the start of
the heap, or at most 6 pages below it, or beyond. -/
theorem boot_mapsKernel_iff {newMalloc : Nat → Mm → Except Fault (Nat × Mm)} {s₀ s : Mm}
    {ls : List (List Block)} (hl : Loaded s₀) (hrun : Run (BootStep newMalloc) s₀ ls s)
    (hset : s.frames ≠ 0) (hclear : ∀ f < s.nframes, s.used f = false) (hroom : Ample s) :
    BlocksSound s₀.plp s.plp ls.flatten ∧ MapsKernel s ↔
      s.nframes < 2 ^ 20 ∧ (s.plp < 0x701000 ∨ 0x7FA000 ≤ s.plp) := by
  have hi := BootInvariant.run hl hrun
  obtain ⟨hlayout, htables⟩ := hi.ready hset
  have hlow := hl.low
  have hle := hi.low
  rw [mapsKernel_iff ⟨hlayout, htables, hclear⟩ ⟨hroom, hi.offline, by omega⟩]
  exact and_iff_right hi.blocks

/-- A kernel image that ends at `p`, with nothing but zeros behind it. -/
def imageTo (p : Nat) : Mm where
  mem := fun _ => 0
  nframes := 0
  frames := 0
  kernelDir := 0
  currentDirectory := 0
  plp := p
  heapOnline := false

theorem imageTo_loaded {p : Nat} (h : 0x100000 ≤ p) : Loaded (imageTo p) := ⟨rfl, rfl, h⟩

/-- Its boot on a machine with 128 MiB. -/
theorem imageTo_boots {p : Nat} (h : 0x100000 ≤ p) (h' : p < 2 ^ 23) :
    ∃ bs s, Run (BootStep noHeap) (imageTo p) [bs] s ∧ Unmapped s ∧ s.nframes = 0x8000 ∧
      s.frames = p ∧ s.heapOnline = false ∧ s.plp = dirStart (imageTo p) 0x8000 + pageDirSize ∧
      ∀ z, s.mem z = 0 := by
  have hb : Booting (imageTo p) := ⟨imageTo_loaded h, by change p < 2 ^ 31; omega⟩
  obtain ⟨s, hs, hl, hn, hf, hoff, -, hplp, ht, hu⟩ := setNframes_spec noHeap 0x8000 hb
  obtain ⟨frames, phys₁, s₁, dir, phys₂, s₂, h₁, h₂, -⟩ := setNframes_cases hs
  refine ⟨_, s, .single (.setup h₁ h₂ hs), ⟨hl, ht, fun f hlt => ?_⟩, hn, hf, hoff, hplp, fun z => ?_⟩
  · have hbytes : bitmapBytes 0x8000 = 0x2000 := by decide
    rw [hu f (by omega)]
    simp [Memory.bit, Memory.word, imageTo]
  · cases (setNframes_eq hb noHeap 0x8000).symm.trans hs
    simp [framesSet, Memory.fill, imageTo]

/-- A kernel of less than 1 MiB is kept. -/
theorem boot_mapsKernel_small : ∃ ls s, Run (BootStep noHeap) (imageTo 0x180000) ls s ∧
    MapsKernel s := by
  obtain ⟨bs, s, hrun, hu, hn, hf, -, hplp, -⟩ := imageTo_boots (p := 0x180000) (by decide) (by decide)
  have hplp' : s.plp = 0x185004 := hplp.trans (by decide)
  have hroom : Roomy s := by
    constructor <;> rw [hn]
    · rw [hplp']
      decide
    · decide
    · decide
  have hmaps := (boot_mapsKernel_iff (imageTo_loaded (by decide)) hrun (by rw [hf]; decide) hu.clear
    hroom.ample).mpr ⟨hroom.space, .inl (by rw [hplp']; decide)⟩
  exact ⟨_, s, hrun, hmaps.2⟩

/-- A kernel of 6 MiB is not: the last tables lie behind all that is mapped. -/
theorem boot_mapsKernel_large : ∃ ls s, Loaded (imageTo 0x700000) ∧
    Run (BootStep noHeap) (imageTo 0x700000) ls s ∧ s.frames ≠ 0 ∧
    (∀ f < s.nframes, s.used f = false) ∧ Roomy s ∧
    ¬(BlocksSound (imageTo 0x700000).plp s.plp ls.flatten ∧ MapsKernel s) := by
  obtain ⟨bs, s, hrun, hu, hn, hf, hoff, hplp, -⟩ :=
    imageTo_boots (p := 0x700000) (by decide) (by decide)
  have hplp' : s.plp = 0x705004 := hplp.trans (by decide)
  have hroom : Roomy s := by
    constructor <;> rw [hn]
    · rw [hplp']
      decide
    · decide
    · decide
  refine ⟨_, s, imageTo_loaded (by decide), hrun, by rw [hf]; decide, hu.clear, hroom, ?_⟩
  refine fun h => absurd h.2 ?_
  rw [mapsKernel_iff hu ⟨hroom.ample, hoff, by rw [hplp']; decide⟩, hplp']
  rintro ⟨-, hcond⟩
  exact absurd hcond (by decide)

end Levos.Memory
