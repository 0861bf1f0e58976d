import Levos.Liballoc.Granted
import Levos.Memory.KernelMemory

namespace Levos.Liballoc

open Levos.Framework Levos.Memory

/-- `heap_install`. -/
def heapInstall (mm : Mm) : State where
  mm := { mm with heapOnline := true }
  lock := 0
  majors := []
  bestBet := none

/-- The heap when `heap_install` returns, in a kernel that `paging_fini` has kept all of. -/
def Installed (s : State) : Prop :=
  ∃ s₀ ls s₁ mm, Loaded s₀ ∧ Run (BootStep noHeap) s₀ ls s₁ ∧ s₁.frames ≠ 0 ∧
    (∀ f < s₁.nframes, s₁.used f = false) ∧ Roomy s₁ ∧ (s₁.plp < 0x701000 ∨ 0x7FA000 ≤ s₁.plp) ∧
    pagingFini s₁ = .ok mm ∧ s = heapInstall mm

/-- What happens on the heap: requests, blocks that are given back, bytes that an owner writes, and
processes that are made. -/
inductive HeapEvent
  | kmalloc (n : Nat)
  | newFree (ptr : Nat)
  | write (a : Nat) (v : BitVec 8)
  | mkProcess (cr3 : BitVec 32) (comm entry : Nat)

inductive HeapStep : Kernel → HeapEvent → Kernel → Prop
  | kmalloc {k : Kernel} {n p : Nat} {s : State} (h : k.heap.kmalloc n = .ok (p, s)) :
      HeapStep k (.kmalloc n) { k with heap := s }
  | newFree {k : Kernel} {ptr : Nat} {s : State} (h : newFree k.heap ptr = .ok s) :
      HeapStep k (.newFree ptr) { k with heap := s }
  | write {k : Kernel} {a : Nat} (v : BitVec 8) (h : k.heap.Owned a) :
      HeapStep k (.write a v) { k with heap := k.heap.setMem (setByte k.heap.mm.mem a v) }
  | mkProcess {k k' : Kernel} {cr3 : BitVec 32} {comm entry p : Nat}
      (h : schedMkProcess k cr3 comm entry = .ok (p, k')) :
      HeapStep k (.mkProcess cr3 comm entry) k'

namespace HeapEvent

/-- The requests to `kmalloc` that are made, each with the heap that it comes to. -/
def requests (k : Kernel) : HeapEvent → List (State × Nat)
  | .kmalloc n => [(k.heap, n)]
  | .newFree _ => []
  | .write _ _ => []
  | .mkProcess cr3 comm entry => processRequests k cr3 comm entry

/-- The heap can meet every request, and it gives no pages back. -/
structure Fitting (k : Kernel) (e : HeapEvent) : Prop where
  fits : ∀ r ∈ e.requests k, Fits r.1 r.2
  keeps : ∀ ptr, e = .newFree ptr → ¬Empties k.heap ptr

/-- Every request that case 4.1 serves finds its bytes zero. -/
def TailClean (k : Kernel) (e : HeapEvent) : Prop := ∀ r ∈ e.requests k, Liballoc.TailClean r.1 r.2

/-- Every request gets zero bytes, and a process has nothing but the console in its file table. -/
structure Cleared (k : Kernel) (e : HeapEvent) : Prop where
  requests : ∀ r ∈ e.requests k, ClearRequest r.1 r.2
  process : ∀ cr3 comm entry p k', e = .mkProcess cr3 comm entry →
    schedMkProcess k cr3 comm entry = .ok (p, k') → p ≠ 0 →
    ∀ i < 128, i ≠ 1 → k'.heap.fileTable p i = 0

end HeapEvent

/-- A step that the heap can meet. -/
def FittingStep (k : Kernel) (e : HeapEvent) (k' : Kernel) : Prop := HeapStep k e k' ∧ e.Fitting k

/-- Behind `paging_fini` all frames below `plp` are in use. -/
theorem Installed.ready {s : State} (h : Installed s) : s.Ready := by
  obtain ⟨s₀, ls, s₁, mm, hl, hrun, hset, hclear, hroom, hcond, hfini, rfl⟩ := h
  have hi := BootInvariant.run hl hrun
  obtain ⟨hlayout, htables⟩ := hi.ready hset
  have hlow := hl.low
  have hle := hi.low
  have hspace := hroom.space
  obtain ⟨s₂, d, t, h, hfini', hf⟩ :=
    pagingFini_finished ⟨hlayout, htables, hclear⟩ ⟨hroom.ample, hi.offline, by omega⟩
  have hm := hf.mapping
  cases hfini.symm.trans hfini'
  have hplp := hm.plp
  have hin := hm.inside
  have hn := hm.vars.nframes
  have hfloor : s₁.floor % 0x1000 = 0 ∧ s₁.floor ≤ s₁.plp ∧ s₁.plp < s₁.floor + 0x1000 := by
    unfold Mm.floor
    omega
  have hbound : s₂.plp ≤ 0x1000 * h := by
    rcases Nat.lt_or_ge s₁.floor 0x7FA000 with hlt | hge
    · obtain ⟨-, rfl, rfl⟩ := hf.low hlt
      omega
    · obtain ⟨-, hbehind⟩ := hf.high hge
      omega
  have hmanaged : Managed (heapInstall { s₂ with currentDirectory := s₂.kernelDir }).mm := by
    have hlay := hm.layout
    refine ⟨⟨hlay.bitmap, hlay.dir, hlay.space, hlay.inside, hlay.aligned, hlay.apart⟩, rfl, ?_, ?_,
      ?_, ?_⟩
    · change s₂.nframes < 2 ^ 20
      omega
    · change 0x100000 ≤ s₂.plp
      omega
    · change s₂.plp ≤ 0x1000 * s₂.nframes
      omega
    · intro f hlt
      have hlt' : 0x1000 * f < s₂.plp := hlt
      change s₂.used f = true
      rw [hf.used hspace f (by omega), decide_eq_true_eq]
      omega
  exact ⟨⟨hmanaged, by simp [heapInstall], by simp [heapInstall], by simp [heapInstall]⟩, rfl⟩

/-- Every step keeps the invariant of liballoc. -/
theorem FittingStep.ready {k k' : Kernel} {e : HeapEvent} (hk : k.heap.Ready)
    (h : FittingStep k e k') : k'.heap.Ready := by
  obtain ⟨h, hfit⟩ := h
  cases h with
  | kmalloc h => exact (hk.kmalloc (hfit.fits _ (List.mem_singleton_self _)) h).1
  | newFree h =>
    refine ⟨(newFree_spec hk.sound (hfit.keeps _ rfl) h).sound, ?_⟩
    rcases newFree_ok h with ⟨-, rfl⟩ | ⟨-, u, -, rfl⟩
    · exact hk.unlocked
    · rfl
  | write v h =>
    apply hk.setMem
    intro z hz
    apply if_neg
    rintro rfl
    exact hz h
  | mkProcess h => exact (schedMkProcess_spec hk hfit.fits h).1

/-- All requests get zero bytes exactly when those that case 4.1 serves find them. A process then
has an empty file table, since `kmalloc` has cleared it. -/
theorem HeapEvent.cleared_iff {k : Kernel} {e : HeapEvent} (hk : k.heap.Ready) (hfit : e.Fitting k) :
    e.Cleared k ↔ e.TailClean k := by
  have hready : ∀ r ∈ e.requests k, r.1.Ready := by
    cases e with
    | kmalloc n =>
      intro r hr
      obtain rfl := List.mem_singleton.mp hr
      exact hk
    | newFree ptr => simp [HeapEvent.requests]
    | write a v => simp [HeapEvent.requests]
    | mkProcess cr3 comm entry => exact processRequests_ready hk hfit.fits
  constructor
  · intro hclear r hr
    exact (clearRequest_iff (hready r hr) (hfit.fits r hr)).mp (hclear.requests r hr)
  · intro htail
    have hall : ∀ r ∈ e.requests k, ClearRequest r.1 r.2 := fun r hr =>
      (clearRequest_iff (hready r hr) (hfit.fits r hr)).mpr (htail r hr)
    refine ⟨hall, ?_⟩
    rintro cr3 comm entry p k' rfl h hp i hi hne
    obtain ⟨-, hspec⟩ := schedMkProcess_spec hk hfit.fits h
    obtain ⟨hzero, s, hs, hkept⟩ := hspec hp
    by_cases hi0 : i = 0
    · rw [hi0]
      exact hzero
    · rw [hkept i (by omega) hi]
      have hfirst : ClearRequest k.heap processSize := by
        apply hall (k.heap, processSize)
        simp only [HeapEvent.requests, processRequests]
        split_ifs with h0
        · rw [schedMkProcess, if_pos h0] at h
          cases h
          exact absurd rfl hp
        · exact List.mem_cons_self
      have hbytes := (hfirst p s hs hp).2
      have hbyte (j : Nat) (hj : j < 4) : s.mm.mem (p + 16 + 4 * i + j) = 0 :=
        hbytes _ (by omega) (by unfold processSize; omega)
      have h0 : s.mm.mem (p + 16 + 4 * i) = 0 := hbyte 0 (by omega)
      rw [State.fileTable, Memory.word, hbyte 1 (by omega), hbyte 2 (by omega), hbyte 3 (by omega), h0]
      rfl

/-- `mm_alloc_pages` comes back with the first free run, if the page tables for it exist. -/
theorem mmAllocPages_first {s : Mm} {f n : Nat} (hm : Managed s) (h1 : 1 ≤ n)
    (hend : f + n ≤ s.nframes) (hfree : ∀ j < n, s.used (f + j) = false)
    (hmin : ∀ g < f, s.used g = true) (htbl : ∀ j < n, s.tbl ((f + j) / 1024) ≠ 0) :
    ∃ s', mmAllocPages s n = .ok (0x1000 * f, s') ∧ s'.present (0x1000 * f) = true := by
  have hlowest (g : Nat) (hg : g < f) : ¬Memory.FreeRun s g n := by
    intro hrun
    have hfirst := hrun.2 0 (by omega)
    rw [Nat.add_zero, hmin g hg] at hfirst
    cases hfirst
  obtain ⟨s', hcall, hdone⟩ :=
    hm.pages_of_run h1 ⟨hend, hfree⟩ hlowest (.inl (tablesMissing_zero htbl))
  exact ⟨s', hcall, (hdone.itself f (Nat.le_refl f) (by omega)).present⟩

section OneChunk

/-- A chunk of 16 pages with `n` blocks of 8 bytes. -/
def chunkAt (n : Nat) : Major where
  addr := 0x800000
  pages := 16
  usage := 24 + 64 * n
  minors := (List.range n).map fun i => ⟨0x800018 + 64 * i, 40, 8⟩

/-- The heap that has this chunk, in the memory `mem`. -/
def chunkHeap (mm : Mm) (mem : Memory) (n : Nat) : State where
  mm := { mm with mem := mem }
  lock := 0
  majors := [chunkAt n]
  bestBet := some 0x800000

/-- The headers of its blocks lie below the last one's pointer. -/
theorem chunkAt_off {n z : Nat} (hz : 0x800018 ≤ z) (hn : 0x800000 + 64 * n ≤ z) : (chunkAt n).Off z := by
  refine ⟨.inr hz, fun m hm => ?_⟩
  obtain ⟨i, hi, rfl⟩ := List.mem_map.mp hm
  have hlt := List.mem_range.mp hi
  right
  change 0x800018 + 64 * i + minorHeader ≤ z
  unfold minorHeader
  omega

variable (mm : Mm) (mem : Memory)

/-- The first block that the search looks at serves the request. -/
theorem findPlace_first {s : State} {M : Major} {size i n : Nat} {b : Bool} {pl : Place}
    (hstart : startAt s size = (i, b, n)) (hM : s.majors[i]? = some M)
    (hroom : M.room size = some pl) : findPlace s size = .ok (some (i, pl), s.better M n) := by
  simp only [findPlace, hstart, search, hM, hroom]

theorem chunkAt_room : (chunkAt 1).room (8 + 32) = some .case4₁ := by decide

theorem chunkHeap_find : findPlace (chunkHeap mm mem 1).locked (8 + 32) =
    .ok (some (0, .case4₁), (chunkHeap mm mem 1).locked) := by
  have hstart : startAt (chunkHeap mm mem 1).locked (8 + 32) = (0, true, 65448) := by
    simp only [startAt, chunkHeap, State.locked]
    decide
  have hbest : (chunkHeap mm mem 1).locked.better (chunkAt 1) 65448 = (chunkHeap mm mem 1).locked :=
    if_neg (by decide)
  rw [findPlace_first hstart rfl chunkAt_room, hbest]

theorem chunkHeap_tail : TailServes (chunkHeap mm mem 1).locked 8 0x800080 :=
  ⟨0, chunkAt 1, _, chunkHeap_find mm mem, rfl, by decide⟩

/-- With one block in the chunk the next request is one for case 4.1. -/
theorem chunkHeap_second : newMalloc (chunkHeap mm mem 1) 8 =
    .ok (0x800080, chunkHeap mm (occupyMem mem (chunkAt 1) .case4₁ 40 8) 2) := by
  have hptr : ((chunkAt 1).newMinor .case4₁ (8 + 32) 8).ptr = 0x800080 := by decide
  have hnext : (chunkAt 1).occupied .case4₁ (8 + 32) 8 = chunkAt 2 := by decide
  have hoccupy : occupy (chunkHeap mm mem 1).locked 0 (chunkAt 1) .case4₁ (8 + 32) 8 =
      .ok (0x800080, (chunkHeap mm (occupyMem mem (chunkAt 1) .case4₁ 40 8) 2).locked) := by
    rw [occupy, if_pos rfl, hptr, hnext]
    rfl
  have hlocked : mallocLocked (chunkHeap mm mem 1).locked (8 + 32) 8 = _ :=
    mallocLocked_of_place rfl (List.cons_ne_nil _ _) (chunkHeap_find mm mem) rfl hoccupy
  exact newMalloc_of_locked rfl (by decide) hlocked

/-- It finds what is stored behind the first block. -/
theorem chunkHeap_clean (hmem : ∀ z, 0x800080 ≤ z → mem z = 0) : TailClean (chunkHeap mm mem 1) 8 := by
  rintro p ⟨i, M, t, hfind, hM, rfl⟩ z hz -
  cases (chunkHeap_find mm mem).symm.trans hfind
  obtain rfl : chunkAt 1 = M := Option.some.inj hM
  have hptr : ((chunkAt 1).newMinor .case4₁ (8 + 32) 8).ptr = 0x800080 := by decide
  rw [hptr] at hz
  exact hmem z hz

/-- The first request makes the chunk, and writes nothing behind its block. -/
theorem chunkHeap_first {mm' : Mm} (h : mmAllocPages mm 16 = .ok (0x800000, mm'))
    (hthere : mm'.present 0x800000 = true) : ∃ m,
    newMalloc ⟨mm, 0, [], none⟩ 8 = .ok (0x800040, chunkHeap mm' m 1) ∧
      ∀ z, 0x800048 ≤ z → m z = mm'.mem z := by
  have hpages : pagesFor (8 + 32) = 16 := by decide
  let m₁ := setWords mm'.mem 0x800000 [0, 0, 16, (chunkAt 0).size, 24, 0]
  let s₁ : State := ⟨{ mm' with mem := m₁ }, 1, [chunkAt 0], none⟩
  have hroot : ensureRoot (State.locked ⟨mm, 0, [], none⟩) (8 + 32) = .ok s₁ := by
    simp only [ensureRoot, State.locked, List.isEmpty_nil, if_true, allocateNewPage, hpages, h,
      ok_bind, hthere]
    rfl
  have hstart : startAt s₁ (8 + 32) = (0, false, 0) := rfl
  have hbest : s₁.better (chunkAt 0) 0 = (chunkHeap mm' m₁ 0).locked := if_pos (by decide)
  have hfind : findPlace s₁ (8 + 32) = .ok (some (0, .case2), (chunkHeap mm' m₁ 0).locked) := by
    have hroom : (chunkAt 0).room (8 + 32) = some .case2 := by decide
    rw [findPlace_first hstart rfl hroom, hbest]
  have hptr : ((chunkAt 0).newMinor .case2 (8 + 32) 8).ptr = 0x800040 := by decide
  have hnext : (chunkAt 0).occupied .case2 (8 + 32) 8 = chunkAt 1 := by decide
  let m₂ := (occupyMem m₁ (chunkAt 0) .case2 40 8).fill 0x800040 0 8
  have hoccupy : occupy (chunkHeap mm' m₁ 0).locked 0 (chunkAt 0) .case2 (8 + 32) 8 =
      .ok (0x800040, (chunkHeap mm' m₂ 1).locked) := by
    rw [occupy, if_neg (by decide), hptr, if_neg (by decide), hnext]
    rfl
  have hlocked : mallocLocked (State.locked ⟨mm, 0, [], none⟩) (8 + 32) 8 = _ :=
    mallocLocked_of_place hroot (List.cons_ne_nil _ _) hfind rfl hoccupy
  refine ⟨m₂, newMalloc_of_locked rfl (by decide) hlocked, fun z hz => ?_⟩
  have hoff : (chunkAt 0).Off z := chunkAt_off (by omega) (by omega)
  calc m₂ z = occupyMem m₁ (chunkAt 0) .case2 40 8 z := Memory.fill_apply (.inr hz)
    _ = m₁ z := occupyMem_apply (by decide) rfl hoff (.inr (by rw [hptr]; omega))
    _ = mm'.mem z := setWords_apply (.inr (by simp; omega))

/-- The second of two blocks is given back. -/
theorem chunkHeap_free {mem : Memory} (halign : mem 0x800070 = 16)
    (hmagic : mem.word 0x800064 = liballocMagic) : newFree (chunkHeap mm mem 2) 0x800080 =
      .ok (chunkHeap mm (vacateMem mem (chunkAt 2) 1 0x800058) 1) := by
  have hptr : unalign mem 0x800080 = 0x800070 := by
    have hinfo : sub32 0x800080 16 = 0x800070 := by decide
    simp only [unalign, hinfo, halign]
    decide
  have hmin : sub32 0x800070 minorHeader = 0x800058 := by decide
  have hfind : findMinor (chunkHeap mm mem 2).locked 0x800058 = some (0, 1) := by
    simp only [findMinor, chunkHeap, State.locked]
    decide
  have hbet (mm : Mm) :
      betterBet ⟨mm, 1, [chunkAt 1], some 0x800000⟩ (chunkAt 1) = some 0x800000 := by
    simp only [betterBet]
    decide
  have hfree : freeLocked (chunkHeap mm mem 2).locked 0x800058 =
      .ok (chunkHeap mm (vacateMem mem (chunkAt 2) 1 0x800058) 1).locked := by
    have hlive : ¬(chunkHeap mm mem 2).locked.mm.mem.word (0x800058 + 12) ≠ liballocMagic :=
      not_not.mpr hmagic
    have hM : (chunkHeap mm mem 2).locked.majors[0]? = some (chunkAt 2) := rfl
    have hvacated : (chunkAt 2).vacated 1 = chunkAt 1 := by decide
    rw [freeLocked, if_neg hlive, hfind]
    simp only [hM, hvacated]
    rw [if_neg (by decide)]
    exact congrArg (fun b => Except.ok (State.mk _ 1 [chunkAt 1] b)) (hbet _)
  have hlock : liballocLock (chunkHeap mm mem 2) = .ok (chunkHeap mm mem 2).locked := rfl
  have hdef : newFree (chunkHeap mm mem 2) 0x800080 = (do
      let s ← liballocLock (chunkHeap mm mem 2)
      let s ← freeLocked s (sub32 (unalign mem 0x800080) minorHeader)
      liballocUnlock s) := if_neg (by decide)
  rw [hdef, hptr, hmin, hlock, ok_bind, hfree]
  rfl

/-- The memory when the second block was placed and byte `a` was written. -/
def tailWritten (a : Nat) : Memory := setByte (occupyMem mem (chunkAt 1) .case4₁ 40 8) a 0xFF

/-- The first byte of the first or of the second block. -/
def blockByte (second : Bool) : Nat := if second then 0x800080 else 0x800040

theorem blockByte_eq (second : Bool) : blockByte second = 0x800040 ∨ blockByte second = 0x800080 := by
  cases second
  · exact .inl rfl
  · exact .inr rfl

/-- The header of the second block, and the byte that `new_free` reads. -/
theorem tailWritten_header (second : Bool) : tailWritten mem (blockByte second) 0x800070 = 16 ∧
    (tailWritten mem (blockByte second)).word 0x800064 = liballocMagic := by
  let x : Minor := ⟨0x800058, 40, 8⟩
  let heads := linkMinor mem 0x800000 152 (some ⟨0x800018, 40, 8⟩) none x
  have hoccupy : occupyMem mem (chunkAt 1) .case4₁ 40 8 = setByte heads 0x800070 16 := by
    have h1 : (chunkAt 1).newMinor .case4₁ 40 8 = x := by decide
    have h2 : ((chunkAt 1).occupied .case4₁ 40 8).usage = 152 := by decide
    have h3 : ((chunkAt 1).pre .case4₁).getLast? = some ⟨0x800018, 40, 8⟩ := by decide
    have h4 : ((chunkAt 1).post .case4₁).head? = none := by decide
    have h5 : align (wrap (x.addr + minorHeader)) = (0x800080, 16) := by decide
    have h6 : sub32 0x800080 16 = 0x800070 := by decide
    simp only [occupyMem, h1, h2, h3, h4, h5, h6]
    rfl
  have hword : heads.word 0x800064 = liballocMagic := by
    simp only [heads, linkMinor, setWords]
    rw [Memory.word_setWord_ne (by decide), Memory.word_setWord_ne (by decide),
      Memory.word_setWord_ne (by decide), Memory.word_setWord]
    decide
  have hbyte := blockByte_eq second
  have hagree : Memory.Agree 0x800064 0x800068 heads
      (setByte (setByte heads 0x800070 16) (blockByte second) 0xFF) := by
    intro z h1 h2
    exact (if_neg (by omega)).trans (if_neg (by omega))
  rw [tailWritten, hoccupy]
  refine ⟨(if_neg (by omega)).trans (if_pos rfl), ?_⟩
  rw [← hword]
  exact hagree.word (le_refl _) (le_refl _)

/-- What follows the second block's pointer is as it was, but for the byte that is written. -/
theorem tailWritten_apply {a z : Nat} (hz : 0x800080 ≤ z) (hne : z ≠ a) : tailWritten mem a z = mem z := by
  have hptr : ((chunkAt 1).newMinor .case4₁ (8 + 32) 8).ptr = 0x800080 := by decide
  have hoff : (chunkAt 1).Off z := chunkAt_off (by omega) (by omega)
  exact (if_neg hne).trans (occupyMem_apply (by decide) rfl hoff (.inr (by rw [hptr]; omega)))

/-- The memory when the second block was given back again. -/
def tailFreed (a : Nat) : Memory := vacateMem (tailWritten mem a) (chunkAt 2) 1 0x800058

theorem tailFreed_apply {a z : Nat} (hz : 0x800080 ≤ z) : tailFreed mem a z = tailWritten mem a z :=
  vacateMem_apply (m := ⟨0x800058, 40, 8⟩) (by decide) (chunkAt_off (by omega) (by omega))

theorem chunkHeap_fitting (n c : Nat) :
    (HeapEvent.kmalloc 8).Fitting ⟨chunkHeap mm mem 1, n, c⟩ := by
  refine ⟨?_, by simp⟩
  intro r hr
  obtain rfl := List.mem_singleton.mp hr
  have hfull : ¬(chunkHeap mm mem 1).Full (8 + 32) := by
    intro h
    have := h (chunkAt 1) (List.mem_singleton_self _)
    rw [chunkAt_room] at this
    cases this
  have hfits : Fits (chunkHeap mm mem 1) 8 := ⟨by decide, fun h => absurd h hfull⟩
  exact hfits

theorem chunkHeap_owned (second : Bool) : (chunkHeap mm mem 2).Owned (blockByte second) := by
  cases second
  · refine ⟨chunkAt 2, List.mem_singleton_self _, ⟨0x800018, 40, 8⟩, by decide, ?_⟩
    unfold Minor.Holds
    decide
  · refine ⟨chunkAt 2, List.mem_singleton_self _, ⟨0x800058, 40, 8⟩, by decide, ?_⟩
    unfold Minor.Holds
    decide

/-- With two blocks in it the chunk is kept. -/
theorem chunkHeap_keeps (ptr : Nat) : ¬Empties (chunkHeap mm mem 2) ptr := by
  rintro ⟨-, -, M, hM, m, hone, -⟩
  obtain rfl := List.mem_singleton.mp hM
  have hlen : (chunkAt 2).minors.length = 1 := by
    rw [hone]
    rfl
  exact absurd hlen (by decide)

/-- A second block is requested, a byte of one of the two is written, and the second one is given back. -/
theorem chunkHeap_steps (k : Kernel) (hready : (chunkHeap mm mem 1).Ready) (second : Bool) :
    FittingStep { k with heap := chunkHeap mm mem 1 } (.kmalloc 8)
      { k with heap := chunkHeap mm (occupyMem mem (chunkAt 1) .case4₁ 40 8) 2 } ∧
    FittingStep { k with heap := chunkHeap mm (occupyMem mem (chunkAt 1) .case4₁ 40 8) 2 }
      (.write (blockByte second) 0xFF)
      { k with heap := chunkHeap mm (tailWritten mem (blockByte second)) 2 } ∧
    FittingStep { k with heap := chunkHeap mm (tailWritten mem (blockByte second)) 2 } (.newFree 0x800080)
      { k with heap := chunkHeap mm (tailFreed mem (blockByte second)) 1 } := by
  obtain ⟨halign, hmagic⟩ := tailWritten_header mem second
  refine ⟨⟨.kmalloc ((hready.kmalloc_eq 8).trans (chunkHeap_second mm mem)),
    chunkHeap_fitting mm mem _ _⟩, ⟨.write 0xFF (chunkHeap_owned mm _ second), ?_, ?_⟩,
    .newFree (chunkHeap_free mm halign hmagic), ?_, fun ptr _ => chunkHeap_keeps mm _ ptr⟩
  · simp [HeapEvent.requests]
  · simp
  · simp [HeapEvent.requests]

end OneChunk

/-- A kernel of less than 1 MiB installs its heap, and there is memory behind it, all of it zeros. -/
theorem imageTo_installs : ∃ mm mm', Installed (heapInstall mm) ∧
    FreeRun (heapInstall mm).mm 16 ∧ mmAllocPages (heapInstall mm).mm 16 = .ok (0x800000, mm') ∧
    mm'.present 0x800000 = true ∧ ∀ z, 0x800000 ≤ z → mm'.mem z = 0 := by
  have hboot := imageTo_boots (p := 0x180000) (by decide) (by decide)
  obtain ⟨bs, s, hrun, hu, hn, hf, hoff, hplp, hzero⟩ := hboot
  have hplp' : s.plp = 0x185004 := hplp.trans (by decide)
  have hroom : Roomy s := by
    constructor <;> rw [hn]
    · rw [hplp']
      decide
    · decide
    · decide
  obtain ⟨s₁, d, t, h, hfini, hf₁⟩ :=
    pagingFini_finished hu ⟨hroom.ample, hoff, by rw [hplp']; decide⟩
  have hm := hf₁.mapping
  obtain ⟨-, rfl, rfl⟩ := hf₁.low (by unfold Mm.floor; omega)
  let mm : Mm := { s₁ with currentDirectory := s₁.kernelDir }
  have hinst : Installed (heapInstall mm) :=
    ⟨_, _, s, _, imageTo_loaded (by decide), hrun, by rw [hf]; decide, hu.clear, hroom,
      .inl (by omega), hfini, rfl⟩
  have hn₁ : (heapInstall mm).mm.nframes = 0x8000 := hm.vars.nframes.trans hn
  have hused (g : Nat) (hg : g < 0x8000) : (heapInstall mm).mm.used g = decide (g < 0x800) :=
    hf₁.used hroom.space g (by omega)
  have hfree (j : Nat) (hj : j < 16) : (heapInstall mm).mm.used (0x800 + j) = false := by
    rw [hused _ (by omega), decide_eq_false_iff_not]
    omega
  have hend : 0x800 + 16 ≤ (heapInstall mm).mm.nframes := by omega
  obtain ⟨mm', halloc, hthere⟩ := mmAllocPages_first hinst.ready.sound.managed (by decide) hend hfree
    (fun g hg => by rw [hused g (by omega), decide_eq_true hg])
    (fun j hj => (hm.tables _ (by omega)).mpr (by omega))
  have hrun₁ : FreeRun (heapInstall mm).mm 16 := ⟨0x800, hend, hfree⟩
  refine ⟨mm, mm', hinst, hrun₁, halloc, hthere, fun z hz => ?_⟩
  obtain ⟨-, -, -, -, -, -, -, -, hbehind, -⟩ :=
    hinst.ready.sound.managed.mmAllocPages (by decide) hrun₁ halloc
  have hplp₁ : s₁.plp ≤ z := by
    have hp := hm.plp
    unfold Mm.floor at hp
    omega
  rw [hbehind z hplp₁]
  exact (hm.behind z hplp₁).trans (hzero z)

theorem installed_first : ∃ k₀ mm mem, Installed k₀.heap ∧ k₀.heap.majors = [] ∧
    FittingStep k₀ (.kmalloc 8) { k₀ with heap := chunkHeap mm mem 1 } ∧ ∀ z, 0x800080 ≤ z → mem z = 0 := by
  obtain ⟨mm, mm', hinst, hfree, halloc, hthere, hzero⟩ := imageTo_installs
  obtain ⟨m, hmalloc, hbehind⟩ := chunkHeap_first _ halloc hthere
  have hstep : HeapStep ⟨heapInstall mm, 0, 0⟩ (.kmalloc 8) ⟨chunkHeap mm' m 1, 0, 0⟩ :=
    .kmalloc ((hinst.ready.kmalloc_eq 8).trans hmalloc)
  refine ⟨_, mm', m, hinst, rfl, ⟨hstep, ?_, by simp⟩, fun z hz => ?_⟩
  swap
  · rw [hbehind z (by omega), hzero z (by omega)]
  intro r hr
  obtain rfl := List.mem_singleton.mp hr
  have hpages : pagesFor (8 + 32) = 16 := by decide
  have hfits : Fits (heapInstall mm) 8 := ⟨by decide, fun _ => by rw [hpages]; exact hfree⟩
  exact hfits

/-- Over every run from `heap_install` on, of requests that the heap can meet: the blocks of all
requests are zero, and the processes have nothing but the console in their file tables, exactly when
every request that case 4.1 serves finds zero bytes behind the last minor. -/
theorem heapRun_cleared_iff {k₀ k : Kernel} {es : List HeapEvent} (h₀ : Installed k₀.heap) :
    Run (fun k e k' => FittingStep k e k' ∧ e.Cleared k) k₀ es k ↔
      Run (fun k e k' => FittingStep k e k' ∧ e.TailClean k) k₀ es k := by
  have hready := h₀.ready
  clear h₀
  constructor
  · intro hrun
    induction hrun with
    | nil k => exact .nil k
    | cons hstep _ ih =>
      exact .cons ⟨hstep.1, (HeapEvent.cleared_iff hready hstep.1.2).mp hstep.2⟩
        (ih (hstep.1.ready hready))
  · intro hrun
    induction hrun with
    | nil k => exact .nil k
    | cons hstep _ ih =>
      exact .cons ⟨hstep.1, (HeapEvent.cleared_iff hready hstep.1.2).mpr hstep.2⟩
        (ih (hstep.1.ready hready))

/-- Two blocks, a byte that is written to the first one, and the second one given back and requested
again: all three are clear, the last two from case 4.1. -/
theorem heapRun_cleared_again : ∃ k₀ k, Installed k₀.heap ∧
    Run (fun k e k' => FittingStep k e k' ∧ e.Cleared k) k₀
      [.kmalloc 8, .kmalloc 8, .write 0x800040 0xFF, .newFree 0x800080, .kmalloc 8] k := by
  obtain ⟨k₀, mm, mem, hinst, hnil, hfirst, hzero⟩ := installed_first
  have hready₁ : (chunkHeap mm mem 1).Ready := hfirst.ready hinst.ready
  obtain ⟨hsecond, hwrite, hfree⟩ := chunkHeap_steps mm mem k₀ hready₁ false
  have hready₄ := hfree.ready (hwrite.ready (hsecond.ready hready₁))
  obtain ⟨hagain, -, -⟩ := chunkHeap_steps mm _ k₀ hready₄ false
  have hclean₁ : (HeapEvent.kmalloc 8).TailClean k₀ := by
    intro r hr
    obtain rfl := List.mem_singleton.mp hr
    rintro p ⟨i, M, t, -, hM, -⟩
    have hM' : k₀.heap.majors[i]? = some M := hM
    simp [hnil] at hM'
  have hclean {n c : Nat} {mem : Memory} (hmem : ∀ z, 0x800080 ≤ z → mem z = 0) :
      (HeapEvent.kmalloc 8).TailClean ⟨chunkHeap mm mem 1, n, c⟩ := by
    intro r hr
    obtain rfl := List.mem_singleton.mp hr
    exact chunkHeap_clean mm mem hmem
  have hnone {k : Kernel} (e : HeapEvent) (he : e.requests k = []) : e.TailClean k := by
    simp [HeapEvent.TailClean, he]
  have hfreed (z : Nat) (hz : 0x800080 ≤ z) : tailFreed mem (blockByte false) z = 0 := by
    have hne : z ≠ blockByte false := by
      change z ≠ 0x800040
      omega
    rw [tailFreed_apply mem hz, tailWritten_apply mem hz hne, hzero z hz]
  have hrun : Run (fun k e k' => FittingStep k e k' ∧ e.TailClean k) k₀
      [.kmalloc 8, .kmalloc 8, .write (blockByte false) 0xFF, .newFree 0x800080, .kmalloc 8] _ :=
    .cons ⟨hfirst, hclean₁⟩ (.cons ⟨hsecond, hclean hzero⟩ (.cons ⟨hwrite, hnone _ rfl⟩
      (.cons ⟨hfree, hnone _ rfl⟩ (.single ⟨hagain, hclean hfreed⟩))))
  exact ⟨k₀, _, hinst, (heapRun_cleared_iff hinst).mpr hrun⟩

/-- A block that was written and given back comes out of case 4.1 as it is. -/
theorem heapRun_dirty : ∃ k₀ k, Installed k₀.heap ∧
    Run FittingStep k₀ [.kmalloc 8, .kmalloc 8, .write 0x800080 0xFF, .newFree 0x800080] k ∧
    ¬(HeapEvent.kmalloc 8).Cleared k := by
  obtain ⟨k₀, mm, mem, hinst, -, hfirst, -⟩ := installed_first
  have hready₁ : (chunkHeap mm mem 1).Ready := hfirst.ready hinst.ready
  obtain ⟨hsecond, hwrite, hfree⟩ := chunkHeap_steps mm mem k₀ hready₁ true
  refine ⟨k₀, _, hinst, .cons hfirst (.cons hsecond (.cons hwrite (.single hfree))), ?_⟩
  have hready₄ := hfree.ready (hwrite.ready (hsecond.ready hready₁))
  intro hclear
  have htail := (HeapEvent.cleared_iff hready₄ (chunkHeap_fitting _ _ _ _)).mp hclear
  have hclean := htail _ (List.mem_singleton_self _) 0x800080 (chunkHeap_tail _ _) 0x800080
  have hzero : tailFreed mem 0x800080 0x800080 = 0 :=
    hclean (le_refl _) (Nat.lt_add_of_pos_right (by decide : 0 < 8))
  have hkept := tailFreed_apply mem (a := 0x800080) (Nat.le_refl 0x800080)
  have hbyte : tailWritten mem 0x800080 0x800080 = 0xFF := by simp [tailWritten, setByte]
  have : (0xFF : BitVec 8) = 0 := hbyte.symm.trans (hkept.symm.trans hzero)
  exact absurd this (by decide)

end Levos.Liballoc
