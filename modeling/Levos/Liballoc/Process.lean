import Levos.Framework.Errno
import Levos.Liballoc.Lock
import Levos.Liballoc.Placement
import Levos.Memory.AddressSpace

namespace Levos.Liballoc

open Levos.Framework Levos.Memory

/-- `kmalloc`: liballoc, once it is online. -/
def State.kmalloc (s : State) (size : Nat) : Except Fault (Nat × State) :=
  if s.mm.heapOnline then newMalloc s size
  else do
    let (addr, _, mm) ← placeBlock s.mm size false
    return (addr, { s with mm := mm })

/-- The memory that the heap lies in was written. -/
def State.setMem (s : State) (mem : Memory) : State := { s with mm := { s.mm with mem := mem } }

/-- `sizeof(struct process)` and `sizeof(struct thread)`; the registers of a thread are its last 52
bytes. -/
def processSize : Nat := 532
def threadSize : Nat := 68
def threadRegs : Nat := 16

/-- What `sched_mk_process` finds in the kernel besides the heap: `global_pid`, and the address of
`console_file`. -/
structure Kernel where
  heap : State
  globalPid : Nat
  consoleFile : Nat

/-- The fields of the process at `p` and of its thread at `t`. The pointers that are stored here
are not read back from memory. -/
def initThread (s : State) (p t threads comm pid : Nat) : State :=
  -- `comm`, `pid`, `no_threads` and `threads`
  let mem := setWords s.mm.mem p [comm, pid, 1, threads]
  let mem := mem.setWord threads (BitVec.ofNat 32 t)
  -- `state`, `time_used` and `owner`
  s.setMem (setWords mem (t + 4) [0, 0, p])

/-- `arch_sched_mk_initial_regs`, with what `cr3` holds. -/
def archSchedMkInitialRegs (s : State) (r : Nat) (cr3 : BitVec 32) : State :=
  let mem := s.mm.mem.fill r 0 52
  let mem := mem.setWord (r + 44) 0x8#32
  let mem := mem.setWord (r + 48) 0x202#32
  s.setMem (mem.setWord (r + 4) cr3)

/-- `copy_page_dir`: a pointer to the copy, 0 if there is no memory. -/
def State.copyPageDir (s : State) (src : Nat) : Except Fault (Nat × State) := do
  let (dst, s) ← s.kmalloc pageDirSize
  if dst = 0 then return (0, s)
  return (dst, s.setMem (copyBlock s.mm.mem dst src pageDirSize))

/-- `arch_sched_make_address_space`: the last field of the process is its `page_dir`. -/
def State.archSchedMakeAddressSpace (s : State) (p : Nat) : Except Fault (Int × State) := do
  let (ndir, s) ← s.copyPageDir s.mm.kernelDir
  if ndir = 0 then return (-ENOMEM, s)
  return (0, s.setMem (s.mm.mem.setWord (p + 528) (BitVec.ofNat 32 ndir)))

/-- `sched_create_stack`: one page, with `esp` and `ebp` behind its end. -/
def schedCreateStack (s : State) (t : Nat) : Except Fault (Int × State) :=
  if t = 0 then .ok (-EINVAL, s)
  else do
    let (page, mm) ← mmAllocPages s.mm 1
    let s : State := { s with mm := mm }
    if page = 0 then return (-ENOMEM, s)
    -- the page is cleared, also the last one of the address space, which is there by accident only
    else if mm.present page then
      let top := BitVec.ofNat 32 (page + 4096)
      let mem := s.mm.mem.fill page 0 4096
      let mem := mem.setWord (t + threadRegs + 20) top
      return (0, s.setMem (mem.setWord (t + threadRegs + 16) top))
    else .error pageFault

/-- `sched_make_filetable`: `stdin` is nothing, `stdout` is the console. -/
def schedMakeFiletable (s : State) (p consoleFile : Nat) : State :=
  let mem := s.mm.mem.setWord (p + 16) 0
  s.setMem (mem.setWord (p + 20) (BitVec.ofNat 32 consoleFile))

/-- `INS_PTR` of a thread is set. -/
def setInsPtr (s : State) (t entry : Nat) : State :=
  s.setMem (s.mm.mem.setWord (t + threadRegs + 40) (BitVec.ofNat 32 entry))

/-- `sched_mk_process`: a pointer to the process, 0 if there is none. -/
def schedMkProcess (k : Kernel) (cr3 : BitVec 32) (comm entry : Nat) :
    Except Fault (Nat × Kernel) :=
  if comm = 0 ∨ entry = 0 then .ok (0, k)
  else do
    let (p, s) ← k.heap.kmalloc processSize
    if p = 0 then return (0, { k with heap := s })
    let (t, s) ← s.kmalloc threadSize
    if t = 0 then return (0, { k with heap := s })
    let (threads, s) ← s.kmalloc 4
    if threads = 0 then return (0, { k with heap := s })
    let s := initThread s p t threads comm k.globalPid
    let s := archSchedMkInitialRegs s (t + threadRegs) cr3
    -- the result of this one is not looked at
    let (_, s) ← s.archSchedMakeAddressSpace p
    let (r, s) ← schedCreateStack (setInsPtr s t entry) t
    if r ≠ 0 then
      let s ← newFree s p
      return (0, { k with heap := s, globalPid := k.globalPid + 1 })
    let s := schedMakeFiletable s p k.consoleFile
    return (p, { k with heap := s, globalPid := k.globalPid + 1 })

/-- `file_table[i]` of the process at `p`. -/
def State.fileTable (s : State) (p i : Nat) : BitVec 32 := s.mm.mem.word (p + 16 + 4 * i)

/-- The requests that a computation makes which begins with `kmalloc(size)` in `s`, each with the
heap that it comes to. -/
def State.asking (s : State) (size : Nat) (next : Nat → State → List (State × Nat)) :
    List (State × Nat) :=
  (s, size) :: match s.kmalloc size with
    | .error _ => []
    | .ok (p, s) => if p = 0 then [] else next p s

/-- The requests of `sched_mk_process`. -/
def processRequests (k : Kernel) (cr3 : BitVec 32) (comm entry : Nat) : List (State × Nat) :=
  if comm = 0 ∨ entry = 0 then []
  else
    k.heap.asking processSize fun p s => s.asking threadSize fun t s => s.asking 4 fun threads s =>
      [(archSchedMkInitialRegs (initThread s p t threads comm k.globalPid) (t + threadRegs) cr3,
        pageDirSize)]

/-- The heap between two calls. -/
structure State.Ready (s : State) : Prop where
  sound : s.Sound
  unlocked : s.lock = 0

/-- `new_malloc` as the memory manager sees it. -/
def State.newMallocMm (s : State) (size : Nat) (mm : Mm) : Except Fault (Nat × Mm) :=
  (newMalloc { s with mm := mm } size).map fun r => (r.1, r.2.mm)

/-- `kmalloc` on liballoc, as far as the memory manager goes. -/
theorem kmalloc_mm (s : State) (size : Nat) :
    Memory.kmalloc s.newMallocMm s.mm size false = (s.kmalloc size).map fun r =>
        (r.1, if s.mm.heapOnline then virtualToPhysical r.2.mm r.1 else r.1, r.2.mm) := by
  unfold Memory.kmalloc State.kmalloc State.newMallocMm
  by_cases hon : s.mm.heapOnline = true
  · simp only [hon, if_true, Bool.false_eq_true, if_false]
    cases newMalloc s size <;> rfl
  · simp only [hon, Bool.false_eq_true, if_false]
    cases hp : placeBlock s.mm size false with
    | error e => rfl
    | ok r =>
      obtain ⟨addr, phys, mm⟩ := r
      obtain ⟨rfl, rfl, -, -⟩ := placeBlock_ok hp
      rfl

/-- A copy of a directory is the one that the memory manager makes. -/
theorem copyPageDir_mm (s : State) (src : Nat) :
    Memory.copyPageDir s.newMallocMm s.mm src = (s.copyPageDir src).map fun r => (r.1, r.2.mm) := by
  unfold Memory.copyPageDir State.copyPageDir
  rw [kmalloc_mm]
  cases s.kmalloc pageDirSize with
  | error e => rfl
  | ok r =>
    obtain ⟨dst, t⟩ := r
    simp only [Except.map, ok_bind]
    split_ifs <;> rfl

/-- The bytes that `kmalloc(n)` returns are zero, if it returns any. -/
def ClearRequest (s : State) (n : Nat) : Prop :=
  ∀ p t, s.kmalloc n = .ok (p, t) → p ≠ 0 →
    p + n ≤ 2 ^ 32 ∧ ∀ z, p ≤ z → z < p + n → t.mm.mem z = 0

/-- If case 4.1 serves the request, the bytes that it takes are zero already. -/
def TailClean (s : State) (n : Nat) : Prop :=
  ∀ p, TailServes s.locked n p → ∀ z, p ≤ z → z < p + n → s.mm.mem z = 0

namespace State.Ready

variable {s t : State} {n p : Nat}

theorem kmalloc_eq (hs : s.Ready) (n : Nat) : s.kmalloc n = newMalloc s n :=
  if_pos hs.sound.managed.online

theorem kmalloc (hs : s.Ready) (hfit : Fits s n) (h : s.kmalloc n = .ok (p, t)) :
    t.Ready ∧ Serves s t p n := by
  rw [hs.kmalloc_eq] at h
  obtain ⟨hserves, -, -⟩ := newMalloc_spec hs.sound hfit h
  obtain ⟨u, -, rfl⟩ := newMalloc_ok hfit.size h
  exact ⟨⟨hserves.sound, rfl⟩, hserves⟩

/-- Owners write where they like. -/
theorem setMem {mem : Memory} (hs : s.Ready) (h : ∀ z, ¬s.Owned z → mem z = s.mm.mem z) :
    (s.setMem mem).Ready := by
  refine ⟨hs.sound.write ?_, hs.unlocked⟩
  intro z _ hz
  apply h
  intro howned
  have := hs.sound.owned_behind howned
  omega

end State.Ready

/-- `new_malloc` along a search that comes to a place. -/
theorem mallocLocked_of_place {s s₁ s₂ t : State} {M : Major} {pl : Place} {i n p : Nat}
    (hroot : ensureRoot s (n + 32) = .ok s₁) (hne : s₁.majors ≠ [])
    (hfind : findPlace s₁ (n + 32) = .ok (some (i, pl), s₂)) (hM : s₂.majors[i]? = some M)
    (h : occupy s₂ i M pl (n + 32) n = .ok (p, t)) : mallocLocked s (n + 32) n = .ok (p, t) := by
  simp only [mallocLocked, hroot, hfind, ok_bind, hM]
  rw [if_neg (by simpa using hne)]
  exact h

theorem newMalloc_of_locked {s t : State} {n p : Nat} (hs : s.lock = 0) (hsize : n + 32 < 2 ^ 32)
    (h : mallocLocked s.locked (n + 32) n = .ok (p, t)) :
    newMalloc s n = .ok (p, { t with lock := 0 }) := by
  have hlock := mallocLocked_lock s.locked (n + 32) n
  rw [h] at hlock
  have hlock' : t.lock = 1 := hlock
  have h1 : liballocLock s = .ok s.locked := if_neg (by simp [hs])
  have h2 : liballocUnlock t = .ok { t with lock := 0 } := if_neg (by simp [hlock'])
  have hwrap : wrap (n + 32) = n + 32 := wrap_of_lt hsize
  simp only [newMalloc, hwrap, h1, ok_bind]
  rw [if_neg (by omega), h, ok_bind, h2]
  rfl

/-- Where case 4.1 serves a request, `new_malloc` comes to its end. -/
theorem newMalloc_tail {s : State} {n p : Nat} (hs : s.Ready) (hfit : Fits s n)
    (ht : TailServes s.locked n p) : ∃ t, newMalloc s n = .ok (p, t) := by
  have hsize := hfit.size
  have hlocked : s.locked.Sound := hs.sound.of_eq rfl rfl
  obtain ⟨i, M, u, hfind, hM, rfl⟩ := ht
  have hne : s.locked.majors ≠ [] := List.ne_nil_of_mem (List.mem_of_getElem? hM)
  obtain ⟨j, L, pl, heq, hplaced⟩ := findPlace_spec hlocked
    (by unfold majorHeader minorHeader; omega) hne hfit.memory hfind
  simp only [Option.some.injEq, Prod.mk.injEq] at heq
  obtain ⟨rfl, rfl⟩ := heq
  have hblock : u.majors[i]? = some M := by rw [(hplaced.tail rfl).2, hM]
  have hroot : ensureRoot s.locked (n + 32) = .ok s.locked := by simp [ensureRoot, hne]
  obtain ⟨t, hoccupy⟩ : ∃ t, occupy u i M .case4₁ (n + 32) n =
      .ok ((M.newMinor .case4₁ (n + 32) n).ptr, t) := by simp [occupy]
  have hmalloc := mallocLocked_of_place hroot hne hfind hblock hoccupy
  exact ⟨_, newMalloc_of_locked hs.unlocked (by omega) hmalloc⟩

/-- `kmalloc` returns zero bytes, but for what case 4.1 finds behind the last minor. -/
theorem clearRequest_iff {s : State} {n : Nat} (hs : s.Ready) (hfit : Fits s n) :
    ClearRequest s n ↔ TailClean s n := by
  unfold ClearRequest
  simp only [hs.kmalloc_eq]
  constructor
  · intro hclear p ht z h1 h2
    obtain ⟨t, h⟩ := newMalloc_tail hs hfit ht
    obtain ⟨hserves, hkept, -⟩ := newMalloc_spec hs.sound hfit h
    have hpos := hserves.positive
    rw [← hkept ht z h1 h2]
    exact (hclear p t h (by omega)).2 z h1 h2
  · intro htail p t h _
    obtain ⟨hserves, hkept, hzero⟩ := newMalloc_spec hs.sound hfit h
    have hbound := hserves.bound
    refine ⟨by omega, ?_⟩
    intro z h1 h2
    by_cases ht : TailServes s.locked n p
    · rw [hkept ht z h1 h2]
      exact htail p ht z h1 h2
    · exact hzero ht z h1 h2

/-- From `s` to `t` the process at `p` was worked on: it belongs to whoever does that, and its file
table was left alone from entry 2 on. -/
structure Building (p : Nat) (s t : State) : Prop where
  ready : t.Ready
  owned : ∀ z, p ≤ z → z < p + processSize → t.Owned z
  table : ∀ z, p + 24 ≤ z → z < p + 528 → t.mm.mem z = s.mm.mem z

/-- A block of `n` bytes besides the process. -/
structure Beside (p q n : Nat) (t : State) : Prop where
  owned : ∀ z, q ≤ z → z < q + n → t.Owned z
  apart : ∀ z, p ≤ z → z < p + processSize → z < q ∨ q + n ≤ z

theorem Beside.of_owned {p q n : Nat} {t u : State} (h : Beside p q n t)
    (hown : ∀ z, t.Owned z → u.Owned z) : Beside p q n u :=
  ⟨fun z h1 h2 => hown z (h.owned z h1 h2), h.apart⟩

theorem initThread_apply {s : State} {p t threads comm pid z : Nat} (hp : z < p ∨ p + 16 ≤ z)
    (ht : z < t ∨ t + threadSize ≤ z) (hthreads : z < threads ∨ threads + 4 ≤ z) :
    (initThread s p t threads comm pid).mm.mem z = s.mm.mem z := by
  unfold threadSize at ht
  have h1 : z < t + 4 ∨ t + 4 + 4 * [0, 0, p].length ≤ z := by
    simp only [List.length_cons, List.length_nil]
    omega
  have h2 : z < p ∨ p + 4 * [comm, pid, 1, threads].length ≤ z := by
    simp only [List.length_cons, List.length_nil]
    omega
  exact (setWords_apply h1).trans ((Memory.setWord_apply hthreads).trans (setWords_apply h2))

theorem archSchedMkInitialRegs_apply {s : State} {r z : Nat} {cr3 : BitVec 32}
    (h : z < r ∨ r + 52 ≤ z) : (archSchedMkInitialRegs s r cr3).mm.mem z = s.mm.mem z := by
  apply (Memory.setWord_apply (by omega)).trans
  apply (Memory.setWord_apply (by omega)).trans
  apply (Memory.setWord_apply (by omega)).trans
  exact Memory.fill_apply h

/-- Without a free frame `mm_alloc_pages(1)` returns the last page of the address space. -/
theorem mmAllocPages_none {s s' : Mm} {page : Nat} (hfew : s.nframes < 2 ^ 20) (hfull : ¬FreeRun s 1)
    (h : mmAllocPages s 1 = .ok (page, s')) : page = 0xFFFFF000 ∧ s' = s := by
  obtain ⟨f, hf, h⟩ := bind_eq_ok.mp h
  have hlast : f = 0xFFFFFFFF := by
    by_contra hne
    obtain ⟨g, hlt, -, hclear, -⟩ := firstNFrames_found hf hne
    rw [Nat.mod_eq_of_lt hfew] at hlt
    apply hfull
    refine ⟨g, hlt, ?_⟩
    intro j hj
    have hfree := hclear j hj
    rwa [Nat.mod_eq_of_lt (by omega)] at hfree
  subst hlast
  obtain ⟨s₁, hloop, h⟩ := bind_eq_ok.mp h
  cases h
  have hbound : wrap (wrap (0xFFFFFFFF * 0x1000) + wrap (1 * 0x1000)) = 0 := by decide
  rw [hbound, pageTurns, forPages, if_neg (Nat.not_lt_zero _)] at hloop
  cases hloop
  exact ⟨by decide, rfl⟩

/-- What was given away lies on frames in use. -/
theorem State.Sound.owned_used {s : State} {z : Nat} (hs : s.Sound) (hz : s.Owned z) :
    z / 0x1000 < s.mm.nframes ∧ s.mm.used (z / 0x1000) = true := by
  obtain ⟨M, hM, m, hm, hmz⟩ := hz
  have hb := hs.holds_bounds hM hm hmz
  obtain ⟨-, f, hf, hend, hused⟩ := hs.chunks M hM
  unfold Major.stop at hb
  exact ⟨by omega, hused _ (by omega) (by omega)⟩

/-- `mm_alloc_pages(1)` takes nothing that liballoc has. -/
theorem State.Ready.mmAllocPages {s : State} {mm : Mm} {page : Nat} (hs : s.Ready)
    (h : mmAllocPages s.mm 1 = .ok (page, mm)) :
    page ≠ 0 ∧ State.Ready { s with mm := mm } ∧ mm.plp ≤ page ∧
      (∀ z, s.Owned z → z < page ∨ page + 4096 ≤ z) ∧ ∀ z, s.Owned z → mm.mem z = s.mm.mem z := by
  have hm := hs.sound.managed
  have hlow := hm.low
  have hfew := hm.few
  have hroom := hm.room
  by_cases hfree : FreeRun s.mm 1
  · obtain ⟨f, rfl, hend, hbehind, hunused, hm', hv, hplp, hmem, hused⟩ :=
      hm.mmAllocPages (by decide) hfree h
    refine ⟨by omega, ⟨⟨hm', hs.sound.blocks, ?_, hs.sound.apart⟩, hs.unlocked⟩, by omega, ?_, ?_⟩
    · intro M hM
      apply (hs.sound.chunks M hM).grow hv hplp
      intro g hg hu
      rw [hused g hg, hu, Bool.true_or]
    · intro z hz
      have hu := (hs.sound.owned_used hz).2
      by_contra hin
      rw [show z / 0x1000 = f by omega, hunused f (by omega) (by omega)] at hu
      cases hu
    · exact fun z hz => hmem z (hs.sound.owned_behind hz)
  · obtain ⟨rfl, rfl⟩ := mmAllocPages_none hfew hfree h
    refine ⟨by decide, hs, by omega, ?_, fun _ _ => rfl⟩
    intro z hz
    have := (hs.sound.owned_used hz).1
    omega

namespace Building

variable {s t u : State} {p q n : Nat}

theorem start (hs : s.Ready) (hfit : Fits s processSize) (h : s.kmalloc processSize = .ok (p, t)) :
    Building p t t := by
  obtain ⟨ht, hserves⟩ := hs.kmalloc hfit h
  exact ⟨ht, fun z h1 h2 => (hserves.owned z).mpr (.inr ⟨h1, h2⟩), fun _ _ _ => rfl⟩

theorem kmalloc (h : Building p s t) (hfit : Fits t n) (hk : t.kmalloc n = .ok (q, u)) :
    Building p s u ∧ Beside p q n u ∧ ∀ z, t.Owned z → u.Owned z := by
  obtain ⟨hu, hserves⟩ := h.ready.kmalloc hfit hk
  have hgrows (z : Nat) (hz : t.Owned z) : u.Owned z := (hserves.owned z).mpr (.inl hz)
  refine ⟨⟨hu, fun z h1 h2 => hgrows z (h.owned z h1 h2), ?_⟩, ⟨?_, ?_⟩, hgrows⟩
  · intro z h1 h2
    rw [hserves.mem z (h.owned z (by omega) (by unfold processSize; omega)), h.table z h1 h2]
  · exact fun z h1 h2 => (hserves.owned z).mpr (.inr ⟨h1, h2⟩)
  · intro z h1 h2
    by_contra hin
    exact hserves.unowned z (by omega) (by omega) (h.owned z h1 h2)

/-- Whoever builds a process writes to his own memory, and not to the table. -/
theorem setMem {mem : Memory} (h : Building p s t)
    (hmem : ∀ z, ¬t.Owned z ∨ (p + 24 ≤ z ∧ z < p + 528) → mem z = t.mm.mem z) :
    Building p s (t.setMem mem) := by
  refine ⟨h.ready.setMem fun z hz => hmem z (.inl hz), h.owned, ?_⟩
  intro z h1 h2
  exact (hmem z (.inr ⟨h1, h2⟩)).trans (h.table z h1 h2)

/-- It is so with a block besides the process. -/
theorem setBlock {mem : Memory} (h : Building p s t) (hq : Beside p q n t)
    (hmem : ∀ z, z < q ∨ q + n ≤ z → mem z = t.mm.mem z) : Building p s (t.setMem mem) := by
  apply h.setMem
  rintro z (hz | ⟨h1, h2⟩)
  · apply hmem
    by_contra hin
    exact hz (hq.owned z (by omega) (by omega))
  · exact hmem z (hq.apart z (by omega) (by unfold processSize; omega))

/-- And with the fields of the process in front of the table and behind it. -/
theorem setField {mem : Memory} (h : Building p s t)
    (hmem : ∀ z, z < p ∨ p + processSize ≤ z ∨ (p + 24 ≤ z ∧ z < p + 528) → mem z = t.mm.mem z) :
    Building p s (t.setMem mem) := by
  apply h.setMem
  rintro z (hz | hz)
  · apply hmem
    by_contra hin
    exact hz (h.owned z (by omega) (by omega))
  · exact hmem z (.inr (.inr hz))

variable {v : State} {threads : Nat} {e : Int}

theorem init (comm pid : Nat) (cr3 : BitVec 32) (h : Building p s u) (ht : Beside p q threadSize u)
    (hthreads : Beside p threads 4 u) : Building p s
      (archSchedMkInitialRegs (initThread u p q threads comm pid) (q + threadRegs) cr3) := by
  have hfields : Building p s (initThread u p q threads comm pid) := by
    apply h.setMem
    intro z hz
    have hout (a n : Nat) (hin : ∀ y, a ≤ y → y < a + n → u.Owned y)
        (hoff : p + 24 ≤ z → z < p + 528 → z < a ∨ a + n ≤ z) : z < a ∨ a + n ≤ z := by
      rcases hz with hz | ⟨h1, h2⟩
      · by_contra hlt
        exact hz (hin z (by omega) (by omega))
      · exact hoff h1 h2
    apply initThread_apply
    · apply hout p 16
      · exact fun y h1 h2 => h.owned y h1 (by unfold processSize; omega)
      · omega
    · apply hout q threadSize ht.owned
      exact fun h1 h2 => ht.apart z (by omega) (by unfold processSize; omega)
    · apply hout threads 4 hthreads.owned
      exact fun h1 h2 => hthreads.apart z (by omega) (by unfold processSize; omega)
  apply hfields.setBlock (ht.of_owned fun _ hz => hz)
  intro z hz
  apply archSchedMkInitialRegs_apply
  unfold threadSize at hz
  unfold threadRegs
  omega

theorem addressSpace (h : Building p s u) (hfit : Fits u pageDirSize)
    (hk : u.archSchedMakeAddressSpace p = .ok (e, v)) :
    Building p s v ∧ ∀ z, u.Owned z → v.Owned z := by
  obtain ⟨⟨ndir, s₁⟩, hcopy, hk⟩ := bind_eq_ok.mp hk
  obtain ⟨⟨dst, s₂⟩, hkmalloc, hcopy⟩ := bind_eq_ok.mp hcopy
  obtain ⟨h₂, hdir, hgrows⟩ := h.kmalloc hfit hkmalloc
  simp only at hcopy hk
  split_ifs at hcopy with h0
  · cases hcopy
    cases hk
    exact ⟨h₂, hgrows⟩
  · cases hcopy
    rw [if_neg h0] at hk
    cases hk
    have h₁ : Building p s (s₂.setMem (copyBlock s₂.mm.mem ndir u.mm.kernelDir pageDirSize)) :=
      h₂.setBlock hdir fun z hz => if_neg (by omega)
    refine ⟨h₁.setField ?_, hgrows⟩
    intro z hz
    apply Memory.setWord_apply
    unfold processSize at hz
    omega

theorem stack (h : Building p s u) (ht : Beside p q threadSize u) (h0 : q ≠ 0)
    (hk : schedCreateStack u q = .ok (e, v)) : e = 0 ∧ Building p s v := by
  rw [schedCreateStack, if_neg h0] at hk
  obtain ⟨⟨page, mm⟩, halloc, hk⟩ := bind_eq_ok.mp hk
  obtain ⟨hpage, hready, hplp, hoff, hmem⟩ := h.ready.mmAllocPages halloc
  simp only [if_neg hpage] at hk
  split_ifs at hk
  cases hk
  refine ⟨rfl, ?_⟩
  let u₁ : State := { u with mm := mm }
  have hzero : Building p s (u₁.setMem (mm.mem.fill page 0 4096)) := by
    refine ⟨⟨hready.sound.write ?_, hready.unlocked⟩, h.owned, ?_⟩
    · intro z _ hz
      have hz' : z < mm.plp := hz
      exact Memory.fill_apply (by omega)
    · intro z h1 h2
      have howned := h.owned z (by omega) (by unfold processSize; omega)
      rw [← h.table z h1 h2, ← hmem z howned]
      exact Memory.fill_apply (hoff z howned)
  have ht' : Beside p q threadSize (u₁.setMem (mm.mem.fill page 0 4096)) := ht.of_owned fun _ hz => hz
  apply hzero.setBlock ht'
  intro z hz
  unfold threadSize at hz
  unfold threadRegs
  apply (Memory.setWord_apply (by omega)).trans
  exact Memory.setWord_apply (by omega)

theorem filetable (h : Building p s u) (consoleFile : Nat) :
    (schedMakeFiletable u p consoleFile).Ready ∧
      (schedMakeFiletable u p consoleFile).fileTable p 0 = 0 ∧
      ∀ i, 2 ≤ i → i < 128 → (schedMakeFiletable u p consoleFile).fileTable p i = s.fileTable p i := by
  have hdone : Building p s (schedMakeFiletable u p consoleFile) := by
    apply h.setField
    intro z hz
    unfold processSize at hz
    apply (Memory.setWord_apply (by omega)).trans
    exact Memory.setWord_apply (by omega)
  refine ⟨hdone.ready, ?_, ?_⟩
  · exact (Memory.word_setWord_ne (by omega)).trans (Memory.word_setWord _ _ _)
  · intro i h1 h2
    have hagree : Memory.Agree (p + 24) (p + 528) s.mm.mem
        (schedMakeFiletable u p consoleFile).mm.mem := hdone.table
    exact hagree.word (by omega) (by omega)

end Building

section Requests

variable {s : State} {n : Nat} {next : Nat → State → List (State × Nat)} {P : State × Nat → Prop}

theorem asking_iff : (∀ r ∈ s.asking n next, P r) ↔
    P (s, n) ∧ ∀ p t, s.kmalloc n = .ok (p, t) → p ≠ 0 → ∀ r ∈ next p t, P r := by
  unfold State.asking
  cases h : s.kmalloc n with
  | error e => simp
  | ok r =>
    obtain ⟨p, t⟩ := r
    by_cases h0 : p = 0 <;> simp [h0]

end Requests

/-- Every request of `sched_mk_process` is made by a heap between two calls. -/
theorem processRequests_ready {k : Kernel} {cr3 : BitVec 32} {comm entry : Nat} (hk : k.heap.Ready)
    (hfit : ∀ r ∈ processRequests k cr3 comm entry, Fits r.1 r.2) :
    ∀ r ∈ processRequests k cr3 comm entry, r.1.Ready := by
  unfold processRequests at *
  split_ifs at * with h0
  · simp
  · simp only [asking_iff] at *
    obtain ⟨hfit₁, hfit⟩ := hfit
    refine ⟨hk, ?_⟩
    intro p s₁ h₁ hp
    obtain ⟨hfit₂, hfit⟩ := hfit p s₁ h₁ hp
    have hb₁ := Building.start hk hfit₁ h₁
    refine ⟨hb₁.ready, ?_⟩
    intro t s₂ h₂ ht
    obtain ⟨hfit₃, -⟩ := hfit t s₂ h₂ ht
    obtain ⟨hb₂, hthread, -⟩ := hb₁.kmalloc hfit₂ h₂
    refine ⟨hb₂.ready, ?_⟩
    intro threads s₃ h₃ _ r hr
    obtain ⟨hb₃, hthreads, hgrows⟩ := hb₂.kmalloc hfit₃ h₃
    obtain rfl := List.mem_singleton.mp hr
    exact (hb₃.init _ _ _ (hthread.of_owned hgrows) hthreads).ready

/-- `sched_mk_process` leaves entry 0 of the file table empty, and from entry 2 on what `kmalloc`
has put there. -/
theorem schedMkProcess_spec {k k' : Kernel} {cr3 : BitVec 32} {comm entry p : Nat}
    (hk : k.heap.Ready) (hfit : ∀ r ∈ processRequests k cr3 comm entry, Fits r.1 r.2)
    (h : schedMkProcess k cr3 comm entry = .ok (p, k')) :
    k'.heap.Ready ∧ (p ≠ 0 → k'.heap.fileTable p 0 = 0 ∧
      ∃ s, k.heap.kmalloc processSize = .ok (p, s) ∧
        ∀ i, 2 ≤ i → i < 128 → k'.heap.fileTable p i = s.fileTable p i) := by
  unfold schedMkProcess at h
  unfold processRequests at hfit
  split_ifs at * with h0
  · cases h
    exact ⟨hk, fun hne => absurd rfl hne⟩
  · simp only [asking_iff] at hfit
    obtain ⟨hfit₁, hfit⟩ := hfit
    obtain ⟨⟨q, s₁⟩, h₁, h⟩ := bind_eq_ok.mp h
    have hb₁ := Building.start hk hfit₁ h₁
    simp only at h
    split_ifs at h with hq
    · cases h
      exact ⟨hb₁.ready, fun hne => absurd rfl hne⟩
    obtain ⟨hfit₂, hfit⟩ := hfit q s₁ h₁ hq
    obtain ⟨⟨t, s₂⟩, h₂, h⟩ := bind_eq_ok.mp h
    obtain ⟨hb₂, hthread, -⟩ := hb₁.kmalloc hfit₂ h₂
    simp only at h
    split_ifs at h with ht
    · cases h
      exact ⟨hb₂.ready, fun hne => absurd rfl hne⟩
    obtain ⟨hfit₃, hfit⟩ := hfit t s₂ h₂ ht
    obtain ⟨⟨threads, s₃⟩, h₃, h⟩ := bind_eq_ok.mp h
    obtain ⟨hb₃, hthreads, hgrows⟩ := hb₂.kmalloc hfit₃ h₃
    simp only at h
    split_ifs at h with hthr
    · cases h
      exact ⟨hb₃.ready, fun hne => absurd rfl hne⟩
    have hfit₄ := hfit threads s₃ h₃ hthr _ (List.mem_singleton_self _)
    have hthread₃ := hthread.of_owned hgrows
    have hb₄ := hb₃.init comm k.globalPid cr3 hthread₃ hthreads
    obtain ⟨⟨e, s₄⟩, h₄, h⟩ := bind_eq_ok.mp h
    obtain ⟨hb₅, hgrows₅⟩ := hb₄.addressSpace hfit₄ h₄
    have hthread₅ : Beside q t threadSize s₄ := Beside.of_owned (t := s₃) hthread₃ hgrows₅
    have hb₆ : Building q s₁ (setInsPtr s₄ t entry) := by
      apply hb₅.setBlock hthread₅
      intro z hz
      unfold threadSize at hz
      unfold threadRegs
      exact Memory.setWord_apply (by omega)
    have hthread₆ : Beside q t threadSize (setInsPtr s₄ t entry) := hthread₅.of_owned fun _ hz => hz
    obtain ⟨⟨r, s₅⟩, h₅, h⟩ := bind_eq_ok.mp h
    obtain ⟨rfl, hb₇⟩ := hb₆.stack hthread₆ ht h₅
    simp only [ne_eq, not_true_eq_false, if_false] at h
    cases h
    obtain ⟨hready, hzero, hkept⟩ := hb₇.filetable k.consoleFile
    exact ⟨hready, fun _ => ⟨hzero, s₁, h₁, hkept⟩⟩

end Levos.Liballoc
