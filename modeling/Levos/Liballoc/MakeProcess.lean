import Levos.Liballoc.Live

namespace Levos.Liballoc

open Levos.Framework Levos.Memory

/-- From `s` to `t` the blocks `bs` were given away and nothing else: nobody owned a byte of them
before, and no two of them overlap. -/
structure GivenAway (s t : State) (bs : List (Nat × Nat)) : Prop where
  sized : ∀ b ∈ bs, b.1 < b.2
  unowned : ∀ b ∈ bs, ∀ z, b.1 ≤ z → z < b.2 → ¬s.Owned z
  apart : bs.Pairwise Apart
  owned : ∀ z, t.Owned z ↔ s.Owned z ∨ ∃ b ∈ bs, b.1 ≤ z ∧ z < b.2

/-- The fields of the process at `p` and of its thread at `t`, with the pointers between them. -/
structure Fields (mem : Memory) (pid : BitVec 32) (p t threads : Nat) : Prop where
  pid : mem.word (p + 4) = pid
  count : mem.word (p + 8) = 1
  array : mem.word (p + 12) = BitVec.ofNat 32 threads
  first : mem.word threads = BitVec.ofNat 32 t
  owner : mem.word (t + 12) = BitVec.ofNat 32 p

/-- The `page_dir` of the process at `p` is the block at `dir`, a copy of `kernel_dir`. -/
structure DirCopied (mm : Mm) (p dir : Nat) : Prop where
  pageDir : mm.mem.word (p + 528) = BitVec.ofNat 32 dir
  copy : ∀ i < pageDirSize, mm.mem (dir + i) = mm.mem (mm.kernelDir + i)

/-- The stack of the thread at `t` is page `f`: a frame of memory that belongs to nobody else, and that
the directory at `dir` maps there. -/
structure StackMapped (s : State) (dir t f : Nat) : Prop where
  frame : f < s.mm.nframes ∧ s.mm.used f = true
  mapped : ({ s.mm with kernelDir := dir } : Mm).mapsItself f
  alone : ∀ z, s.Owned z → z / 0x1000 ≠ f
  esp : s.mm.mem.word (t + threadRegs + 16) = BitVec.ofNat 32 (0x1000 * f + 4096)
  ebp : s.mm.mem.word (t + threadRegs + 20) = BitVec.ofNat 32 (0x1000 * f + 4096)

/-- From `k` to `k'` the process at `p` was created. -/
structure Created (k : Kernel) (p : Nat) (k' : Kernel) : Prop where
  ready : k'.heap.Ready
  counted : k'.globalPid = k.globalPid + 1
  parts : ∃ t threads dir f,
    GivenAway k.heap k'.heap [(p, p + processSize), (t, t + threadSize), (threads, threads + 4),
      (dir, dir + pageDirSize)] ∧
    Fields k'.heap.mm.mem (BitVec.ofNat 32 k.globalPid) p t threads ∧ DirCopied k'.heap.mm p dir ∧
    StackMapped k'.heap dir t f

/-- What was live before is live, and nothing else; the same frames are in use. -/
structure Restored (s t : State) : Prop where
  live : t.live.Perm s.live
  frames : ∀ f < s.mm.nframes, t.mm.used f = s.mm.used f

/-- The heap with the fields of a process and its thread in it. -/
def Kernel.initialised (k : Kernel) (s : State) (p t threads comm : Nat) (cr3 : BitVec 32) : State :=
  archSchedMkInitialRegs (initThread s p t threads comm k.globalPid) (t + threadRegs) cr3

/-- Each of the five allocations inside `sched_mk_process` has the memory it needs, in the heap that it
comes to. -/
def Provided (k : Kernel) (cr3 : BitVec 32) (comm entry : Nat) : Prop :=
  Granted k.heap processSize ∧ ∀ p s₁, k.heap.kmalloc processSize = .ok (p, s₁) →
    Granted s₁ threadSize ∧ ∀ t s₂, s₁.kmalloc threadSize = .ok (t, s₂) →
      Granted s₂ 4 ∧ ∀ threads s₃, s₂.kmalloc 4 = .ok (threads, s₃) →
        Granted (k.initialised s₃ p t threads comm cr3) pageDirSize ∧
          ∀ e s₄, (k.initialised s₃ p t threads comm cr3).archSchedMakeAddressSpace p = .ok (e, s₄) →
            RunMeets (setInsPtr s₄ t entry).mm 1

/-- `sched_mk_process` is all or nothing: it returns 0 where an allocation has no memory, and keeps
nothing when it returns 0; otherwise it returns a whole process. -/
def MakesRight (k : Kernel) (cr3 : BitVec 32) (comm entry : Nat) : Prop :=
  ∃ r k', schedMkProcess k cr3 comm entry = .ok (r, k') ∧
    (r = 0 → Restored k.heap k'.heap) ∧ (r ≠ 0 → Created k r k') ∧
    (comm ≠ 0 → entry ≠ 0 → ¬Provided k cr3 comm entry → r = 0)

theorem GivenAway.kmalloc {s t u : State} {bs : List (Nat × Nat)} {q n : Nat} (h : GivenAway s t bs)
    (hn : 0 < n) (hserves : Serves t u q n) : GivenAway s u (bs ++ [(q, q + n)]) := by
  refine ⟨?_, ?_, ?_, ?_⟩
  · intro b hb
    rcases List.mem_append.mp hb with hb | hb
    · exact h.sized b hb
    · obtain rfl := List.mem_singleton.mp hb
      exact Nat.lt_add_of_pos_right hn
  · intro b hb z h1 h2
    rcases List.mem_append.mp hb with hb | hb
    · exact h.unowned b hb z h1 h2
    · obtain rfl := List.mem_singleton.mp hb
      exact fun hz => hserves.unowned z h1 h2 ((h.owned z).mpr (.inl hz))
  · refine List.pairwise_append.mpr ⟨h.apart, List.pairwise_singleton _ _, ?_⟩
    intro a ha b hb
    obtain rfl := List.mem_singleton.mp hb
    have hsized := h.sized a ha
    by_contra hnot
    simp only [Apart] at hnot
    -- a byte of both would be owned and not
    apply hserves.unowned (max a.1 q) (by omega) (by omega)
    exact (h.owned _).mpr (.inr ⟨a, ha, by omega, by omega⟩)
  · intro z
    rw [hserves.owned, h.owned]
    simp only [List.mem_append, List.mem_singleton]
    constructor
    · rintro ((hz | ⟨b, hb, hz⟩) | hz)
      · exact .inl hz
      · exact .inr ⟨b, .inl hb, hz⟩
      · exact .inr ⟨_, .inr rfl, hz⟩
    · rintro (hz | ⟨b, hb | rfl, hz⟩)
      · exact .inl (.inl hz)
      · exact .inl (.inr ⟨b, hb, hz⟩)
      · exact .inr hz

/-- A request of `sched_mk_process` that is granted. -/
theorem State.Ready.kmalloc_granted {s : State} {n : Nat} (hs : s.Ready) (hsize : n + 80 < 2 ^ 32)
    (hpages : pagesFor (n + 32) < 2 ^ 20) (h : Granted s n) :
    ∃ q t, s.kmalloc n = .ok (q, t) ∧ q ≠ 0 ∧ t.Ready ∧ Serves s t q n := by
  obtain ⟨q, t, hcall⟩ := hs.kmalloc_total hsize hpages h
  obtain ⟨hready, hserves⟩ := hs.kmalloc (h.fits hs.sound hsize) hcall
  exact ⟨q, t, hcall, (hs.kmalloc_ne_zero hsize hpages hcall).1, hready, hserves⟩

section Parts

variable {s u : State} {mem mem' : Memory} {pid : BitVec 32} {p t threads dir f a : Nat}

/-- The fields are in the first 16 bytes of the process, in its array and in 12 bytes of the thread. -/
theorem Fields.keep (h : Fields mem pid p t threads) (hp : Memory.Agree p (p + 16) mem mem')
    (hthreads : Memory.Agree threads (threads + 4) mem mem')
    (ht : Memory.Agree (t + 4) (t + 16) mem mem') : Fields mem' pid p t threads := by
  refine ⟨?_, ?_, ?_, ?_, ?_⟩
  · exact (hp.word (by omega) (by omega)).trans h.pid
  · exact (hp.word (by omega) (by omega)).trans h.count
  · exact (hp.word (by omega) (by omega)).trans h.array
  · exact (hthreads.word (by omega) (by omega)).trans h.first
  · exact (ht.word (by omega) (by omega)).trans h.owner

/-- `initThread` sets the fields, of three blocks that do not overlap. -/
theorem initThread_fields (comm n : Nat) (hpt : Apart (p, p + processSize) (t, t + threadSize))
    (hpa : Apart (p, p + processSize) (threads, threads + 4))
    (hta : Apart (t, t + threadSize) (threads, threads + 4)) :
    Fields (initThread s p t threads comm n).mm.mem (BitVec.ofNat 32 n) p t threads := by
  simp only [Apart, processSize, threadSize] at hpt hpa hta
  simp only [initThread, State.setMem, setWords]
  refine ⟨?_, ?_, ?_, ?_, ?_⟩
  · repeat rw [Memory.word_setWord_ne (by omega)]
    exact Memory.word_setWord _ _ _
  · repeat rw [Memory.word_setWord_ne (by omega)]
    exact Memory.word_setWord _ _ _
  · repeat rw [Memory.word_setWord_ne (by omega)]
    exact Memory.word_setWord _ _ _
  · repeat rw [Memory.word_setWord_ne (by omega)]
    exact Memory.word_setWord _ _ _
  · exact Memory.word_setWord _ _ _

/-- The fields as `arch_sched_mk_initial_regs` leaves them. -/
theorem Kernel.initialised_fields (k : Kernel) (comm : Nat) (cr3 : BitVec 32)
    (hpt : Apart (p, p + processSize) (t, t + threadSize))
    (hpa : Apart (p, p + processSize) (threads, threads + 4))
    (hta : Apart (t, t + threadSize) (threads, threads + 4)) :
    Fields (k.initialised s p t threads comm cr3).mm.mem (BitVec.ofNat 32 k.globalPid) p t threads := by
  have hset := initThread_fields (s := s) comm k.globalPid hpt hpa hta
  simp only [Apart, processSize, threadSize] at hpt hta
  refine hset.keep ?_ ?_ ?_
  · intro z h1 h2
    exact archSchedMkInitialRegs_apply (by unfold threadRegs; omega)
  · intro z h1 h2
    exact archSchedMkInitialRegs_apply (by unfold threadRegs; omega)
  · intro z h1 h2
    exact archSchedMkInitialRegs_apply (by unfold threadRegs; omega)

/-- Only bytes of the three blocks are written for that. -/
theorem Kernel.initialised_ready (k : Kernel) (comm : Nat) (cr3 : BitVec 32) (hs : s.Ready)
    (hp : ∀ z, p ≤ z → z < p + processSize → s.Owned z)
    (ht : ∀ z, t ≤ z → z < t + threadSize → s.Owned z)
    (ha : ∀ z, threads ≤ z → z < threads + 4 → s.Owned z) :
    (k.initialised s p t threads comm cr3).Ready := by
  have hfields : (initThread s p t threads comm k.globalPid).Ready := by
    apply hs.setMem
    intro z hz
    apply initThread_apply
    · by_contra hin
      exact hz (hp z (by omega) (by unfold processSize; omega))
    · by_contra hin
      exact hz (ht z (by omega) (by omega))
    · by_contra hin
      exact hz (ha z (by omega) (by omega))
  apply hfields.setMem
  intro z hz
  apply archSchedMkInitialRegs_apply
  by_contra hin
  unfold threadRegs at hin
  exact hz (ht z (by omega) (by unfold threadSize; omega))

/-- A copy of the directory maps what the directory maps. -/
theorem mapsItself_copy {mm : Mm} (hcopy : ∀ i < pageDirSize, mm.mem (dir + i) = mm.mem (mm.kernelDir + i))
    (hf : f < 2 ^ 20) (h : mm.mapsItself f) : ({ mm with kernelDir := dir } : Mm).mapsItself f := by
  have htbl : ({ mm with kernelDir := dir } : Mm).tbl (f / 1024) = mm.tbl (f / 1024) := by
    have hbyte (j : Nat) (hj : j < 4) : mm.mem (dir + 4096 + 4 * (f / 1024) + j) =
        mm.mem (mm.kernelDir + 4096 + 4 * (f / 1024) + j) := by
      have hi := hcopy (4096 + 4 * (f / 1024) + j) (by unfold pageDirSize; omega)
      rwa [← Nat.add_assoc, ← Nat.add_assoc, ← Nat.add_assoc, ← Nat.add_assoc] at hi
    have hlast : mm.mem (dir + 4096 + 4 * (f / 1024)) =
        mm.mem (mm.kernelDir + 4096 + 4 * (f / 1024)) := hbyte 0 (by decide)
    simp only [Mm.tbl, Mm.table, Memory.word, hbyte 1 (by decide), hbyte 2 (by decide),
      hbyte 3 (by decide), hlast]
  obtain ⟨pg, hpg, hrest⟩ := h
  refine ⟨pg, ?_, hrest⟩
  have hentry : ({ mm with kernelDir := dir } : Mm).entry f = mm.entry f := by
    rw [Mm.entry, htbl, Mm.entry]
  rw [Mm.pte, htbl, hentry]
  exact hpg

/-- Neither the directories nor the field `page_dir` are written. -/
theorem DirCopied.setMem (h : DirCopied s.mm p dir) (hp : Memory.Agree (p + 528) (p + 532) s.mm.mem mem)
    (hd : Memory.Agree dir (dir + pageDirSize) s.mm.mem mem)
    (hk : Memory.Agree s.mm.kernelDir (s.mm.kernelDir + pageDirSize) s.mm.mem mem) :
    DirCopied (s.setMem mem).mm p dir := by
  refine ⟨?_, ?_⟩
  · exact (hp.word (Nat.le_refl _) (Nat.le_refl _)).trans h.pageDir
  · intro i hi
    have hcopy := h.copy i hi
    have h1 : mem (dir + i) = s.mm.mem (dir + i) := hd _ (by omega) (by omega)
    have h2 : mem (s.mm.kernelDir + i) = s.mm.mem (s.mm.kernelDir + i) := hk _ (by omega) (by omega)
    exact h1.trans (hcopy.trans h2.symm)

/-- Nothing below `plp` is written, nor `esp` and `ebp`. -/
theorem StackMapped.setMem (h : StackMapped s s.mm.kernelDir t f) (hm : Managed s.mm)
    (hbelow : Memory.Agree 0 s.mm.plp s.mm.mem mem) (ht : Memory.Agree (t + 32) (t + 40) s.mm.mem mem) :
    StackMapped (s.setMem mem) s.mm.kernelDir t f := by
  obtain ⟨-, hused⟩ := hm.write hbelow
  have hfew := hm.few
  have hlt := h.frame.1
  refine ⟨⟨hlt, (hused f hlt).trans h.frame.2⟩, ?_, h.alone, ?_, ?_⟩
  · obtain ⟨pg, hpg, hrest⟩ := h.mapped
    refine ⟨pg, ?_, hrest⟩
    rw [← hpg]
    exact pte_write hm.layout (hbelow.mono (Nat.zero_le _) (Nat.le_refl _)) (by omega)
  · exact (ht.word (by unfold threadRegs; omega) (by unfold threadRegs; omega)).trans h.esp
  · exact (ht.word (by unfold threadRegs; omega) (by unfold threadRegs; omega)).trans h.ebp

/-- The stack is mapped in the process' own directory. -/
theorem StackMapped.copied (h : StackMapped s s.mm.kernelDir t f) (hfew : s.mm.nframes < 2 ^ 20)
    (hdir : DirCopied s.mm p dir) : StackMapped s dir t f := by
  have hlt := h.frame.1
  exact ⟨h.frame, mapsItself_copy hdir.copy (by omega) h.mapped, h.alone, h.esp, h.ebp⟩

/-- `arch_sched_make_address_space` where the directory is granted. -/
theorem addressSpace_granted (hs : s.Ready) (hg : Granted s pageDirSize)
    (hp : ∀ z, p ≤ z → z < p + processSize → s.Owned z) :
    ∃ dir v, s.archSchedMakeAddressSpace p = .ok (0, v) ∧ v.Ready ∧ DirCopied v.mm p dir ∧
      (∀ z, s.Owned z → z < p + 528 ∨ p + 532 ≤ z → v.mm.mem z = s.mm.mem z) ∧
      ∀ s₀ bs, GivenAway s₀ s bs → GivenAway s₀ v (bs ++ [(dir, dir + pageDirSize)]) := by
  obtain ⟨dir, u, hcall, h0, hu, hserves⟩ := hs.kmalloc_granted (by decide) (by decide) hg
  let copied : State := u.setMem (copyBlock u.mm.mem dir s.mm.kernelDir pageDirSize)
  let v : State := copied.setMem (copied.mm.mem.setWord (p + 528) (BitVec.ofNat 32 dir))
  have howned (z : Nat) (hz : s.Owned z) : u.Owned z := (hserves.owned z).mpr (.inl hz)
  have hblock (z : Nat) (h1 : dir ≤ z) (h2 : z < dir + pageDirSize) : u.Owned z :=
    (hserves.owned z).mpr (.inr ⟨h1, h2⟩)
  have hfield (z : Nat) (h1 : p + 528 ≤ z) (h2 : z < p + 532) : s.Owned z :=
    hp z (by omega) (by unfold processSize; omega)
  have hcopied : copied.Ready := by
    apply hu.setMem
    intro z hz
    apply if_neg
    intro hin
    exact hz (hblock z hin.1 hin.2)
  have hready : v.Ready := by
    apply hcopied.setMem
    intro z hz
    apply Memory.setWord_apply
    by_contra hin
    exact hz (howned z (hfield z (by omega) (by omega)))
  have hcopy (z : Nat) (hz : z < dir ∨ dir + pageDirSize ≤ z) : copied.mm.mem z = u.mm.mem z :=
    if_neg (by omega)
  have hkept (z : Nat) (hz : s.Owned z) (hoff : z < p + 528 ∨ p + 532 ≤ z) :
      v.mm.mem z = s.mm.mem z := by
    have hbeside : z < dir ∨ dir + pageDirSize ≤ z := by
      by_contra hin
      exact hserves.unowned z (by omega) (by omega) hz
    calc v.mm.mem z = copied.mm.mem z := Memory.setWord_apply (by omega)
      _ = u.mm.mem z := hcopy z hbeside
      _ = s.mm.mem z := hserves.mem z hz
  refine ⟨dir, v, ?_, hready, ⟨Memory.word_setWord _ _ _, ?_⟩, hkept, ?_⟩
  · simp only [State.archSchedMakeAddressSpace, State.copyPageDir, hcall, ok_bind]
    rw [if_neg h0]
    exact if_neg h0
  · intro i hi
    have hkernel : v.mm.kernelDir = s.mm.kernelDir := hserves.vars.kernelDir
    have hlayout := hs.sound.managed.layout.dir
    have hlow : s.mm.plp ≤ dir := by
      rw [← hserves.plp]
      exact hu.sound.owned_behind (hblock dir (Nat.le_refl _) (by unfold pageDirSize; omega))
    have hbehind := hs.sound.owned_behind (hfield (p + 528) (Nat.le_refl _) (by omega))
    have hoff : dir + i < p + 528 ∨ p + 532 ≤ dir + i := by
      by_contra hin
      exact hserves.unowned (dir + i) (by omega) (by omega) (hfield _ (by omega) (by omega))
    rw [hkernel]
    calc v.mm.mem (dir + i) = copied.mm.mem (dir + i) := Memory.setWord_apply (by omega)
      _ = u.mm.mem (s.mm.kernelDir + i) := by
        refine (if_pos ⟨by omega, by omega⟩).trans ?_
        rw [Nat.add_sub_cancel_left]
      _ = copied.mm.mem (s.mm.kernelDir + i) := (hcopy _ (by omega)).symm
      _ = v.mm.mem (s.mm.kernelDir + i) := (Memory.setWord_apply (by omega)).symm
  · intro s₀ bs hbs
    obtain ⟨h1, h2, h3, h4⟩ := hbs.kmalloc (by decide) hserves
    exact ⟨h1, h2, h3, h4⟩

/-- What `sched_create_stack` writes when it was given page `f`: zeros in the page, and its end in the
`esp` and the `ebp` of the thread. -/
def stackWrites (mem : Memory) (t f : Nat) : Memory :=
  let top := BitVec.ofNat 32 (0x1000 * f + 4096)
  ((mem.fill (0x1000 * f) 0 4096).setWord (t + 36) top).setWord (t + 32) top

theorem stackWrites_apply {z : Nat} (hregs : z < t + 32 ∨ t + 40 ≤ z) (hpage : z / 0x1000 ≠ f) :
    stackWrites mem t f z = mem z := by
  apply (Memory.setWord_apply (by omega)).trans
  apply (Memory.setWord_apply (by omega)).trans
  exact Memory.fill_apply (by omega)

/-- `sched_create_stack` with the page that it is given. -/
theorem createStack_page {mm : Mm} (h0 : t ≠ 0) (hcall : mmAllocPages s.mm 1 = .ok (0x1000 * f, mm))
    (hpage : 0x1000 * f ≠ 0) (hthere : mm.present (0x1000 * f) = true) :
    schedCreateStack s t = .ok (0, { s with mm := { mm with mem := stackWrites mm.mem t f } }) := by
  simp only [schedCreateStack, if_neg h0, hcall, ok_bind, if_neg hpage, if_pos hthere]
  rfl

/-- The page is the stack of the thread, when nobody owns it and the thread is behind `plp`. -/
theorem stackWrites_mapped {mm : Mm} (hm : Managed mm) (hf : f < mm.nframes) (hused : mm.used f = true)
    (hitself : mm.mapsItself f) (halone : ∀ z, s.Owned z → z / 0x1000 ≠ f)
    (hbelow : Memory.Agree 0 mm.plp mm.mem (stackWrites mm.mem t f)) :
    StackMapped { s with mm := { mm with mem := stackWrites mm.mem t f } } mm.kernelDir t f := by
  have hfew := hm.few
  obtain ⟨-, hkept⟩ := hm.write hbelow
  refine ⟨⟨hf, (hkept f hf).trans hused⟩, ?_, halone, ?_, ?_⟩
  · have hpte : ({ mm with mem := stackWrites mm.mem t f } : Mm).pte f = mm.pte f :=
      pte_write hm.layout (hbelow.mono (Nat.zero_le _) (Nat.le_refl _)) (by omega)
    obtain ⟨pg, hpg, hrest⟩ := hitself
    exact ⟨pg, hpte.trans hpg, hrest⟩
  · have hesp : t + threadRegs + 16 = t + 32 := rfl
    rw [hesp]
    exact Memory.word_setWord _ _ _
  · have hebp : t + threadRegs + 20 = t + 36 := rfl
    rw [hebp]
    exact (Memory.word_setWord_ne (by omega)).trans (Memory.word_setWord _ _ _)

/-- `sched_create_stack` where a page is granted. -/
theorem createStack_granted (hs : s.Ready) (hrun : RunMeets s.mm 1) (h0 : t ≠ 0)
    (ht : ∀ z, t ≤ z → z < t + threadSize → s.Owned z)
    (hp : ∀ z, p ≤ z → z < p + processSize → s.Owned z)
    (hd : ∀ z, dir ≤ z → z < dir + pageDirSize → s.Owned z)
    (hpt : Apart (p, p + processSize) (t, t + threadSize))
    (htd : Apart (t, t + threadSize) (dir, dir + pageDirSize)) (hdir : DirCopied s.mm p dir) :
    ∃ f v, schedCreateStack s t = .ok (0, v) ∧ v.Ready ∧ v.majors = s.majors ∧
      StackMapped v v.mm.kernelDir t f ∧ DirCopied v.mm p dir ∧
      ∀ z, s.Owned z → z < t + 32 ∨ t + 40 ≤ z → v.mm.mem z = s.mm.mem z := by
  have hm := hs.sound.managed
  obtain ⟨f, mm, hfree, hcall, hdone⟩ := hm.pages_of_meets (by decide) hrun
  have hend := hfree.1
  obtain ⟨hpage, hready, hplp, hbeside, hmem⟩ := hs.mmAllocPages hcall
  obtain ⟨hv, -, hoff⟩ := Managed.allocPages hm.layout hm.online hcall
  have hm' : Managed mm := hready.sound.managed
  have hnframes : mm.nframes = s.mm.nframes := hv.nframes
  unfold threadSize at ht hpt htd
  have halone (z : Nat) (hz : s.Owned z) : z / 0x1000 ≠ f := by
    have hz' := hbeside z hz
    omega
  -- all that is written lies behind `plp`
  have hthread := hready.sound.owned_behind (ht (t + 32) (by omega) (by omega))
  have hplpPage : mm.plp ≤ 0x1000 * f := by omega
  have hbelow (z : Nat) (hz : z < mm.plp) : stackWrites mm.mem t f z = mm.mem z := by
    have hz' : z < t + 32 := Nat.lt_of_lt_of_le hz hthread
    exact stackWrites_apply (by omega) (by omega)
  have hkept (z : Nat) (hz : s.Owned z) (hout : z < t + 32 ∨ t + 40 ≤ z) :
      stackWrites mm.mem t f z = s.mm.mem z := by
    rw [← hmem z hz]
    exact stackWrites_apply hout (halone z hz)
  have hagree : Memory.Agree 0 mm.plp mm.mem (stackWrites mm.mem t f) := fun z _ hz => hbelow z hz
  have hused : mm.used f = true := by
    rw [hdone.used f (hm.inFrames (by omega)), decide_eq_true (by omega), Bool.or_true]
  have hitself : mm.mapsItself f := hdone.itself f (Nat.le_refl _) (by omega)
  have hmapped := stackWrites_mapped (s := s) hm' (by omega) hused hitself halone hagree
  refine ⟨f, _, createStack_page h0 hcall hpage hitself.present,
    ⟨hready.sound.write hagree, hs.unlocked⟩, rfl, hmapped, ⟨?_, ?_⟩, hkept⟩
  · rw [← hdir.pageDir]
    simp only [Apart, processSize] at hpt hp
    have hfield : Memory.Agree (p + 528) (p + 532) s.mm.mem (stackWrites mm.mem t f) := by
      intro z h1 h2
      exact hkept z (hp z (by omega) (by omega)) (by omega)
    exact hfield.word (Nat.le_refl _) (Nat.le_refl _)
  · intro i hi
    have hlayout := hm.layout.dir
    have hlayout' := hm'.layout.dir
    have hkernel : mm.kernelDir = s.mm.kernelDir := hv.kernelDir
    have hbyte : mm.mem (s.mm.kernelDir + i) = s.mm.mem (s.mm.kernelDir + i) :=
      hoff _ (.inr ⟨by omega, by omega⟩)
    simp only [Apart] at htd
    change stackWrites mm.mem t f (dir + i) = stackWrites mm.mem t f (mm.kernelDir + i)
    rw [hkept _ (hd (dir + i) (by omega) (by omega)) (by omega), hdir.copy i hi,
      hbelow (mm.kernelDir + i) (by omega), hkernel, hbyte]

end Parts

theorem GivenAway.nil (s : State) : GivenAway s s [] :=
  ⟨by simp, by simp, List.Pairwise.nil, by simp⟩

/-- The heap while a process is put together: its three blocks, with the fields set, and the blocks
`rest` were given away since `k`. -/
structure Assembled (k : Kernel) (p t threads : Nat) (rest : List (Nat × Nat)) (s : State) : Prop where
  ready : s.Ready
  given : GivenAway k.heap s
    ((p, p + processSize) :: (t, t + threadSize) :: (threads, threads + 4) :: rest)
  fields : Fields s.mm.mem (BitVec.ofNat 32 k.globalPid) p t threads

namespace Assembled

variable {k : Kernel} {s : State} {mem : Memory} {p t threads dir f z : Nat} {rest : List (Nat × Nat)}

theorem owned {b : Nat × Nat} (h : Assembled k p t threads rest s)
    (hb : b ∈ (p, p + processSize) :: (t, t + threadSize) :: (threads, threads + 4) :: rest)
    (h1 : b.1 ≤ z) (h2 : z < b.2) : s.Owned z := (h.given.owned z).mpr (.inr ⟨b, hb, h1, h2⟩)

theorem process (h : Assembled k p t threads rest s) (h1 : p ≤ z) (h2 : z < p + processSize) :
    s.Owned z := h.owned (b := (p, p + processSize)) (by simp) h1 h2

theorem thread (h : Assembled k p t threads rest s) (h1 : t ≤ z) (h2 : z < t + threadSize) :
    s.Owned z := h.owned (b := (t, t + threadSize)) (by simp) h1 h2

theorem apart (h : Assembled k p t threads rest s) :
    Apart (p, p + processSize) (t, t + threadSize) ∧ Apart (p, p + processSize) (threads, threads + 4) ∧
      Apart (t, t + threadSize) (threads, threads + 4) ∧
      ∀ b ∈ rest, Apart (p, p + processSize) b ∧ Apart (t, t + threadSize) b := by
  obtain ⟨h1, h23⟩ := List.pairwise_cons.mp h.given.apart
  obtain ⟨h2, h3⟩ := List.pairwise_cons.mp h23
  refine ⟨h1 _ (by simp), h1 _ (by simp), h2 _ (by simp), ?_⟩
  intro b hb
  exact ⟨h1 b (by simp [hb]), h2 b (by simp [hb])⟩

/-- A change of `n` bytes behind those fields, in the process or in the thread, leaves them alone. -/
theorem changed {u : State} {more : List (Nat × Nat)} {a n : Nat} (h : Assembled k p t threads rest s)
    (ha : (p + 16 ≤ a ∧ a + n ≤ p + processSize) ∨ (t + 16 ≤ a ∧ a + n ≤ t + threadSize)) (hu : u.Ready)
    (hgiven : GivenAway k.heap u
      ((p, p + processSize) :: (t, t + threadSize) :: (threads, threads + 4) :: more))
    (hkept : ∀ z, s.Owned z → z < a ∨ a + n ≤ z → u.mm.mem z = s.mm.mem z) :
    Assembled k p t threads more u := by
  obtain ⟨hpt, hpa, hta, -⟩ := h.apart
  have hprocess (z : Nat) := h.process (z := z)
  have hthread (z : Nat) := h.thread (z := z)
  have harray (z : Nat) (h1 : threads ≤ z) (h2 : z < threads + 4) : s.Owned z :=
    h.owned (b := (threads, threads + 4)) (by simp) h1 h2
  simp only [Apart, processSize, threadSize] at hpt hpa hta ha hprocess hthread
  refine ⟨hu, hgiven, h.fields.keep ?_ ?_ ?_⟩
  · intro z h1 h2
    exact hkept z (hprocess z h1 (by omega)) (by omega)
  · intro z h1 h2
    exact hkept z (harray z h1 h2) (by omega)
  · intro z h1 h2
    exact hkept z (hthread z (by omega) (by omega)) (by omega)

/-- Whoever puts it together sets words of the process and the thread behind those fields. -/
theorem setWord {w : BitVec 32} {a : Nat} (h : Assembled k p t threads rest s)
    (ha : (p + 16 ≤ a ∧ a + 4 ≤ p + processSize) ∨ (t + 16 ≤ a ∧ a + 4 ≤ t + threadSize)) :
    Assembled k p t threads rest (s.setMem (s.mm.mem.setWord a w)) := by
  have hready : (s.setMem (s.mm.mem.setWord a w)).Ready := by
    apply h.ready.setMem
    intro z hz
    apply Memory.setWord_apply
    by_contra hin
    apply hz
    rcases ha with ha | ha
    · exact h.process (by omega) (by omega)
    · exact h.thread (by omega) (by omega)
  apply h.changed ha hready
  · obtain ⟨h1, h2, h3, h4⟩ := h.given
    exact ⟨h1, h2, h3, h4⟩
  · intro z _ hout
    exact Memory.setWord_apply hout

/-- The words in front of `page_dir` are none of a directory. -/
theorem setWord_dir {w : BitVec 32} {a : Nat}
    (h : Assembled k p t threads [(dir, dir + pageDirSize)] s) (hdir : DirCopied s.mm p dir)
    (ha : (p + 16 ≤ a ∧ a + 4 ≤ p + 528) ∨ (t + 16 ≤ a ∧ a + 4 ≤ t + threadSize)) :
    DirCopied (s.setMem (s.mm.mem.setWord a w)).mm p dir := by
  obtain ⟨hpt, -, -, hrest⟩ := h.apart
  obtain ⟨hpd, htd⟩ := hrest _ (List.mem_singleton_self _)
  have howned : s.Owned a := by
    rcases ha with ha | ha
    · exact h.process (by omega) (by unfold processSize; omega)
    · exact h.thread (by omega) (by omega)
  have hbehind := h.ready.sound.owned_behind howned
  have hlayout := h.ready.sound.managed.layout.dir
  simp only [Apart, processSize, threadSize] at hpt hpd htd ha
  apply hdir.setMem
  · exact Memory.agree_setWord (by omega)
  · exact Memory.agree_setWord (by omega)
  · exact Memory.agree_setWord (by omega)

/-- The words of the process are none of the stack. -/
theorem setWord_stack {w : BitVec 32} {a : Nat} (h : Assembled k p t threads rest s)
    (hstack : StackMapped s s.mm.kernelDir t f) (ha : p + 16 ≤ a ∧ a + 4 ≤ p + processSize) :
    StackMapped (s.setMem (s.mm.mem.setWord a w)) s.mm.kernelDir t f := by
  obtain ⟨hpt, -, -, -⟩ := h.apart
  have hbehind := h.ready.sound.owned_behind (h.process (z := a) (by omega) (by omega))
  simp only [Apart, processSize, threadSize] at hpt ha
  apply hstack.setMem h.ready.sound.managed
  · exact Memory.agree_setWord (by omega)
  · exact Memory.agree_setWord (by omega)

/-- The two entries of the file table are behind the fields of the process, and in front of its
`page_dir`. -/
theorem filetable (h : Assembled k p t threads [(dir, dir + pageDirSize)] s) (hdir : DirCopied s.mm p dir)
    (hstack : StackMapped s s.mm.kernelDir t f) (file : Nat) :
    Assembled k p t threads [(dir, dir + pageDirSize)] (schedMakeFiletable s p file) ∧
      DirCopied (schedMakeFiletable s p file).mm p dir ∧
      StackMapped (schedMakeFiletable s p file) (schedMakeFiletable s p file).mm.kernelDir t f := by
  have hend : p + 528 ≤ p + processSize := Nat.add_le_add_left (by decide) p
  have hfirst := h.setWord (w := 0) (a := p + 16) (.inl (by omega))
  have hdir' := h.setWord_dir (w := 0) (a := p + 16) hdir (.inl (by omega))
  have hstack' := h.setWord_stack (w := 0) (a := p + 16) hstack (by omega)
  refine ⟨hfirst.setWord (.inl (by omega)), ?_, ?_⟩
  · exact hfirst.setWord_dir hdir' (.inl (by omega))
  · exact hfirst.setWord_stack hstack' (by omega)

end Assembled

/-- The three blocks with the fields of the process and the thread set. -/
theorem Kernel.assembled (k : Kernel) (comm : Nat) (cr3 : BitVec 32) {s : State} {p t threads : Nat}
    (hs : s.Ready) (hgiven : GivenAway k.heap s
      [(p, p + processSize), (t, t + threadSize), (threads, threads + 4)]) :
    Assembled k p t threads [] (k.initialised s p t threads comm cr3) := by
  obtain ⟨h1, h23⟩ := List.pairwise_cons.mp hgiven.apart
  obtain ⟨h2, -⟩ := List.pairwise_cons.mp h23
  have howned (b : Nat × Nat) (hb : b ∈ [(p, p + processSize), (t, t + threadSize),
      (threads, threads + 4)]) (z : Nat) (hlo : b.1 ≤ z) (hhi : z < b.2) : s.Owned z :=
    (hgiven.owned z).mpr (.inr ⟨b, hb, hlo, hhi⟩)
  refine ⟨?_, ⟨hgiven.sized, hgiven.unowned, hgiven.apart, hgiven.owned⟩, ?_⟩
  · apply k.initialised_ready comm cr3 hs
    · exact howned (p, p + processSize) (by simp)
    · exact howned (t, t + threadSize) (by simp)
    · exact howned (threads, threads + 4) (by simp)
  · exact k.initialised_fields comm cr3 (h1 _ (by simp)) (h1 _ (by simp)) (h2 _ (by simp))

/-- Where all of it is there, `sched_mk_process` creates the process. -/
theorem schedMkProcess_created {k : Kernel} {cr3 : BitVec 32} {comm entry : Nat} (hk : k.heap.Ready)
    (hcomm : comm ≠ 0) (hentry : entry ≠ 0) (h : Provided k cr3 comm entry) :
    ∃ p k', schedMkProcess k cr3 comm entry = .ok (p, k') ∧ p ≠ 0 ∧ Created k p k' := by
  obtain ⟨hg₁, h⟩ := h
  obtain ⟨p, s₁, hc₁, hp0, hr₁, hs₁⟩ := hk.kmalloc_granted (by decide) (by decide) hg₁
  obtain ⟨hg₂, h⟩ := h p s₁ hc₁
  obtain ⟨t, s₂, hc₂, ht0, hr₂, hs₂⟩ := hr₁.kmalloc_granted (by decide) (by decide) hg₂
  obtain ⟨hg₃, h⟩ := h t s₂ hc₂
  obtain ⟨threads, s₃, hc₃, ha0, hr₃, hs₃⟩ := hr₂.kmalloc_granted (by decide) (by decide) hg₃
  obtain ⟨hg₄, h⟩ := h threads s₃ hc₃
  have hgiven₃ : GivenAway k.heap s₃
      [(p, p + processSize), (t, t + threadSize), (threads, threads + 4)] :=
    (((GivenAway.nil k.heap).kmalloc (by decide) hs₁).kmalloc (by decide) hs₂).kmalloc (by decide) hs₃
  have h₃ := k.assembled comm cr3 hr₃ hgiven₃
  obtain ⟨dir, s₄, hc₄, hr₄, hdir₄, hkept₄, hgive⟩ := addressSpace_granted h₃.ready hg₄
    fun z h1 h2 => h₃.process h1 h2
  have hrun := h 0 s₄ hc₄
  have hpage : p + 16 ≤ p + 528 ∧ p + 528 + 4 ≤ p + processSize := by
    unfold processSize
    omega
  have h₄ : Assembled k p t threads [(dir, dir + pageDirSize)] s₄ :=
    h₃.changed (.inl hpage) hr₄ (hgive _ _ h₃.given) hkept₄
  have hword : t + 16 ≤ t + threadRegs + 40 ∧ t + threadRegs + 40 + 4 ≤ t + threadSize := by
    unfold threadRegs threadSize
    omega
  have h₅ : Assembled k p t threads [(dir, dir + pageDirSize)] (setInsPtr s₄ t entry) :=
    h₄.setWord (.inr hword)
  have hdir₅ : DirCopied (setInsPtr s₄ t entry).mm p dir := h₄.setWord_dir hdir₄ (.inr hword)
  obtain ⟨f, s₆, hc₆, hr₆, hmajors, hstack₆, hdir₆, hkept₆⟩ := createStack_granted h₅.ready hrun ht0
    (fun z h1 h2 => h₅.thread h1 h2) (fun z h1 h2 => h₅.process h1 h2)
    (fun z h1 h2 => h₅.owned (b := (dir, dir + pageDirSize)) (by simp) h1 h2) h₅.apart.1
    (h₅.apart.2.2.2 _ (by simp)).2 hdir₅
  have hgiven₆ : GivenAway k.heap s₆ [(p, p + processSize), (t, t + threadSize), (threads, threads + 4),
      (dir, dir + pageDirSize)] := by
    obtain ⟨hsized, hunowned, hapart, howned⟩ := h₅.given
    refine ⟨hsized, hunowned, hapart, ?_⟩
    intro z
    rw [← howned z, State.Owned, hmajors]
    rfl
  have hregs : t + 16 ≤ t + 32 ∧ t + 32 + 8 ≤ t + threadSize := by
    unfold threadSize
    omega
  have h₆ : Assembled k p t threads [(dir, dir + pageDirSize)] s₆ :=
    h₅.changed (.inr hregs) hr₆ hgiven₆ hkept₆
  obtain ⟨h₈, hdir₈, hstack₈⟩ := h₆.filetable hdir₆ hstack₆ k.consoleFile
  have hfew : (schedMakeFiletable s₆ p k.consoleFile).mm.nframes < 2 ^ 20 := hr₆.sound.managed.few
  refine ⟨p, ⟨schedMakeFiletable s₆ p k.consoleFile, k.globalPid + 1, k.consoleFile⟩, ?_, hp0,
    ⟨h₈.ready, rfl, t, threads, dir, f, h₈.given, h₈.fields, hdir₈, hstack₈.copied hfew hdir₈⟩⟩
  have hc₄' : (archSchedMkInitialRegs (initThread s₃ p t threads comm k.globalPid) (t + threadRegs)
      cr3).archSchedMakeAddressSpace p = .ok (0, s₄) := hc₄
  rw [schedMkProcess, if_neg (by omega)]
  simp only [hc₁, hc₂, hc₃, hc₄', hc₆, ok_bind, if_neg hp0, if_neg ht0, if_neg ha0, ne_eq,
    not_true_eq_false, if_false]
  rfl

theorem initThread_live (s : State) (p t threads comm pid : Nat) :
    (initThread s p t threads comm pid).live = s.live := rfl

theorem archSchedMkInitialRegs_live (s : State) (r : Nat) (cr3 : BitVec 32) :
    (archSchedMkInitialRegs s r cr3).live = s.live := rfl

theorem setInsPtr_live (s : State) (t entry : Nat) : (setInsPtr s t entry).live = s.live := rfl

theorem addressSpace_live {s t : State} {p : Nat} {e : Int}
    (h : s.archSchedMakeAddressSpace p = .ok (e, t)) : s.live.length ≤ t.live.length := by
  obtain ⟨⟨dir, s₁⟩, hcopy, h⟩ := bind_eq_ok.mp h
  obtain ⟨⟨q, s₂⟩, hcall, hcopy⟩ := bind_eq_ok.mp hcopy
  have hcount := (kmalloc_live (by decide) hcall).1
  have hcopied : s₁.live = s₂.live := by
    simp only at hcopy
    split_ifs at hcopy
    · cases hcopy
      rfl
    · cases hcopy
      rfl
  rw [← hcopied] at hcount
  simp only at h
  split_ifs at h
  · cases h
    exact hcount
  · cases h
    exact hcount

theorem createStack_live {s s' : State} {t : Nat} {e : Int} (h : schedCreateStack s t = .ok (e, s')) :
    s'.live = s.live := by
  rw [schedCreateStack] at h
  split_ifs at h
  · cases h
    rfl
  · obtain ⟨⟨page, mm⟩, -, h⟩ := bind_eq_ok.mp h
    simp only at h
    split_ifs at h
    · cases h
      rfl
    · cases h
      rfl

/-- Where `sched_mk_process` returns 0 it keeps what it has allocated, all of it but the process. -/
theorem schedMkProcess_leaks {k k' : Kernel} {cr3 : BitVec 32} {comm entry : Nat} (hk : k.heap.Ready)
    (hcomm : comm ≠ 0) (hentry : entry ≠ 0) (h : schedMkProcess k cr3 comm entry = .ok (0, k')) :
    k.heap.live.length < k'.heap.live.length := by
  rw [schedMkProcess, if_neg (by omega)] at h
  obtain ⟨⟨p, s₁⟩, hc₁, h⟩ := bind_eq_ok.mp h
  obtain ⟨hp0, honline⟩ := hk.kmalloc_ne_zero (by decide) (by decide) hc₁
  have hfirst := (kmalloc_live (by decide) hc₁).2 hk.sound.managed.online hp0
  simp only [if_neg hp0] at h
  obtain ⟨⟨t, s₂⟩, hc₂, h⟩ := bind_eq_ok.mp h
  obtain ⟨hmore, hsecond⟩ := kmalloc_live (by decide) hc₂
  simp only at h
  split_ifs at h with ht0
  · cases h
    change k.heap.live.length < s₂.live.length
    omega
  have hboth := hsecond honline ht0
  obtain ⟨⟨threads, s₃⟩, hc₃, h⟩ := bind_eq_ok.mp h
  have hthird := (kmalloc_live (by decide) hc₃).1
  simp only at h
  split_ifs at h with ha0
  · cases h
    change k.heap.live.length < s₃.live.length
    omega
  obtain ⟨⟨e, s₄⟩, hc₄, h⟩ := bind_eq_ok.mp h
  have hfourth := addressSpace_live hc₄
  rw [archSchedMkInitialRegs_live, initThread_live] at hfourth
  obtain ⟨⟨r, s₅⟩, hc₅, h⟩ := bind_eq_ok.mp h
  have hstack : s₅.live = s₄.live := (createStack_live hc₅).trans (setInsPtr_live _ _ _)
  simp only at h
  split_ifs at h with hr
  · obtain ⟨s₆, hfree, h⟩ := bind_eq_ok.mp h
    cases h
    have hfreed := newFree_live hfree
    rw [hstack] at hfreed
    change k.heap.live.length < s₆.live.length
    omega
  · cases h
    exact absurd rfl hp0

/-- `sched_mk_process` is all or nothing exactly where it has nothing to undo. -/
theorem makesRight_iff {k : Kernel} {cr3 : BitVec 32} {comm entry : Nat} (hk : k.heap.Ready) :
    MakesRight k cr3 comm entry ↔ comm = 0 ∨ entry = 0 ∨ Provided k cr3 comm entry := by
  constructor
  · rintro ⟨r, k', hcall, hzero, -, hfails⟩
    by_contra hnot
    obtain ⟨hcomm, hentry, hprovided⟩ : comm ≠ 0 ∧ entry ≠ 0 ∧ ¬Provided k cr3 comm entry := by tauto
    obtain rfl := hfails hcomm hentry hprovided
    have hsame := (hzero rfl).live.length_eq
    have hmore := schedMkProcess_leaks hk hcomm hentry hcall
    omega
  · intro h
    by_cases hnull : comm = 0 ∨ entry = 0
    · have hrestored : Restored k.heap k.heap := ⟨List.Perm.refl _, fun _ _ => rfl⟩
      have hcall : schedMkProcess k cr3 comm entry = .ok (0, k) := by rw [schedMkProcess, if_pos hnull]
      exact ⟨0, k, hcall, fun _ => hrestored, fun h0 => absurd rfl h0, fun _ _ _ => rfl⟩
    · obtain ⟨hcomm, hentry, hprovided⟩ : comm ≠ 0 ∧ entry ≠ 0 ∧ Provided k cr3 comm entry := by tauto
      obtain ⟨p, k', hcall, hp0, hcreated⟩ := schedMkProcess_created hk hcomm hentry hprovided
      exact ⟨p, k', hcall, fun h0 => absurd h0 hp0, fun _ => hcreated,
        fun _ _ hnone => absurd hprovided hnone⟩

end Levos.Liballoc
