import Levos.Liballoc.Processes
import Levos.Memory.AddressSpace

namespace Levos.Liballoc

open Levos.Framework Levos.Memory

section Occupy

variable {s t : State} {M : Major} {pl : Place} {i size n p a : Nat}

/-- The end of a placement clears bytes behind the pointer that it returns. -/
theorem occupy_from (h : occupy s i M pl size n = .ok (p, t)) (hp : a ≤ p)
    (hheads : Memory.Agree 0 a s.mm.mem (occupyMem s.mm.mem M pl size n)) : WritesFrom a s.mm t.mm := by
  obtain ⟨rfl, -, -⟩ := occupy_ptr h
  simp only [occupy] at h
  split_ifs at h
  · cases h
    exact ⟨rfl, hheads⟩
  · cases h
    refine ⟨rfl, fun z h1 h2 => ?_⟩
    exact (Memory.fill_apply (by omega)).trans (hheads z h1 h2)

/-- In a block that has room nothing in front of the block is written. -/
theorem occupy_block (hM : M.Sound) (hroom : M.room (n + 32) = some pl)
    (hsize : n + 32 + minorHeader < 2 ^ 32) (h : occupy s i M pl (n + 32) n = .ok (p, t)) :
    M.addr ≤ p ∧ WritesFrom M.addr s.mm t.mm := by
  have hgap := hM.room_gap hsize hroom
  have hb := hM.gap_bounds pl
  have hhigh := hM.high
  have haddr := hM.newMinor_addr pl (n + 32) n
  have hptr := newMinor_bounds hM hroom hsize
  have hstop : (M.newMinor pl (n + 32) n).stop < 2 ^ 32 := by
    unfold Minor.stop
    rw [haddr]
    change M.gapStart pl + minorHeader + (n + 32) < 2 ^ 32
    omega
  obtain ⟨hp, -, -⟩ := occupy_ptr h
  have hbehind : M.addr ≤ p := by omega
  refine ⟨hbehind, occupy_from h hbehind fun z _ hz => ?_⟩
  apply occupyMem_apply hstop rfl ⟨.inl hz, fun m hm => .inl ?_⟩ (.inl (by omega))
  have := hM.bounds hm
  omega

/-- Nor in a block on new pages, wherever its end is. -/
theorem occupy_new {g : Nat} (hg : g < 2 ^ 20)
    (h : occupy s i (newMajor (0x1000 * g) size) .case2 size n = .ok (p, t)) :
    0x1000 * g ≤ p ∧ WritesFrom (0x1000 * g) s.mm t.mm := by
  have haddr : ((newMajor (0x1000 * g) size).newMinor .case2 size n).addr = 0x1000 * g + 24 := by
    change wrap (0x1000 * g + majorHeader) = 0x1000 * g + 24
    exact wrap_of_lt (by unfold majorHeader; omega)
  have hbehind : wrap (0x1000 * g + 24 + minorHeader) = 0x1000 * g + 48 := by
    unfold minorHeader
    exact wrap_of_lt (by omega)
  have hb := align_bounds (a := 0x1000 * g + 48) (by omega)
  obtain ⟨hp, -, -⟩ := occupy_ptr h
  have hptr : p = (align (0x1000 * g + 48)).1 := by rw [hp, Minor.ptr, haddr, hbehind]
  refine ⟨by omega, occupy_from h (by omega) fun z _ hz => ?_⟩
  have hinfo : sub32 ((newMajor (0x1000 * g) size).newMinor .case2 size n).ptr 16 = p - 16 := by
    rw [← hp]
    exact sub32_eq (by omega) (by omega)
  change setByte _ (sub32 ((newMajor (0x1000 * g) size).newMinor .case2 size n).ptr 16) _ z = _
  rw [hinfo, setByte, if_neg (by omega)]
  exact linkMinor_apply (.inl hz) (fun y hy => by cases hy) (fun y hy => by cases hy)
    (.inl (by rw [haddr]; omega))

end Occupy

/-- `new_malloc` leaves `kernel_dir` alone and gives out a block behind it, also where the block reaches
over the end of memory. -/
theorem State.Ready.newMalloc_dir {s t : State} {n p : Nat} (hs : s.Ready) (hsize : n + 80 < 2 ^ 32)
    (hpages : pagesFor (n + 32) < 2 ^ 20) (h : newMalloc s n = .ok (p, t)) :
    KeepsDir s.mm t.mm ∧ s.mm.plp ≤ p := by
  obtain ⟨u, hmalloc, rfl⟩ := newMalloc_ok hsize h
  have hsize' : n + 32 + majorHeader + minorHeader < 2 ^ 32 := by
    unfold majorHeader minorHeader
    omega
  have hbehind (M : Major) (hM : M ∈ s.majors) : s.mm.plp ≤ M.addr := (hs.sound.chunks M hM).behind
  have hlayout := hs.sound.managed.layout
  obtain ⟨s₁, i, M, pl, -, hoccupy, hdir, hblock⟩ :=
    mallocLocked_ends (s := s.locked) hs.sound.managed hbehind hsize' hpages hmalloc
  rcases hblock with ⟨hM, hroom⟩ | ⟨g, hg, hlt, rfl, rfl⟩
  · obtain ⟨hp, hwrites⟩ := occupy_block (hs.sound.blocks M hM) hroom (by unfold minorHeader; omega) hoccupy
    have hlow := hbehind M hM
    exact ⟨hdir.writes hlayout hlow hwrites, by omega⟩
  · obtain ⟨hp, hwrites⟩ := occupy_new hlt hoccupy
    have hlow : s.mm.plp ≤ 0x1000 * g := hg
    exact ⟨hdir.writes hlayout hlow hwrites, by omega⟩

theorem State.Ready.spares {s : State} (hs : s.Ready) : Spares s.newMallocMm s.mm := by
  intro q mm hcall _
  cases hmalloc : newMalloc s pageDirSize with
  | error e =>
    rw [State.newMallocMm, hmalloc] at hcall
    cases hcall
  | ok r =>
    rw [State.newMallocMm, hmalloc] at hcall
    cases hcall
    obtain ⟨hkeeps, hbehind⟩ := hs.newMalloc_dir (by decide) (by decide) hmalloc
    have hdir := hs.sound.managed.layout.dir
    exact ⟨hkeeps.vars.kernelDir, hkeeps.vars.heapOnline, hkeeps.mem, .inr (by omega)⟩

/-- A process that is given a copy of `kernel_dir`, and the calls that come after it. With the heap online
the copy shows itself, and a call that needs a table panics. Before that, switching to the copy shows its
own entries along the whole run exactly when no call maps a page in `kernel_dir` or in the copy, and what
only the copy was given is never visible elsewhere. -/
theorem addressSpace_exact_iff {D : List Nat} {s : State} {s₁ : Mm} {q : Nat} (hr : Rooted D s.mm)
    (hready : s.mm.heapOnline = true → s.Ready)
    (hmake : archSchedMakeAddressSpace s.newMallocMm s.mm = .ok (some q, s₁)) :
    (s.mm.heapOnline = true → Sees (Absent s.mm) q s₁ ∧
      ∀ d, d = s.mm.kernelDir ∨ d = q → ∀ a < 2 ^ 32, Absent s.mm (a / 0x1000 / 1024) →
        getPage s₁ a true d = .error (.panic "liballoc does not support align yet\n")) ∧
    (s.mm.heapOnline = false → ∀ calls s', (∀ c ∈ calls, InTables (Absent s.mm) (q :: D) c) →
      Run MapStep s₁ calls s' →
      ((∀ ms t, ms <+: calls → Run MapStep s₁ ms t →
        Sees (Absent s.mm) q t ∧ Hidden (Absent s.mm) D q ms t) ↔
        ∀ c ∈ calls, c.dir ≠ s.mm.kernelDir ∧ c.dir ≠ q) ∧
      ∀ ms t, ms <+: calls → Run MapStep s₁ ms t → Hidden (Absent s.mm) D q ms t) :=
  ⟨fun hon => makeAddressSpace_online hr hon (hready hon).spares hmake,
    fun hoff _ _ hcalls hrun => makeAddressSpace_offline hr hoff hmake hcalls hrun⟩

section Witness

theorem usedMemory_rooted (n : Nat) : Rooted [0x101000] (usedMemory n) := by
  have hdir : (usedMemory n).kernelDir = 0x101000 := rfl
  have hnframes : (usedMemory n).nframes = 0x120 := rfl
  have hwords : (usedMemory n).frameWords = 18 := by
    rw [Mm.frameWords, hnframes]
    decide
  have hone (d : Nat) (hd : d ∈ [0x101000]) : d = 0x101000 := List.mem_singleton.mp hd
  have hzero (d : Nat) (hd : d ∈ [0x101000]) (t : Nat) (hA : Absent (usedMemory n) t) :
      (usedMemory n).table d t = 0 := by
    rw [hone d hd]
    exact hA
  refine ⟨⟨?_, ?_, ?_, ?_, ?_, ?_, ?_⟩, by simp [hdir], ?_⟩
  · intro d hd
    rw [hone d hd, hwords]
    exact (by decide : 0x100000 + 4 * 18 ≤ 0x101000)
  · intro d hd
    rw [hone d hd]
    exact (by decide : 0x101000 + pageDirSize ≤ 0x105000)
  · exact (by decide : 0x105000 < 2 ^ 32)
  · intro d hd e he hne
    exact absurd ((hone d hd).trans (hone e he).symm) hne
  · intro d hd t ht hA hne
    exact absurd (hzero d hd t hA) hne
  · intro d hd e he t ht u hu hAt hAu hne
    exact absurd (hzero d hd t hAt) hne
  · intro d hd t ht hA
    rw [hzero d hd t hA, if_pos rfl, hone d hd]
    have hbyte (i : Nat) (hi : i < 4) : (usedMemory n).mem (0x101000 + 4 * t + i) = 0#8 := by
      have hlow : 0x101000 ≤ 0x101000 + 4 * t + i := by omega
      have hhigh : 0x101000 + 4 * t + i < 0x102000 := by omega
      generalize 0x101000 + 4 * t + i = x at hlow hhigh
      simp only [usedMemory, show ¬(0x100000 ≤ x ∧ x < 0x100040) by omega, show ¬x = 0x102001 by omega,
        show ¬x = 0x102002 by omega, show ¬(x = 0x103001 ∨ x = 0x103002) by omega, if_false]
    have hfirst := hbyte 0 (by decide)
    rw [Nat.add_zero] at hfirst
    rw [Mm.phyTable, Memory.word, hbyte 1 (by decide), hbyte 2 (by decide), hbyte 3 (by decide), hfirst]
    rfl
  · intro e he
    rw [hone e he, hdir]
    have hbyte (x : Nat) (hx : 0x103000 ≤ x) : (usedMemory n).mem x =
        if x = 0x103001 ∨ x = 0x103002 then 0x10#8 else 0#8 := by
      simp only [usedMemory, show ¬(0x100000 ≤ x ∧ x < 0x100040) by omega, show ¬x = 0x102001 by omega,
        show ¬x = 0x102002 by omega, if_false]
    rw [Mm.phyAddr, Memory.word, hbyte _ (by decide), hbyte _ (by decide), hbyte _ (by decide),
      hbyte _ (by decide)]
    rfl

/-- A second process before the heap is online. -/
def secondProcess : State := ⟨rootedDir.withCopy, 0, [], none⟩

theorem secondProcess_absent {t : Nat} (ht : t < 1024) :
    Absent secondProcess.mm t ↔ Absent rootedDir t := by
  have hsame : rootedDir.withCopy.table 0x101000 t = rootedDir.table 0x101000 t :=
    withCopy_table rootedDir_rooted.spaces (by decide) ht
  change rootedDir.withCopy.table 0x101000 t = 0 ↔ rootedDir.table 0x101000 t = 0
  rw [hsame]

theorem secondProcess_rooted : Rooted [0x104000, 0x101000] secondProcess.mm := by
  obtain ⟨hstart, -⟩ := Copied.start rootedDir_rooted rfl rootedDir_make
  exact ⟨hstart.spaces.mono fun t ht hA => (secondProcess_absent ht).mp hA, by decide, hstart.loaded⟩

theorem secondProcess_make : archSchedMakeAddressSpace secondProcess.newMallocMm secondProcess.mm =
    .ok (some 0x106004, rootedDir.withCopy.withCopy) := rfl

/-- A page behind the kernel's tables, mapped in the directory of the first process only. -/
def privateCall : MapCall := ⟨0x104000, 0x20000000, .dma true true 0x7000⟩

theorem privateCall_absent : Absent rootedDir (privateCall.page / 1024) :=
  rootedDir_fresh.table (by decide)

theorem privateCall_step {D : List Nat} {A : Nat → Prop} {s : Mm} (hs : Spaces D A s) (hD : 0x104000 ∈ D)
    (hoff : s.heapOnline = false) (hroom : s.nextTable < 0x200000) (hin : s.inFrames 0) :
    ∃ s', MapStep s privateCall s' :=
  hs.dma_returns hD (by decide) rfl hoff (by unfold pageTableSize; omega) fun _ => hin

/-- A process is made of a heap that is online; and before that a second one, with a page that is mapped
for the first one. -/
theorem addressSpace_exact_iff_copies :
    (∃ q s₁, archSchedMakeAddressSpace (usedKernel 0x115).heap.newMallocMm (usedMemory 0x115) =
      .ok (some q, s₁) ∧ Sees (Absent (usedMemory 0x115)) q s₁) ∧
    ∃ s₁ s', archSchedMakeAddressSpace secondProcess.newMallocMm secondProcess.mm =
        .ok (some 0x106004, s₁) ∧ Run MapStep s₁ [privateCall] s' ∧
      Sees (Absent secondProcess.mm) 0x106004 s' ∧
      Hidden (Absent secondProcess.mm) [0x104000, 0x101000] 0x106004 [privateCall] s' := by
  constructor
  · have hobs : (do
        let r ← archSchedMakeAddressSpace (usedKernel 0x115).heap.newMallocMm (usedMemory 0x115)
        return r.1.isSome) = .ok true := by decide +kernel
    cases hmake : archSchedMakeAddressSpace (usedKernel 0x115).heap.newMallocMm (usedMemory 0x115) with
    | error e =>
      rw [hmake] at hobs
      cases hobs
    | ok r =>
      obtain ⟨q, s₁⟩ := r
      rw [hmake] at hobs
      cases q with
      | none => cases hobs
      | some q =>
        have hready : (usedKernel 0x115).heap.Ready := usedKernel_ready (by decide)
        exact ⟨q, s₁, rfl, ((addressSpace_exact_iff (usedMemory_rooted 0x115) (fun _ => hready) hmake).1
          rfl).1⟩
  · obtain ⟨hstart, -⟩ := Copied.start secondProcess_rooted rfl secondProcess_make
    have hA : Absent secondProcess.mm (privateCall.page / 1024) :=
      (secondProcess_absent (by decide)).mpr privateCall_absent
    have hcall : InTables (Absent secondProcess.mm) [0x106004, 0x104000, 0x101000] privateCall :=
      ⟨by decide, by decide, hA⟩
    have hnext : rootedDir.withCopy.withCopy.nextTable = 0x109000 := rfl
    obtain ⟨s', hstep⟩ := privateCall_step hstart.spaces (by decide) rfl (by rw [hnext]; decide) (by decide)
    have hiff := ((addressSpace_exact_iff secondProcess_rooted (fun h => by cases h) secondProcess_make).2
      rfl [privateCall] s' (by simpa using hcall) (.single hstep)).1
    have hboth := hiff.mpr (by decide) [privateCall] s' (List.prefix_refl _) (.single hstep)
    exact ⟨_, s', secondProcess_make, .single hstep, hboth⟩

/-- The copy has the page, and the processor does not find it when the copy is switched to. With
the heap online the same call panics. -/
theorem addressSpace_private :
    archSchedMakeAddressSpace noHeap rootedDir = .ok (some 0x104000, rootedDir.withCopy) ∧
    (∃ s', Run MapStep rootedDir.withCopy [privateCall] s' ∧
      ownEntry s' 0x104000 0x20000 ≠ none ∧ loadedEntry s' 0x104000 0x20000 = none ∧
      ¬Sees (Absent rootedDir) 0x104000 s') ∧
    mapPage { rootedDir.withCopy with heapOnline := true } privateCall =
      .error (.panic "liballoc does not support align yet\n") := by
  obtain ⟨hstart, -⟩ := Copied.start rootedDir_rooted rfl rootedDir_make
  have hK : rootedDir.kernelDir ∈ [0x104000, 0x101000] := by decide
  have hcall : InTables (Absent rootedDir) [0x104000, 0x101000] privateCall :=
    ⟨by decide, by decide, privateCall_absent⟩
  have hnext : rootedDir.withCopy.nextTable = 0x107000 := rfl
  obtain ⟨s', hstep⟩ := privateCall_step hstart.spaces (by decide) rfl (by rw [hnext]; decide) (by decide)
  have hpage : privateCall.page = 0x20000 := rfl
  have hA : Absent rootedDir (0x20000 / 1024) := hcall.absent
  obtain ⟨-, -, -, -, -, -, pg, hpresent, -, hview⟩ :=
    hstart.spaces.mapPage hcall.dir hcall.word hcall.absent hstep
  have hown : ownEntry s' 0x104000 0x20000 = some pg := by
    rw [ownEntry, hview 0x104000 (by decide) 0x20000 (by decide) hA,
      if_pos ⟨rfl, hpage.symm⟩]
    simp [hpresent]
  have hafter := hstart.step hcall hK hstep
  have hloaded : loadedEntry s' 0x104000 0x20000 = none := by
    rw [hafter.loadedEntry_eq hK (List.mem_cons_self ..) (by decide) hA]
    refine hafter.absent _ (.inl rfl) 0x20000 (by decide) hA ?_
    intro c hc _
    rw [List.mem_singleton.mp hc]
    decide
  refine ⟨rootedDir_make, ⟨s', .single hstep, by simp [hown], hloaded, ?_⟩, ?_⟩
  · intro hsees
    have hsame := hsees 0x20000 (by decide) hA
    rw [hloaded, hown] at hsame
    cases hsame
  · have hnone : rootedDir.withCopy.table 0x104000 (0x20000000 / 0x1000 / 1024) = 0 :=
      (withCopy_new (by decide)).trans (rootedDir_fresh.table (by decide))
    have hpanic := getPage_online (s := { rootedDir.withCopy with heapOnline := true })
      (a := privateCall.addr) (d := privateCall.dir) rfl hnone
    rw [mapPage, hpanic]
    rfl

end Witness

end Levos.Liballoc
