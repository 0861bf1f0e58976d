import Levos.Memory.Boot
import Levos.Memory.Translation

namespace Levos.Memory

open Levos.Framework

/-- `memcpy` between blocks that do not overlap. -/
def copyBlock (m : Memory) (dst src n : Nat) : Memory :=
  fun x => if dst ≤ x ∧ x < dst + n then m (src + (x - dst)) else m x

/-- `copy_page_dir`: a pointer to the copy, 0 if there is no memory. -/
def copyPageDir (newMalloc : Nat → Mm → Except Fault (Nat × Mm)) (s : Mm) (src : Nat) :
    Except Fault (Nat × Mm) := do
  let (dst, _, s) ← kmalloc newMalloc s pageDirSize false
  if dst = 0 then return (0, s)
  return (dst, { s with mem := copyBlock s.mem dst src pageDirSize })

/-- `arch_sched_make_address_space`, with the `page_dir` that it gives the process; none with
`-ENOMEM`. -/
def archSchedMakeAddressSpace (newMalloc : Nat → Mm → Except Fault (Nat × Mm)) (s : Mm) :
    Except Fault (Option Nat × Mm) := do
  let (ndir, s) ← copyPageDir newMalloc s s.kernelDir
  if ndir = 0 then return (none, s)
  return (some ndir, s)

/-- `switch_page_dir`, with what it loads into cr3. -/
def switchPageDir (s : Mm) (d : Nat) : Nat × Mm := (s.phyAddr d, { s with currentDirectory := d })

/-- The entry of page `g` that the processor finds once `d` is switched to. -/
def loadedEntry (s : Mm) (d g : Nat) : Option Page := mmuEntry s.mem (switchPageDir s d).1 g

/-- The entry of page `g` that `d` itself holds, as far as it is present. -/
def ownEntry (s : Mm) (d g : Nat) : Option Page := (s.view d g).filter fun pg => pg.present

/-- The tables that `kernel_dir` does not have. -/
def Absent (s : Mm) (t : Nat) : Prop := s.table s.kernelDir t = 0

/-- The directories of a kernel that has switched paging on: `kernel_dir` and the copies of it that
processes were given, which all carry its `phy_addr`. -/
structure Rooted (D : List Nat) (s : Mm) : Prop where
  spaces : Spaces D (Absent s) s
  kernel : s.kernelDir ∈ D
  loaded : ∀ e ∈ D, s.phyAddr e = s.kernelDir

/-- Switching to `q` shows exactly the entries of `q`, in the tables that `A` selects. -/
def Sees (A : Nat → Prop) (q : Nat) (s : Mm) : Prop :=
  ∀ g < 2 ^ 20, A (g / 1024) → loadedEntry s q g = ownEntry s q g

/-- A page that the calls `ms` gave to `q` only is not visible from any directory of `D`. -/
def Hidden (A : Nat → Prop) (D : List Nat) (q : Nat) (ms : List MapCall) (s : Mm) : Prop :=
  ∀ e ∈ D, ∀ g < 2 ^ 20, A (g / 1024) → (∀ c ∈ ms, c.page = g → c.dir = q) → loadedEntry s e g = none

theorem word_copyBlock {m : Memory} {dst src n i : Nat} (hi : i + 4 ≤ n) :
    (copyBlock m dst src n).word (dst + i) = m.word (src + i) := by
  have byte (j : Nat) (hj : j < 4) : copyBlock m dst src n (dst + i + j) = m (src + i + j) := by
    unfold copyBlock
    rw [if_pos (by omega)]
    congr 1
    omega
  have h0 : copyBlock m dst src n (dst + i) = m (src + i) := byte 0 (by omega)
  rw [Memory.word, Memory.word, byte 3 (by omega), byte 2 (by omega), byte 1 (by omega), h0]

theorem agree_copyBlock {m : Memory} {dst src n lo hi : Nat} (h : dst + n ≤ lo ∨ hi ≤ dst) :
    Memory.Agree lo hi m (copyBlock m dst src n) :=
  fun _ _ _ => if_neg (by omega)

/-- The state behind a copy of `kernel_dir` that was placed at `plp`. -/
def Mm.withCopy (s : Mm) : Mm :=
  { s with plp := s.plp + pageDirSize, mem := copyBlock s.mem s.plp s.kernelDir pageDirSize }

/-- Every word of the directory is copied, `phy_addr` too. -/
theorem copy_words (m : Memory) (q K : Nat) {i : Nat} (hi : i < 2049) :
    (copyBlock m q K pageDirSize).word (q + 4 * i) = m.word (K + 4 * i) :=
  word_copyBlock (by unfold pageDirSize; omega)

theorem copy_table (s : Mm) (m : Memory) (q K : Nat) {t : Nat} (ht : t < 1024)
    (hm : ∀ i < 2049, s.mem.word (q + 4 * i) = m.word (K + 4 * i)) :
    s.table q t = (m.word (K + 4096 + 4 * t)).toNat := by
  have := hm (1024 + t) (by omega)
  rw [show q + 4 * (1024 + t) = q + 4096 + 4 * t by omega,
    show K + 4 * (1024 + t) = K + 4096 + 4 * t by omega] at this
  exact congrArg BitVec.toNat this

section WithCopy

variable {D : List Nat} {A : Nat → Prop} {s : Mm} {e : Nat}

theorem withCopy_old (hs : Spaces D A s) (he : e ∈ D) {i : Nat} (hi : i < 2049) :
    s.withCopy.mem.word (e + 4 * i) = s.mem.word (e + 4 * i) := by
  have hdir := hs.dir e he
  unfold pageDirSize at hdir
  have hagree : Memory.Agree e (e + 8196) s.mem s.withCopy.mem := agree_copyBlock (.inr hdir)
  exact hagree.word (by omega) (by omega)

theorem withCopy_table (hs : Spaces D A s) (he : e ∈ D) {t : Nat} (ht : t < 1024) :
    s.withCopy.table e t = s.table e t :=
  copy_table s.withCopy s.mem e e ht fun _ hi => withCopy_old hs he hi

theorem withCopy_new {t : Nat} (ht : t < 1024) :
    s.withCopy.table s.plp t = s.table s.kernelDir t :=
  copy_table s.withCopy s.mem s.plp s.kernelDir ht fun _ hi => copy_words s.mem _ _ hi

/-- The copy is one more directory beside the others, which stay what they were. -/
theorem withCopy_spaces (hs : Spaces D (Absent s) s) (hK : s.kernelDir ∈ D)
    (hroom : s.plp + pageDirSize < 2 ^ 32) : Spaces (s.plp :: D) (Absent s) s.withCopy := by
  have hplp : s.withCopy.plp = s.plp + pageDirSize := rfl
  have hnone (t : Nat) (ht : t < 1024) (hA : Absent s t) : s.withCopy.table s.plp t = 0 :=
    (withCopy_new ht).trans hA
  refine ⟨?_, ?_, hroom, ?_, ?_, ?_, ?_⟩
  · intro d hd
    have hb := hs.bitmap _ hK
    have hk := hs.dir _ hK
    change s.frames + 4 * s.frameWords ≤ d
    rcases List.mem_cons.mp hd with rfl | hd
    · omega
    · exact hs.bitmap d hd
  · intro d hd
    rcases List.mem_cons.mp hd with rfl | hd
    · exact Nat.le_refl _
    · have := hs.dir d hd
      omega
  · intro d hd e he hne
    rcases List.mem_cons.mp hd with rfl | hd
    · rcases List.mem_cons.mp he with rfl | he
      · exact absurd rfl hne
      · exact .inr (hs.dir e he)
    · rcases List.mem_cons.mp he with rfl | he
      · exact .inl (hs.dir d hd)
      · exact hs.beside d hd e he hne
  · intro d hd t ht hA hne
    rcases List.mem_cons.mp hd with rfl | hd
    · exact absurd (hnone t ht hA) hne
    · rw [withCopy_table hs hd ht] at hne ⊢
      obtain ⟨h1, h2, h3, h4⟩ := hs.table d hd t ht hA hne
      refine ⟨h1, h2, by omega, ?_⟩
      intro e he
      rcases List.mem_cons.mp he with rfl | he
      · exact .inl h3
      · exact h4 e he
  · intro d hd e he t ht u hu hAt hAu hne heq
    rcases List.mem_cons.mp hd with rfl | hd
    · exact absurd (hnone t ht hAt) hne
    · rcases List.mem_cons.mp he with rfl | he
      · exact absurd (heq.trans (hnone u hu hAu)) hne
      · rw [withCopy_table hs hd ht] at hne heq
        rw [withCopy_table hs he hu] at heq
        exact hs.apart d hd e he t ht u hu hAt hAu hne heq
  · intro d hd t ht hA
    rcases List.mem_cons.mp hd with rfl | hd
    · have hlink := hs.linked _ hK t ht hA
      have h0 : s.table s.kernelDir t = 0 := hA
      rw [hnone t ht hA, if_pos rfl]
      rw [if_pos h0] at hlink
      exact (copy_words s.mem s.plp s.kernelDir (by omega)).trans hlink
    · rw [withCopy_table hs hd ht]
      exact (withCopy_old hs hd (by omega)).trans (hs.linked d hd t ht hA)

end WithCopy

/-- Before the heap is online the copy lies where `plp` stood. -/
theorem archSchedMakeAddressSpace_eq {s s₁ : Mm} {q : Nat}
    (newMalloc : Nat → Mm → Except Fault (Nat × Mm)) (hoff : s.heapOnline = false) (h0 : s.plp ≠ 0)
    (hmake : archSchedMakeAddressSpace newMalloc s = .ok (some q, s₁)) :
    q = s.plp ∧ s.plp + pageDirSize < 2 ^ 32 ∧ s₁ = s.withCopy := by
  obtain ⟨⟨ndir, s₂⟩, hcopy, hmake⟩ := bind_eq_ok.mp hmake
  obtain ⟨⟨dst, phys, s₃⟩, hblock, hcopy⟩ := bind_eq_ok.mp hcopy
  rw [kmalloc, if_neg (by simp [hoff])] at hblock
  obtain ⟨rfl, rfl, hlt, rfl⟩ := placeBlock_ok hblock
  rw [(blockStart_spec s false).2.2.2 rfl] at hcopy hlt
  simp only [if_neg h0] at hcopy
  cases hcopy
  simp only [if_neg h0] at hmake
  cases hmake
  exact ⟨rfl, hlt, rfl⟩

/-- A process with its copy `q`, when `kernel_dir` stands at `K` and the calls `ms` have come after
the copy: `phy_addr` is that of the kernel everywhere, and pages that no call gave to `K` or to `q`
are not there. -/
structure Copied (A : Nat → Prop) (D : List Nat) (K q : Nat) (ms : List MapCall) (s : Mm) : Prop where
  spaces : Spaces (q :: D) A s
  loaded : ∀ e ∈ q :: D, s.phyAddr e = K
  absent : ∀ e, e = K ∨ e = q → ∀ g < 2 ^ 20, A (g / 1024) →
    (∀ c ∈ ms, c.page = g → c.dir ≠ e) → ownEntry s e g = none

/-- A call that maps a page of a table that `kernel_dir` did not have, in one of the directories. -/
structure InTables (A : Nat → Prop) (D : List Nat) (c : MapCall) : Prop where
  dir : c.dir ∈ D
  word : c.addr < 2 ^ 32
  absent : A (c.page / 1024)

namespace Copied

variable {A : Nat → Prop} {D : List Nat} {K q g : Nat} {ms : List MapCall} {s s' : Mm} {c : MapCall}

theorem start {s s₁ : Mm} {newMalloc : Nat → Mm → Except Fault (Nat × Mm)} (hr : Rooted D s)
    (hoff : s.heapOnline = false)
    (hmake : archSchedMakeAddressSpace newMalloc s = .ok (some q, s₁)) :
    Copied (Absent s) D s.kernelDir q [] s₁ ∧ q ∉ D := by
  have hk := hr.spaces.dir _ hr.kernel
  unfold pageDirSize at hk
  obtain ⟨rfl, hroom, rfl⟩ := archSchedMakeAddressSpace_eq newMalloc hoff (by omega) hmake
  refine ⟨⟨withCopy_spaces hr.spaces hr.kernel hroom, ?_, ?_⟩, ?_⟩
  · intro e he
    rcases List.mem_cons.mp he with rfl | he
    · have hword : s.withCopy.phyAddr s.plp = s.phyAddr s.kernelDir :=
        congrArg BitVec.toNat (copy_words s.mem s.plp s.kernelDir (i := 2048) (by omega))
      exact hword.trans (hr.loaded _ hr.kernel)
    · have hword : s.withCopy.phyAddr e = s.phyAddr e :=
        congrArg BitVec.toNat (withCopy_old hr.spaces he (i := 2048) (by omega))
      exact hword.trans (hr.loaded e he)
  · intro e he g hg hA _
    have ht : s.withCopy.table e (g / 1024) = 0 := by
      rcases he with rfl | rfl
      · rw [withCopy_table hr.spaces hr.kernel (by omega)]
        exact hA
      · rw [withCopy_new (by omega)]
        exact hA
    rw [ownEntry, Mm.view, if_pos ht]
    rfl
  · intro hq
    have := hr.spaces.dir _ hq
    unfold pageDirSize at this
    omega

theorem step (h : Copied A D K q ms s) (hc : InTables A (q :: D) c) (hK : K ∈ q :: D)
    (hstep : MapStep s c s') : Copied A D K q (ms ++ [c]) s' := by
  obtain ⟨hspaces, -, -, -, -, hphy, pg, -, -, hview⟩ :=
    h.spaces.mapPage hc.dir hc.word hc.absent hstep
  refine ⟨hspaces, fun e he => (hphy e he).trans (h.loaded e he), ?_⟩
  intro e he g hg hA hnone
  have hmem : e ∈ q :: D := by
    rcases he with rfl | rfl
    · exact hK
    · exact List.mem_cons_self ..
  have hold := h.absent e he g hg hA fun c' hc' => hnone c' (List.mem_append_left _ hc')
  have hne : ¬(e = c.dir ∧ g = c.page) := fun heq => hnone c (by simp) heq.2.symm heq.1.symm
  have hempty : (Page.ofWord 0#32).present = false := by decide
  unfold ownEntry at hold ⊢
  rw [hview e hmem g hg hA, if_neg hne]
  split_ifs
  · simp [hempty]
  · exact hold

theorem run {calls : List MapCall} {s₁ : Mm} (h : Copied A D K q [] s₁) (hK : K ∈ q :: D)
    (hcalls : ∀ c ∈ calls, InTables A (q :: D) c) (hrun : Run MapStep s₁ calls s) :
    Copied A D K q calls s := by
  have hinv := hrun.historyInvariant
    (fun ms s => (∀ c ∈ ms, InTables A (q :: D) c) → Copied A D K q ms s) ?_ [] fun _ => h
  · exact hinv hcalls
  · intro ms s c s' ih hstep hms
    have hold := ih fun c' hc' => hms c' (List.mem_append_left _ hc')
    exact hold.step (hms c (by simp)) hK hstep

/-- Whatever is switched to, the processor walks through the tables of `kernel_dir`. -/
theorem loadedEntry_eq (h : Copied A D K q ms s) (hK : K ∈ q :: D) {e : Nat} (he : e ∈ q :: D)
    (hg : g < 2 ^ 20) (hA : A (g / 1024)) : loadedEntry s e g = ownEntry s K g := by
  rw [loadedEntry, switchPageDir, h.loaded e he, h.spaces.mmuEntry_eq hK hg hA, ownEntry]

/-- The first call on `kernel_dir` or on `q` makes the two differ. -/
theorem first (h : Copied A D K q ms s) (hc : InTables A (q :: D) c) (hK : K ∈ q :: D) (hne : K ≠ q)
    (hms : ∀ c ∈ ms, c.dir ≠ K ∧ c.dir ≠ q) (hdir : c.dir = K ∨ c.dir = q)
    (hstep : MapStep s c s') : ¬Sees A q s' := by
  intro hsees
  have hg : c.page < 2 ^ 20 := by
    have := hc.word
    unfold MapCall.page
    omega
  have hnext := h.step hc hK hstep
  have hsame := hsees c.page hg hc.absent
  rw [hnext.loadedEntry_eq hK (List.mem_cons_self ..) hg hc.absent] at hsame
  obtain ⟨-, -, -, -, -, -, pg, hpresent, -, hview⟩ :=
    h.spaces.mapPage hc.dir hc.word hc.absent hstep
  have hmapped : ownEntry s' c.dir c.page = some pg := by
    rw [ownEntry, hview c.dir hc.dir c.page hg hc.absent, if_pos ⟨rfl, rfl⟩]
    simp [hpresent]
  have hother (e : Nat) (he : e = K ∨ e = q) (hed : e ≠ c.dir) : ownEntry s' e c.page = none := by
    apply hnext.absent e he c.page hg hc.absent
    intro c' hc' _ hce
    rcases List.mem_append.mp hc' with h1 | h1
    · rcases he with rfl | rfl
      · exact (hms c' h1).1 hce
      · exact (hms c' h1).2 hce
    · rw [List.mem_singleton.mp h1] at hce
      exact hed hce.symm
  rcases hdir with hd | hd
  · rw [← hd, hmapped, hother q (.inr rfl) (fun e => hne (hd.symm.trans e.symm))] at hsame
    cases hsame
  · rw [hother K (.inl rfl) (fun e => hne (e.trans hd)), ← hd, hmapped] at hsame
    cases hsame

theorem sees (h : Copied A D K q ms s) (hK : K ∈ q :: D) (hms : ∀ c ∈ ms, c.dir ≠ K ∧ c.dir ≠ q) :
    Sees A q s := by
  intro g hg hA
  rw [h.loadedEntry_eq hK (List.mem_cons_self ..) hg hA,
    h.absent K (.inl rfl) g hg hA fun c hc _ => (hms c hc).1,
    h.absent q (.inr rfl) g hg hA fun c hc _ => (hms c hc).2]

theorem hidden (h : Copied A D K q ms s) (hK : K ∈ q :: D) (hne : K ≠ q) : Hidden A D q ms s := by
  intro e he g hg hA hcalls
  rw [h.loadedEntry_eq hK (List.mem_cons_of_mem _ he) hg hA]
  apply h.absent K (.inl rfl) g hg hA
  intro c hc hpage hdir
  exact hne (hdir.symm.trans (hcalls c hc hpage))

end Copied

/-- What a heap that is online keeps of `kernel_dir` when it gives out the block of the copy. -/
def Spares (newMalloc : Nat → Mm → Except Fault (Nat × Mm)) (s : Mm) : Prop :=
  ∀ q s', newMalloc pageDirSize s = .ok (q, s') → q ≠ 0 →
    s'.kernelDir = s.kernelDir ∧ s'.heapOnline = s.heapOnline ∧
    Memory.Agree s.kernelDir (s.kernelDir + pageDirSize) s.mem s'.mem ∧
    (q + pageDirSize ≤ s.kernelDir ∨ s.kernelDir + pageDirSize ≤ q)

section Online

variable {s s₁ s₂ : Mm} {q : Nat} {newMalloc : Nat → Mm → Except Fault (Nat × Mm)}

/-- With the heap online the block of the copy comes from `new_malloc`. -/
theorem makeAddressSpace_copies (hon : s.heapOnline = true) (hspare : Spares newMalloc s)
    (hmake : archSchedMakeAddressSpace newMalloc s = .ok (some q, s₁)) :
    ∃ s₂ : Mm, Memory.Agree s.kernelDir (s.kernelDir + pageDirSize) s.mem s₂.mem ∧
      (q + pageDirSize ≤ s.kernelDir ∨ s.kernelDir + pageDirSize ≤ q) ∧ s₂.heapOnline = true ∧
      s₁ = { s₂ with mem := copyBlock s₂.mem q s.kernelDir pageDirSize } := by
  obtain ⟨⟨ndir, s₃⟩, hcopy, hmake⟩ := bind_eq_ok.mp hmake
  obtain ⟨⟨dst, phys, s₂⟩, hblock, hcopy⟩ := bind_eq_ok.mp hcopy
  rw [kmalloc, if_pos hon] at hblock
  simp only [Bool.false_eq_true, if_false] at hblock
  obtain ⟨⟨addr, s₄⟩, hmalloc, hblock⟩ := bind_eq_ok.mp hblock
  cases hblock
  simp only at hcopy hmake
  split_ifs at hcopy with h0
  · cases hcopy
    cases hmake
  · cases hcopy
    rw [if_neg h0] at hmake
    cases hmake
    obtain ⟨-, h2, h3, h4⟩ := hspare q s₄ hmalloc h0
    exact ⟨s₄, h3, h4, h2.trans hon, rfl⟩

/-- The words of `kernel_dir` stand in `kernel_dir` and in the copy. -/
theorem copied_words (hkeep : Memory.Agree s.kernelDir (s.kernelDir + pageDirSize) s.mem s₂.mem)
    (hbeside : q + pageDirSize ≤ s.kernelDir ∨ s.kernelDir + pageDirSize ≤ q) {d i : Nat}
    (hd : d = s.kernelDir ∨ d = q) (hi : i < 2049) :
    (copyBlock s₂.mem q s.kernelDir pageDirSize).word (d + 4 * i) = s.mem.word (s.kernelDir + 4 * i) := by
  cases hd with
  | inl hkernel =>
    rw [hkernel]
    exact (hkeep.trans (agree_copyBlock hbeside)).word (by omega) (by unfold pageDirSize; omega)
  | inr hcopy =>
    rw [hcopy, copy_words s₂.mem q s.kernelDir hi]
    exact hkeep.word (by omega) (by unfold pageDirSize; omega)

/-- With the heap online the copy shows itself, and a table that is missing is never made. -/
theorem makeAddressSpace_online {D : List Nat} (hr : Rooted D s) (hon : s.heapOnline = true)
    (hspare : Spares newMalloc s)
    (hmake : archSchedMakeAddressSpace newMalloc s = .ok (some q, s₁)) :
    Sees (Absent s) q s₁ ∧ ∀ d, d = s.kernelDir ∨ d = q → ∀ a < 2 ^ 32,
      Absent s (a / 0x1000 / 1024) →
      getPage s₁ a true d = .error (.panic "liballoc does not support align yet\n") := by
  obtain ⟨s₂, hkeep, hbeside, hon₂, rfl⟩ := makeAddressSpace_copies hon hspare hmake
  let m := copyBlock s₂.mem q s.kernelDir pageDirSize
  have hword {d i : Nat} (hd : d = s.kernelDir ∨ d = q) (hi : i < 2049) :
      m.word (d + 4 * i) = s.mem.word (s.kernelDir + 4 * i) := copied_words hkeep hbeside hd hi
  have hnone (d : Nat) (hd : d = s.kernelDir ∨ d = q) (t : Nat) (ht : t < 1024) (hA : Absent s t) :
      ({ s₂ with mem := m } : Mm).table d t = 0 :=
    (copy_table { s₂ with mem := m } s.mem d s.kernelDir ht fun i hi => hword hd hi).trans hA
  constructor
  · intro g hg hA
    have hA0 : s.table s.kernelDir (g / 1024) = 0 := hA
    have hcr3 : ({ s₂ with mem := m } : Mm).phyAddr q = s.kernelDir :=
      (congrArg BitVec.toNat (hword (i := 2048) (.inr rfl) (by omega))).trans (hr.loaded _ hr.kernel)
    have hpde : m.word (s.kernelDir + 4 * (g / 1024)) = 0 := by
      have hlink := hr.spaces.linked _ hr.kernel (g / 1024) (by omega) hA
      rw [if_pos hA0] at hlink
      exact (hword (.inl rfl) (by omega)).trans hlink
    have hwalk : loadedEntry { s₂ with mem := m } q g = none := by
      rw [loadedEntry, switchPageDir, hcr3]
      simp [mmuEntry, hpde]
    have hown : ownEntry { s₂ with mem := m } q g = none := by
      rw [ownEntry, Mm.view, if_pos (hnone q (.inr rfl) _ (by omega) hA)]
      rfl
    exact hwalk.trans hown.symm
  · intro d hd a ha hA
    exact getPage_online hon₂ (hnone d hd _ (by omega) hA)

end Online

/-- Before the heap is online: switching to the copy shows its own entries along the whole run exactly when
no call maps a page in `kernel_dir` or in the copy. What only the copy was given is never visible
elsewhere. -/
theorem makeAddressSpace_offline {D : List Nat} {s s₁ : Mm} {q : Nat}
    {newMalloc : Nat → Mm → Except Fault (Nat × Mm)} (hr : Rooted D s) (hoff : s.heapOnline = false)
    (hmake : archSchedMakeAddressSpace newMalloc s = .ok (some q, s₁)) {calls : List MapCall} {s' : Mm}
    (hcalls : ∀ c ∈ calls, InTables (Absent s) (q :: D) c) (hrun : Run MapStep s₁ calls s') :
    ((∀ ms t, ms <+: calls → Run MapStep s₁ ms t → Sees (Absent s) q t ∧ Hidden (Absent s) D q ms t) ↔
      ∀ c ∈ calls, c.dir ≠ s.kernelDir ∧ c.dir ≠ q) ∧
    ∀ ms t, ms <+: calls → Run MapStep s₁ ms t → Hidden (Absent s) D q ms t := by
  obtain ⟨hstart, hq⟩ := Copied.start hr hoff hmake
  have hK : s.kernelDir ∈ q :: D := List.mem_cons_of_mem _ hr.kernel
  have hne : s.kernelDir ≠ q := fun e => hq (e ▸ hr.kernel)
  have hcopied (ms : List MapCall) (t : Mm) (hbegin : ms <+: calls) (hms : Run MapStep s₁ ms t) :
      Copied (Absent s) D s.kernelDir q ms t :=
    hstart.run hK (fun c hc => hcalls c (hbegin.subset hc)) hms
  have hhidden (ms : List MapCall) (t : Mm) (hbegin : ms <+: calls) (hms : Run MapStep s₁ ms t) :=
    (hcopied ms t hbegin hms).hidden hK hne
  refine ⟨⟨?_, ?_⟩, hhidden⟩
  · intro hall
    by_contra hbad
    push Not at hbad
    -- the first call on one of the two directories
    obtain ⟨ms, c, ns, rfl, hms, hc⟩ : ∃ ms c ns, calls = ms ++ c :: ns ∧
        (∀ c ∈ ms, c.dir ≠ s.kernelDir ∧ c.dir ≠ q) ∧ (c.dir = s.kernelDir ∨ c.dir = q) := by
      obtain ⟨c₀, hc₀, hdir₀⟩ := hbad
      let p : MapCall → Bool := fun c => c.dir = s.kernelDir ∨ c.dir = q
      have hp : (calls.find? p).isSome := by
        rw [List.find?_isSome]
        refine ⟨c₀, hc₀, ?_⟩
        by_cases hk : c₀.dir = s.kernelDir
        · simp [p, hk]
        · simp [p, hdir₀ hk]
      obtain ⟨c, hfind⟩ := Option.isSome_iff_exists.mp hp
      obtain ⟨hpc, ms, ns, heq, hms⟩ := List.find?_eq_some_iff_append.mp hfind
      refine ⟨ms, c, ns, heq, ?_, by simpa [p] using hpc⟩
      intro c' hc'
      simpa [p] using hms c' hc'
    obtain ⟨t, h1, h2⟩ := hrun.split
    cases h2 with
    | @cons _ t' _ _ _ hstep _ =>
      have hbefore := hcopied ms t (List.prefix_append ..) h1
      have hnext := (hall (ms ++ [c]) t' ⟨ns, by simp⟩ (h1.snoc hstep)).1
      exact hbefore.first (hcalls c (by simp)) hK hne hms hc hstep hnext
  · intro hdirs ms t hbegin hms
    refine ⟨?_, hhidden ms t hbegin hms⟩
    exact (hcopied ms t hbegin hms).sees hK fun c hc => hdirs c (hbegin.subset hc)

/-- The machine of `emptyDir` with paging switched on: `phy_addr` is set. -/
def rootedDir : Mm :=
  { emptyDir with
    currentDirectory := 0x101000
    mem := emptyDir.mem.setWord 0x103000 0x101000#32 }

theorem rootedDir_fresh : Fresh rootedDir 0x101000 := by
  obtain ⟨⟨h1, h2, h3, h4⟩, -⟩ := emptyDir_fresh
  refine ⟨h1, h2, h3, ?_⟩
  intro i hi
  exact (Memory.word_setWord_ne (by omega)).trans (h4 i hi)

theorem rootedDir_rooted : Rooted [0x101000] rootedDir := by
  refine ⟨rootedDir_fresh.spaces.mono fun _ _ _ => trivial, by decide, ?_⟩
  intro e he
  obtain rfl := List.mem_singleton.mp he
  exact congrArg BitVec.toNat (Memory.word_setWord _ _ _)

theorem rootedDir_make :
    archSchedMakeAddressSpace noHeap rootedDir = .ok (some 0x104000, rootedDir.withCopy) := rfl

end Levos.Memory
