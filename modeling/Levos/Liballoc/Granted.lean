import Levos.Liballoc.Process
import Levos.Memory.PageRun

namespace Levos.Liballoc

open Levos.Framework Levos.Memory

/-- If no block has room for `n` bytes, the memory manager has the pages of a new one. -/
def Granted (s : State) (n : Nat) : Prop := s.Full (n + 32) → RunMeets s.mm (pagesFor (n + 32))

namespace Managed

variable {s s' : Mm} {n p : Nat}

/-- Frame 0 is in use, so that a request for pages is met by a run that has its tables. -/
theorem run_of_meets (hm : Managed s) (h : RunMeets s n) :
    ∃ f, Memory.FreeRun s f n ∧ (∀ g < f, ¬Memory.FreeRun s g n) ∧ TablesFit s f n := by
  apply h.elim
  · exact fun hrun => hrun.2
  · intro hall
    have hlow := hm.low
    have hkept := hm.kept 0 (by omega)
    rw [hall.2.2 0 (by decide)] at hkept
    cases hkept

/-- Such a run is what `mm_alloc_pages` returns. -/
theorem pages_of_run {f : Nat} (hm : Managed s) (h1 : 1 ≤ n) (hfree : Memory.FreeRun s f n)
    (hlowest : ∀ g < f, ¬Memory.FreeRun s g n) (hfit : TablesFit s f n) :
    ∃ s', Memory.mmAllocPages s n = .ok (0x1000 * f, s') ∧ PagesDone s f n n s' := by
  have hfew := hm.few
  have hlow := hm.low
  have hroom := hm.room
  have hend := hfree.1
  have hfirst := firstNFrames_lowest hfew h1 (by omega) hfree hlowest
  have hin (j : Nat) (hj : j < n) : s.inFrames ((f + j) / 32) := hm.inFrames (by omega)
  rcases pages_loop hm.layout hfew (by omega) hin hfree.2 with ⟨e, -, hnone⟩ | ⟨s', hs', hdone⟩
  · exact absurd hfit hnone
  · refine ⟨s', ?_, hdone⟩
    rw [mmAllocPages_run hfirst (by omega), hs']
    rfl

theorem pages_of_meets (hm : Managed s) (h1 : 1 ≤ n) (h : RunMeets s n) :
    ∃ f s', Memory.FreeRun s f n ∧ Memory.mmAllocPages s n = .ok (0x1000 * f, s') ∧
      PagesDone s f n n s' := by
  obtain ⟨f, hfree, hlowest, hfit⟩ := hm.run_of_meets h
  obtain ⟨s', hcall, hdone⟩ := hm.pages_of_run h1 hfree hlowest hfit
  exact ⟨f, s', hfree, hcall, hdone⟩

/-- What `mm_alloc_pages` returns is a page behind `plp`. -/
theorem page_of_pages (hm : Managed s) (h1 : 1 ≤ n) (h : Memory.mmAllocPages s n = .ok (p, s')) :
    ∃ g, s.plp ≤ 0x1000 * g ∧ g < 2 ^ 20 ∧ p = 0x1000 * g := by
  have hfew := hm.few
  have hroom := hm.room
  obtain ⟨f, hfirst, hrest⟩ := bind_eq_ok.mp h
  obtain ⟨s₁, -, hret⟩ := bind_eq_ok.mp hrest
  have haddr : wrap (f * 0x1000) = p := congrArg Prod.fst (Except.ok.inj hret)
  by_cases hnone : f = 0xFFFFFFFF
  · refine ⟨0xFFFFF, by omega, by decide, ?_⟩
    rw [← haddr, hnone]
    rfl
  · obtain ⟨g, hg, rfl, hfree, -⟩ := firstNFrames_found hfirst hnone
    refine ⟨g, ?_, by omega, haddr.symm.trans (wrap_signedFrame (by omega))⟩
    by_contra hlow
    have hused := hfree 0 h1
    rw [Nat.add_zero, Nat.mod_eq_of_lt (by omega), hm.kept g (by omega)] at hused
    cases hused

end Managed

/-- The block that `allocate_new_page` makes of the pages at `q`. -/
def newMajor (q size : Nat) : Major := ⟨q, pagesFor size, majorHeader, []⟩

theorem newMajor_room {q size : Nat} (hsize : size + majorHeader + minorHeader < 2 ^ 32)
    (hpages : pagesFor size < 2 ^ 20) : (newMajor q size).room size = some .case2 := by
  obtain ⟨-, henough⟩ := pagesFor_spec hsize
  unfold majorHeader minorHeader at *
  have hbytes : (newMajor q size).size = pagesFor size * 4096 := by
    change wrap (pagesFor size * 4096) = pagesFor size * 4096
    exact wrap_of_lt (by omega)
  have hdiff : sub32 (newMajor q size).size (newMajor q size).usage = pagesFor size * 4096 - 24 := by
    change sub32 (newMajor q size).size 24 = pagesFor size * 4096 - 24
    rw [hbytes, sub32_eq (by omega) (by omega)]
  have hneed : wrap (size + 24) = size + 24 := wrap_of_lt (by omega)
  unfold Major.room minorHeader
  rw [hdiff, hneed, if_neg (by omega)]
  rfl

/-- The pointer into a block that lies on a page is not the null pointer. -/
theorem newMajor_ptr {g size reqSize : Nat} (h0 : 0 < g) (hg : g < 2 ^ 20) :
    ((newMajor (0x1000 * g) size).newMinor .case2 (reqSize + 32) reqSize).ptr ≠ 0 := by
  have haddr : ((newMajor (0x1000 * g) size).newMinor .case2 (reqSize + 32) reqSize).addr =
      0x1000 * g + 24 := by
    change wrap (0x1000 * g + majorHeader) = 0x1000 * g + 24
    exact wrap_of_lt (by unfold majorHeader; omega)
  have hbehind : wrap (0x1000 * g + 24 + minorHeader) = 0x1000 * g + 48 := by
    unfold minorHeader
    exact wrap_of_lt (by omega)
  have hb := align_bounds (a := 0x1000 * g + 48) (by omega)
  unfold Minor.ptr
  rw [haddr, hbehind]
  omega

/-- Only the memory differs, and only from `a` on. -/
def WritesFrom (a : Nat) (s t : Mm) : Prop := t = { s with mem := t.mem } ∧ Memory.Agree 0 a s.mem t.mem

theorem WritesFrom.refl (a : Nat) (s : Mm) : WritesFrom a s s := ⟨rfl, .refl⟩

theorem WritesFrom.mono {a b : Nat} {s t : Mm} (h : WritesFrom b s t) (hab : a ≤ b) : WritesFrom a s t :=
  ⟨h.1, h.2.mono (Nat.le_refl 0) hab⟩

theorem WritesFrom.trans {a : Nat} {s t u : Mm} (h : WritesFrom a s t) (k : WritesFrom a t u) :
    WritesFrom a s u := by
  refine ⟨?_, h.2.trans k.2⟩
  rw [k.1, h.1]

/-- What liballoc leaves of the memory manager: its variables, and the directory. -/
structure KeepsDir (s t : Mm) : Prop where
  vars : SameVars s t
  plp : t.plp = s.plp
  mem : Memory.Agree s.kernelDir (s.kernelDir + pageDirSize) s.mem t.mem

namespace KeepsDir

variable {s t u : Mm}

theorem refl (s : Mm) : KeepsDir s s := ⟨.refl s, rfl, .refl⟩

theorem ofPages {n p : Nat} (hm : Managed s) (h : mmAllocPages s n = .ok (p, t)) : KeepsDir s t := by
  obtain ⟨hv, hplp, hmem⟩ := Managed.allocPages hm.layout hm.online h
  exact ⟨hv, hplp, fun z h1 h2 => hmem z (.inr ⟨h1, h2⟩)⟩

/-- Writes behind `plp` do not reach the directory. -/
theorem writes {a : Nat} (h : KeepsDir s t) (hl : Layout s) (ha : s.plp ≤ a) (k : WritesFrom a t u) :
    KeepsDir s u := by
  have hdir := hl.dir
  have hu := k.1
  refine ⟨?_, ?_, h.mem.trans (k.2.mono (Nat.zero_le _) (by omega))⟩
  · rw [hu]
    exact h.vars.trans rfl
  · rw [hu]
    exact h.plp

end KeepsDir

/-- Putting a block at the end writes to it and to the last one. -/
theorem push_from {s : State} {N : Major} {a : Nat} (hN : a ≤ N.addr) (hall : ∀ L ∈ s.majors, a ≤ L.addr) :
    WritesFrom a s.mm (s.push N).mm := by
  refine ⟨rfl, fun z _ hz => push_mem (.inl (by omega)) fun L hL => .inl ?_⟩
  have := hall L hL
  omega

theorem allocateNewPage_pages {s s₁ : State} {size : Nat} {N : Option Major}
    (h : allocateNewPage s size = .ok (N, s₁)) :
    ∃ q mm, mmAllocPages s.mm (pagesFor size) = .ok (q, mm) ∧ s₁.majors = s.majors ∧
      WritesFrom q mm s₁.mm ∧ (q ≠ 0 → N = some (newMajor q size)) := by
  obtain ⟨⟨q, mm⟩, halloc, h⟩ := bind_eq_ok.mp h
  refine ⟨q, mm, halloc, ?_⟩
  by_cases h0 : q = 0
  · simp only [if_pos h0] at h
    cases h
    exact ⟨rfl, .refl q mm, fun hne => absurd h0 hne⟩
  · simp only [if_neg h0] at h
    split_ifs at h
    cases h
    exact ⟨rfl, ⟨rfl, fun z _ hz => setWords_apply (.inl hz)⟩, fun _ => rfl⟩

/-- Where the loop over the blocks ends: at a block that had room before, or at a new one; or the
memory manager has returned 0. -/
def Ends (s t : State) (size : Nat) (r : Option (Nat × Place)) : Prop :=
  (∃ j M pl, r = some (j, pl) ∧ t.mm = s.mm ∧ t.majors = s.majors ∧ s.majors[j]? = some M ∧
    M.room size = some pl) ∨
  ∃ q mm, mmAllocPages s.mm (pagesFor size) = .ok (q, mm) ∧
    (q ≠ 0 → r = some (s.majors.length, .case2) ∧ t.majors = s.majors ++ [newMajor q size] ∧
      ∀ a ≤ q, (∀ M ∈ s.majors, a ≤ M.addr) → WritesFrom a mm t.mm)

theorem search_ends {size fuel i bestSize : Nat} {startedBet : Bool} {s t : State}
    {r : Option (Nat × Place)} (hsize : size + majorHeader + minorHeader < 2 ^ 32)
    (hpages : pagesFor size < 2 ^ 20) (hi : i < s.majors.length)
    (h : search size fuel i startedBet bestSize s = .ok (r, t)) : Ends s t size r := by
  induction fuel generalizing i startedBet bestSize s with
  | zero => cases h
  | succ fuel ih =>
    obtain ⟨M, hM⟩ : ∃ M, s.majors[i]? = some M := ⟨_, List.getElem?_eq_getElem hi⟩
    have hmajors := s.better_majors M bestSize
    have hmm := s.better_mm M bestSize
    rw [search] at h
    simp only [hM, hmajors] at h
    generalize s.better M bestSize = s₁ at h hmajors hmm
    have hsame (hends : Ends s₁ t size r) : Ends s t size r := by
      unfold Ends at hends ⊢
      rwa [hmajors, hmm] at hends
    cases hroom : M.room size with
    | some pl =>
      simp only [hroom] at h
      cases h
      exact .inl ⟨i, M, pl, rfl, hmm, hmajors, hM, hroom⟩
    | none =>
      simp only [hroom] at h
      split_ifs at h with hnext hbet
      · exact hsame (ih (by rw [hmajors]; exact hnext) h)
      · exact hsame (ih (by rw [hmajors]; omega) h)
      all_goals
        obtain ⟨⟨N', s₂⟩, hnew, h⟩ := bind_eq_ok.mp h
        obtain ⟨q, mm, halloc, hkept, hwrites, hblock⟩ := allocateNewPage_pages hnew
        rw [hmm] at halloc
        refine .inr ⟨q, mm, halloc, ?_⟩
        intro h0
        obtain rfl := hblock h0
        have hlen : s.majors.length = i + 1 := by omega
        have hpush : (s₂.push (newMajor q size)).majors = s.majors ++ [newMajor q size] := by
          rw [push_eq, hkept, hmajors]
        have hfrom (a : Nat) (ha : a ≤ q) (hall : ∀ M ∈ s.majors, a ≤ M.addr) :
            WritesFrom a mm (s₂.push (newMajor q size)).mm := by
          apply (hwrites.mono ha).trans (push_from ha _)
          rw [hkept, hmajors]
          exact hall
        rw [hlen]
      · cases h
        exact ⟨rfl, hpush, hfrom⟩
      · have hN : (s₂.push (newMajor q size)).majors[i + 1]? = some (newMajor q size) := by
          rw [hpush, ← hlen]
          simp
        simp only at h
        obtain ⟨hplace, hbest⟩ := search_hit hN (newMajor_room hsize hpages) h
        refine ⟨hplace, ?_, ?_⟩
        · rw [hbest, State.better_majors, hpush]
        · rw [hbest, State.better_mm]
          exact hfrom

/-- The block and the case of a request that `new_malloc` comes back from: a block that had room, or one
on new pages. -/
def PlacedAt (s t : State) (size reqSize p : Nat) : Prop :=
  ∃ s₁ i M pl, s₁.majors[i]? = some M ∧ occupy s₁ i M pl size reqSize = .ok (p, t) ∧
    KeepsDir s.mm s₁.mm ∧ (M ∈ s.majors ∧ M.room size = some pl ∨
      ∃ g, s.mm.plp ≤ 0x1000 * g ∧ g < 2 ^ 20 ∧ M = newMajor (0x1000 * g) size ∧ pl = .case2)

/-- The first block is made before the search for a place. -/
theorem mallocLocked_first {s t : State} {size reqSize p : Nat} (hm : Managed s.mm)
    (hsize : size + majorHeader + minorHeader < 2 ^ 32) (hpages : pagesFor size < 2 ^ 20)
    (hnil : s.majors = []) (h : mallocLocked s size reqSize = .ok (p, t)) :
    PlacedAt s t size reqSize p := by
  obtain ⟨hpos, -⟩ := pagesFor_spec hsize
  obtain ⟨s₁, hroot, h⟩ := bind_eq_ok.mp h
  simp only [ensureRoot, hnil, List.isEmpty_nil, if_true] at hroot
  obtain ⟨⟨root, s₂⟩, hnew, hroot⟩ := bind_eq_ok.mp hroot
  obtain ⟨q, mm, halloc, hkept, hwrites, hblock⟩ := allocateNewPage_pages hnew
  obtain ⟨g, h0, hg, rfl⟩ := hm.page_of_pages hpos halloc
  have hlow := hm.low
  obtain rfl := hblock (by omega)
  cases hroot
  have hpushed : KeepsDir s.mm (s₂.push (newMajor (0x1000 * g) size)).mm := by
    apply (KeepsDir.ofPages hm halloc).writes hm.layout h0
    exact hwrites.trans (push_from (Nat.le_refl _) (by rw [hkept, hnil]; simp))
  have hmajors : (s₂.push (newMajor (0x1000 * g) size)).majors = [newMajor (0x1000 * g) size] := by
    rw [push_eq, hkept, hnil]
    rfl
  simp only at h
  rw [if_neg (by simp [hmajors])] at h
  obtain ⟨⟨place, s₃⟩, hfind, h⟩ := bind_eq_ok.mp h
  obtain ⟨i, b, n, hstart⟩ : ∃ i b n, startAt (s₂.push (newMajor (0x1000 * g) size)) size = (i, b, n) :=
    ⟨_, _, _, rfl⟩
  obtain ⟨hi, -⟩ := startAt_spec (by simp [hmajors]) hstart
  rw [findPlace, hstart] at hfind
  have hi0 : i = 0 := by simpa [hmajors] using hi
  have hM : (s₂.push (newMajor (0x1000 * g) size)).majors[i]? = some (newMajor (0x1000 * g) size) := by
    simp [hmajors, hi0]
  obtain ⟨hplace, hbest⟩ := search_hit hM (newMajor_room hsize hpages) hfind
  have hM₃ : s₃.majors[i]? = some (newMajor (0x1000 * g) size) := by
    rw [hbest, State.better_majors, hM]
  simp only [hplace, hM₃] at h
  refine ⟨s₃, i, _, .case2, hM₃, h, ?_, .inr ⟨g, h0, hg, rfl, rfl⟩⟩
  rw [hbest, State.better_mm]
  exact hpushed

theorem mallocLocked_ends {s t : State} {size reqSize p : Nat} (hm : Managed s.mm)
    (hbehind : ∀ M ∈ s.majors, s.mm.plp ≤ M.addr)
    (hsize : size + majorHeader + minorHeader < 2 ^ 32) (hpages : pagesFor size < 2 ^ 20)
    (h : mallocLocked s size reqSize = .ok (p, t)) : PlacedAt s t size reqSize p := by
  by_cases hnil : s.majors = []
  · exact mallocLocked_first hm hsize hpages hnil h
  · obtain ⟨hpos, -⟩ := pagesFor_spec hsize
    obtain ⟨s₁, hroot, h⟩ := bind_eq_ok.mp h
    simp only [ensureRoot, List.isEmpty_iff, hnil, if_false] at hroot
    cases hroot
    rw [if_neg (by simpa using hnil)] at h
    obtain ⟨⟨place, s₃⟩, hfind, h⟩ := bind_eq_ok.mp h
    obtain ⟨i, b, n, hstart⟩ : ∃ i b n, startAt s size = (i, b, n) := ⟨_, _, _, rfl⟩
    obtain ⟨hi, -⟩ := startAt_spec hnil hstart
    rw [findPlace, hstart] at hfind
    rcases search_ends hsize hpages hi hfind with ⟨j, M, pl, rfl, hmm, hmajors, hM, hroom⟩ |
      ⟨q, mm, halloc, hplace⟩
    · have hM₃ : s₃.majors[j]? = some M := by rw [hmajors, hM]
      simp only [hM₃] at h
      exact ⟨s₃, j, M, pl, hM₃, h, hmm ▸ .refl _, .inl ⟨List.mem_of_getElem? hM, hroom⟩⟩
    · obtain ⟨g, h0, hg, rfl⟩ := hm.page_of_pages hpos halloc
      have hlow := hm.low
      obtain ⟨rfl, hmajors, hfrom⟩ := hplace (by omega)
      have hM₃ : s₃.majors[s.majors.length]? = some (newMajor (0x1000 * g) size) := by
        rw [hmajors]
        simp
      simp only [hM₃] at h
      exact ⟨s₃, _, _, .case2, hM₃, h,
        (KeepsDir.ofPages hm halloc).writes hm.layout (Nat.le_refl _) (hfrom _ h0 hbehind),
        .inr ⟨g, h0, hg, rfl, rfl⟩⟩

theorem occupy_ptr {s t : State} {M : Major} {pl : Place} {i size reqSize p : Nat}
    (h : occupy s i M pl size reqSize = .ok (p, t)) : p = (M.newMinor pl size reqSize).ptr ∧
      t.majors = s.majors.set i (M.occupied pl size reqSize) ∧ t.mm.heapOnline = s.mm.heapOnline := by
  simp only [occupy] at h
  split_ifs at h
  · cases h
    exact ⟨rfl, rfl, rfl⟩
  · cases h
    exact ⟨rfl, rfl, rfl⟩

/-- `kmalloc` never returns 0. -/
theorem State.Ready.kmalloc_ne_zero {s t : State} {n p : Nat} (hs : s.Ready) (hsize : n + 80 < 2 ^ 32)
    (hpages : pagesFor (n + 32) < 2 ^ 20) (h : s.kmalloc n = .ok (p, t)) :
    p ≠ 0 ∧ t.mm.heapOnline = true := by
  rw [hs.kmalloc_eq] at h
  obtain ⟨u, hmalloc, rfl⟩ := newMalloc_ok hsize h
  have hsize' : n + 32 + majorHeader + minorHeader < 2 ^ 32 := by
    unfold majorHeader minorHeader
    omega
  obtain ⟨s₁, i, M, pl, -, hoccupy, hdir, hblock⟩ := mallocLocked_ends (s := s.locked)
    hs.sound.managed (fun M hM => (hs.sound.chunks M hM).behind) hsize' hpages hmalloc
  obtain ⟨rfl, -, hkept⟩ := occupy_ptr hoccupy
  refine ⟨?_, (hkept.trans hdir.vars.heapOnline).trans hs.sound.managed.online⟩
  rcases hblock with ⟨hM, hroom⟩ | ⟨g, h0, hg, rfl, rfl⟩
  · have hptr := newMinor_bounds (hs.sound.blocks M hM) hroom (by unfold minorHeader; omega)
    omega
  · have hlow : 0x100000 ≤ s.locked.mm.plp := hs.sound.managed.low
    exact newMajor_ptr (by omega) hg

/-- The memory manager has the pages of a new block, and the processor finds them. -/
def State.NewPages (s : State) (size : Nat) : Prop :=
  ∃ q mm, q ≠ 0 ∧ mmAllocPages s.mm (pagesFor size) = .ok (q, mm) ∧ mm.present q = true

theorem allocateNewPage_of_pages {s : State} {size : Nat} (h : s.NewPages size) :
    ∃ q s₁, allocateNewPage s size = .ok (some (newMajor q size), s₁) ∧ s₁.majors = s.majors := by
  obtain ⟨q, mm, h0, hcall, hpresent⟩ := h
  let mem := setWords mm.mem q [0, 0, pagesFor size, (newMajor q size).size, majorHeader, 0]
  refine ⟨q, { s with mm := { mm with mem := mem } }, ?_, rfl⟩
  simp only [allocateNewPage, hcall, ok_bind, if_neg h0, if_pos hpresent]
  rfl

theorem search_found {size fuel i bestSize : Nat} {startedBet : Bool} {s : State} {M : Major}
    {pl : Place} (hfuel : 0 < fuel) (hM : s.majors[i]? = some M) (hroom : M.room size = some pl) :
    ∃ r t, search size fuel i startedBet bestSize s = .ok (r, t) := by
  obtain ⟨fuel, rfl⟩ := Nat.exists_eq_succ_of_ne_zero (Nat.ne_of_gt hfuel)
  refine ⟨some (i, pl), s.better M bestSize, ?_⟩
  rw [search]
  simp only [hM, hroom]

/-- The loop over the blocks ends after two rounds at most, if a new block can be made. -/
theorem search_total {size fuel i bestSize : Nat} {startedBet : Bool} {s : State}
    (hsize : size + majorHeader + minorHeader < 2 ^ 32) (hpages : pagesFor size < 2 ^ 20)
    (hi : i < s.majors.length)
    (hseen : startedBet = false → s.Passed size i)
    (halloc : s.Full size → s.NewPages size)
    (hfuel : s.majors.length - i + (if startedBet then s.majors.length else 0) + 1 ≤ fuel) :
    ∃ r t, search size fuel i startedBet bestSize s = .ok (r, t) := by
  induction fuel generalizing i startedBet bestSize s with
  | zero => omega
  | succ fuel ih =>
    obtain ⟨M, hM⟩ : ∃ M, s.majors[i]? = some M := ⟨_, List.getElem?_eq_getElem hi⟩
    have hmajors := s.better_majors M bestSize
    have hmm := s.better_mm M bestSize
    rw [search]
    simp only [hM, hmajors]
    generalize s.better M bestSize = s₁ at hmajors hmm
    have halloc₁ : s₁.Full size → s₁.NewPages size := by
      rw [State.Full, State.NewPages, hmajors, hmm]
      exact halloc
    cases hroom : M.room size with
    | some pl => exact ⟨_, _, rfl⟩
    | none =>
      have hseen₁ (hbet : startedBet = false) : s₁.Passed size (i + 1) := by
        rw [State.Passed, hmajors]
        exact (hseen hbet).next hM hroom
      simp only
      by_cases hnext : i + 1 < s.majors.length
      · rw [if_pos hnext]
        apply ih (by rw [hmajors]; exact hnext) hseen₁ halloc₁
        rw [hmajors]
        omega
      · rw [if_neg hnext]
        by_cases hbet : startedBet = true
        · rw [if_pos hbet] at hfuel ⊢
          apply ih (by rw [hmajors]; omega) (fun _ k hk => absurd hk (by omega)) halloc₁
          rw [hmajors, if_neg (by simp)]
          omega
        · rw [if_neg hbet] at hfuel ⊢
          have hfull : s₁.Full size := (hseen₁ (by simpa using hbet)).full (by rw [hmajors]; omega)
          obtain ⟨q, s₂, hnew, hkept⟩ := allocateNewPage_of_pages (halloc₁ hfull)
          simp only [hnew, ok_bind]
          split_ifs
          · exact ⟨_, _, rfl⟩
          · have hN : (s₂.push (newMajor q size)).majors[i + 1]? = some (newMajor q size) := by
              have hlen : s.majors.length = i + 1 := by omega
              rw [push_eq, hkept, hmajors, ← hlen]
              simp
            exact search_found (by omega) hN (newMajor_room hsize hpages)

theorem findPlace_total {size : Nat} {s : State} (hsize : size + majorHeader + minorHeader < 2 ^ 32)
    (hpages : pagesFor size < 2 ^ 20) (hne : s.majors ≠ [])
    (halloc : s.Full size → s.NewPages size) :
    ∃ r t, findPlace s size = .ok (r, t) := by
  obtain ⟨i, b, n, hstart⟩ : ∃ i b n, startAt s size = (i, b, n) := ⟨_, _, _, rfl⟩
  obtain ⟨hi, hb⟩ := startAt_spec hne hstart
  rw [findPlace, hstart]
  apply search_total hsize hpages hi ?_ halloc
  · split_ifs <;> omega
  · intro hbet k hk
    have := hb hbet
    omega

/-- A request that is granted is one that the heap can meet. -/
theorem Granted.fits {s : State} {n : Nat} (hs : s.Sound) (hsize : n + 80 < 2 ^ 32) (h : Granted s n) :
    Fits s n := by
  refine ⟨hsize, ?_⟩
  intro hfull
  obtain ⟨f, hrun, -⟩ := hs.managed.run_of_meets (h hfull)
  exact ⟨f, hrun⟩

/-- The first block is made, if there is none yet. -/
theorem ensureRoot_total {size : Nat} {s : State} (hsize : size + majorHeader + minorHeader < 2 ^ 32)
    (hpages : pagesFor size < 2 ^ 20)
    (halloc : s.Full size → s.NewPages size) :
    ∃ s₁, ensureRoot s size = .ok s₁ ∧ s₁.majors ≠ [] ∧
      (s₁.Full size → s₁.NewPages size) := by
  by_cases hnil : s.majors = []
  · have hfull : s.Full size := by
      intro M hM
      rw [hnil] at hM
      cases hM
    obtain ⟨q, s₂, hnew, hkept⟩ := allocateNewPage_of_pages (halloc hfull)
    have hmajors : (s₂.push (newMajor q size)).majors = [newMajor q size] := by
      rw [push_eq, hkept, hnil]
      rfl
    refine ⟨s₂.push (newMajor q size), ?_, by simp [hmajors], ?_⟩
    · rw [ensureRoot, if_pos (List.isEmpty_iff.mpr hnil), hnew]
      rfl
    · intro hfull
      have hnone := hfull _ (by rw [hmajors]; exact List.mem_singleton_self _)
      rw [newMajor_room hsize hpages] at hnone
      cases hnone
  · refine ⟨s, ?_, hnil, halloc⟩
    rw [ensureRoot, if_neg (mt List.isEmpty_iff.mp hnil)]

/-- The heap gives what is granted. -/
theorem State.Ready.kmalloc_total {s : State} {n : Nat} (hs : s.Ready) (hsize : n + 80 < 2 ^ 32)
    (hpages : pagesFor (n + 32) < 2 ^ 20) (h : Granted s n) : ∃ p t, s.kmalloc n = .ok (p, t) := by
  have hfit := h.fits hs.sound hsize
  have hsize' : n + 32 + majorHeader + minorHeader < 2 ^ 32 := by
    unfold majorHeader minorHeader
    omega
  obtain ⟨hpos, -⟩ := pagesFor_spec hsize'
  have halloc (hfull : s.Full (n + 32)) : s.NewPages (n + 32) := by
    obtain ⟨f, mm, -, hcall, hdone⟩ := hs.sound.managed.pages_of_meets hpos (h hfull)
    obtain ⟨g, h0, -, hg⟩ := hs.sound.managed.page_of_pages hpos hcall
    have hlow := hs.sound.managed.low
    exact ⟨_, mm, by omega, hcall, (hdone.itself f (Nat.le_refl f) (by omega)).present⟩
  have hlocked : s.locked.Sound := hs.sound.of_eq rfl rfl
  obtain ⟨s₁, hroot, hne, halloc₁⟩ := ensureRoot_total (s := s.locked) hsize' hpages halloc
  obtain ⟨r, s₂, hfind⟩ := findPlace_total hsize' hpages hne halloc₁
  obtain ⟨hgrown, -, hmem₁⟩ := ensureRoot_ready hlocked hsize' hfit.memory hroot
  obtain ⟨j, M, pl, rfl, hplaced⟩ := findPlace_spec hgrown.sound hsize' hne hmem₁ hfind
  have hM := hplaced.grown.sound.blocks M (List.mem_of_getElem? hplaced.block)
  have hptr := newMinor_bounds hM hplaced.room (by unfold minorHeader; omega)
  have hend := (hM.gap_bounds pl).2
  have hhigh := hM.high
  obtain ⟨p, t, hoccupy⟩ : ∃ p t, occupy s₂ j M pl (n + 32) n = .ok (p, t) := by
    simp only [occupy]
    split_ifs
    · exact ⟨_, _, rfl⟩
    · omega
    · exact ⟨_, _, rfl⟩
  have hmalloc := mallocLocked_of_place hroot hne hfind hplaced.block hoccupy
  exact ⟨p, _, (hs.kmalloc_eq n).trans (newMalloc_of_locked hs.unlocked (by omega) hmalloc)⟩

end Levos.Liballoc
