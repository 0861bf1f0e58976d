import Levos.Liballoc.Blocks
import Levos.Memory.FreePages

namespace Levos.Liballoc

open Levos.Framework Levos.Memory

/-- The memory manager behind `heap_install`: no frame below `plp` is free. -/
structure Managed (s : Mm) : Prop where
  layout : Layout s
  online : s.heapOnline = true
  few : s.nframes < 2 ^ 20
  low : 0x100000 ≤ s.plp
  room : s.plp ≤ 0x1000 * s.nframes
  kept : ∀ f, 0x1000 * f < s.plp → s.used f = true

/-- Memory has `n` free frames in a row. -/
def FreeRun (s : Mm) (n : Nat) : Prop := ∃ f, f + n ≤ s.nframes ∧ ∀ j < n, s.used (f + j) = false

namespace Managed

variable {s s' : Mm} {f i n p : Nat}

theorem inFrames (hm : Managed s) (hf : f < s.nframes) : s.inFrames (f / 32) := by
  have h1 := hm.few
  have h2 := hm.low
  have h3 := hm.room
  rw [Mm.inFrames_iff (by omega)]
  omega

/-- Writes behind `plp` are no business of the memory manager. -/
theorem write {m : Memory} (hm : Managed s) (h : Memory.Agree 0 s.plp s.mem m) :
    Managed { s with mem := m } ∧ ∀ g < s.nframes, ({ s with mem := m } : Mm).used g = s.used g := by
  have hb := hm.layout.bitmap
  have hd := hm.layout.dir
  have hused (g : Nat) (hg : g < s.nframes) : ({ s with mem := m } : Mm).used g = s.used g :=
    used_write (h.mono (Nat.zero_le _) (by omega)) (hm.inFrames hg)
  refine ⟨⟨hm.layout.write (h.mono (Nat.zero_le _) hd), hm.online, hm.few, hm.low, hm.room, ?_⟩, hused⟩
  intro g hg
  have hroom := hm.room
  have hg' : 0x1000 * g < s.plp := hg
  rw [hused g (by omega)]
  exact hm.kept g hg

/-- One turn of `mm_alloc_pages` writes below `plp` only, and not to the directory. -/
theorem allocPage (hl : Layout s) (hon : s.heapOnline = true) (hi : i < 2 ^ 32)
    (h : allocPage i s = .ok s') :
    Layout s' ∧ SameVars s s' ∧ s'.plp = s.plp ∧ ∀ z, OffTables s z → s'.mem z = s.mem z := by
  obtain ⟨⟨hl', hv', -⟩, -⟩ := allocPage_ok hl hi h
  refine ⟨hl', hv', ?_⟩
  obtain ⟨u, -, h⟩ := bind_eq_ok.mp h
  cases u with
  | true => simp at h
  | false =>
    by_cases ht : s.tbl (i / 0x1000 / 1024) = 0
    · have ht' : s.table s.kernelDir (i / 0x1000 / 1024) = 0 := ht
      simp [getPage, ht', kvmallocP, hon] at h
    · simp only [getPage_there ht, Bool.false_eq_true, if_false, ok_bind] at h
      exact allocDmaFrame_off hl (by omega) ht h

theorem allocPages (hl : Layout s) (hon : s.heapOnline = true)
    (h : mmAllocPages s n = .ok (p, s')) :
    SameVars s s' ∧ s'.plp = s.plp ∧ ∀ z, OffTables s z → s'.mem z = s.mem z := by
  obtain ⟨f, -, h⟩ := bind_eq_ok.mp h
  obtain ⟨s₁, hloop, h⟩ := bind_eq_ok.mp h
  cases h
  have hbound : wrap (wrap (f * 0x1000) + wrap (n * 0x1000)) + 0x1000 ≤ 2 ^ 32 := by
    unfold wrap
    omega
  have hrule := forPages_rule (fun _ => wrap (wrap (f * 0x1000) + wrap (n * 0x1000))) Memory.allocPage
    (fun _ s₁ => Layout s₁ ∧ SameVars s s₁ ∧ s₁.plp = s.plp ∧ ∀ z, OffTables s z → s₁.mem z = s.mem z)
    (fun _ => True) (wrap (wrap (f * 0x1000) + wrap (n * 0x1000))) hbound ?_ pageTurns
    (wrap (f * 0x1000)) s ⟨hl, .refl s, rfl, fun _ _ => rfl⟩ (by unfold pageTurns; omega) (by decide)
  · rcases hrule with ⟨e, he, -⟩ | ⟨i, s₂, hs₂, ⟨-, hv, hplp, hmem⟩, -⟩
    · simp [he] at hloop
    · obtain rfl : s₂ = s' := by simpa [hs₂] using hloop
      exact ⟨hv, hplp, hmem⟩
  · rintro i s₁ ⟨hl₁, hv₁, hplp, hmem⟩ hi
    refine ⟨hi, ?_⟩
    cases hbody : Memory.allocPage i s₁ with
    | error e => exact .inl ⟨e, rfl, trivial⟩
    | ok s₂ =>
      obtain ⟨hl₂, hv₂, hplp₂, hmem₂⟩ :=
        allocPage hl₁ (hv₁.heapOnline.trans hon) (by omega) hbody
      refine .inr ⟨s₂, rfl, hl₂, hv₁.trans hv₂, hplp₂.trans hplp, ?_⟩
      intro z hz
      rw [hmem₂ z (hz.vars hv₁ hplp), hmem z hz]

/-- What `mm_alloc_pages` hands out when memory has what it is asked for: frames that were free,
behind `plp`. -/
theorem mmAllocPages (hm : Managed s) (h1 : 1 ≤ n) (hfree : FreeRun s n)
    (h : mmAllocPages s n = .ok (p, s')) :
    ∃ f, p = 0x1000 * f ∧ f + n ≤ s.nframes ∧ s.plp ≤ p ∧
      (∀ g, f ≤ g → g < f + n → s.used g = false) ∧ Managed s' ∧ SameVars s s' ∧ s'.plp = s.plp ∧
      (∀ z, s.plp ≤ z → s'.mem z = s.mem z) ∧
      ∀ g < s.nframes, s'.used g = (s.used g || decide (f ≤ g ∧ g < f + n)) := by
  obtain ⟨f₁, hend, hclear⟩ := hfree
  have hfew := hm.few
  obtain ⟨-, hplp, hmem⟩ := allocPages hm.layout hm.online h
  have hav : Available s n :=
    ⟨f₁, by omega, by omega, hm.inFrames (by omega), hclear⟩
  obtain ⟨f₀, hle, hfirst, -, -⟩ := firstNFrames_ok (f := f₁) (n := n) hfew (by omega)
    (fun g hg j hj => hm.inFrames (by rw [Nat.mod_eq_of_lt (by omega)]; omega))
    (fun j hj => by rw [Nat.mod_eq_of_lt (by omega)]; exact hclear j hj)
  rcases mmAllocPages_spec hm.layout hfew h1 hav with
    ⟨e, he, -⟩ | ⟨f, s₁, hs₁, -, hfr, hl, hv, hused, -, -⟩
  · simp [he] at h
  · obtain ⟨rfl, rfl⟩ : 0x1000 * f = p ∧ s₁ = s' := by simpa [hs₁] using h
    obtain rfl : f₀ = f := by
      obtain ⟨f', hf', hrest⟩ := bind_eq_ok.mp h
      obtain rfl := Except.ok.inj (hfirst.symm.trans hf')
      obtain ⟨s₂, -, hret⟩ := bind_eq_ok.mp hrest
      simp only [pure, Except.pure, Except.ok.injEq, Prod.mk.injEq] at hret
      have haddr := (wrap_signedFrame (f := f₀) (by omega)).symm.trans hret.1
      omega
    have hrun (g : Nat) (h1 : f₀ ≤ g) (h2 : g < f₀ + n) : s.used g = false := by
      have := (hfr (g - f₀) (by omega)).2
      rwa [show f₀ + (g - f₀) = g by omega] at this
    have hbehind : s.plp ≤ 0x1000 * f₀ := by
      by_contra hlt
      have hk := hm.kept f₀ (by omega)
      rw [hrun f₀ (by omega) (by omega)] at hk
      cases hk
    have hbits (g : Nat) (hg : g < s.nframes) :
        s₁.used g = (s.used g || decide (f₀ ≤ g ∧ g < f₀ + n)) := by
      rw [hused g (hm.inFrames hg)]
      simp [hg]
    refine ⟨f₀, rfl, by omega, hbehind, hrun, ?_, hv, hplp, fun z hz => hmem z (.inl hz), hbits⟩
    refine ⟨hl, hv.heapOnline.trans hm.online, by rw [hv.nframes]; exact hfew, by rw [hplp]; exact hm.low,
      by rw [hplp, hv.nframes]; exact hm.room, ?_⟩
    intro g hg
    have hroom := hm.room
    rw [hplp] at hg
    rw [hbits g (by omega), hm.kept g hg, Bool.true_or]

end Managed

/-- The pages of a block lie behind `plp`, and their frames are in use. -/
structure Chunk (s : Mm) (M : Major) : Prop where
  behind : s.plp ≤ M.addr
  frames : ∃ f, M.addr = 0x1000 * f ∧ f + M.pages ≤ s.nframes ∧
    ∀ g, f ≤ g → g < f + M.pages → s.used g = true

/-- More frames in use do a block no harm. -/
theorem Chunk.grow {s s' : Mm} {M : Major} (h : Chunk s M) (hv : SameVars s s')
    (hplp : s'.plp = s.plp) (hused : ∀ g < s.nframes, s.used g = true → s'.used g = true) :
    Chunk s' M := by
  obtain ⟨hbehind, f, hf, hend, hu⟩ := h
  refine ⟨by rw [hplp]; exact hbehind, f, hf, by rw [hv.nframes]; exact hend, ?_⟩
  intro g h1 h2
  exact hused g (by omega) (hu g h1 h2)

/-- Where a block begins and ends. -/
def Major.extent (M : Major) : Nat × Nat := (M.addr, M.stop)

def Apart (a b : Nat × Nat) : Prop := a.2 ≤ b.1 ∨ b.2 ≤ a.1

/-- The invariant of liballoc: sound blocks on pages of their own. -/
structure State.Sound (s : State) : Prop where
  managed : Managed s.mm
  blocks : ∀ M ∈ s.majors, M.Sound
  chunks : ∀ M ∈ s.majors, Chunk s.mm M
  apart : (s.majors.map Major.extent).Pairwise Apart

/-- The bytes that liballoc has given away. -/
def State.Owned (s : State) (z : Nat) : Prop := ∃ M ∈ s.majors, ∃ m ∈ M.minors, m.Holds z

namespace State.Sound

variable {s : State} {M L : Major} {m : Minor} {z : Nat}

/-- The lock and the best bet are no part of the invariant. -/
theorem of_eq {t : State} (hs : s.Sound) (hmm : t.mm = s.mm) (hmajors : t.majors = s.majors) :
    t.Sound := by
  obtain ⟨mm, lock, majors, bestBet⟩ := t
  cases hmm
  cases hmajors
  exact ⟨hs.managed, hs.blocks, hs.chunks, hs.apart⟩

theorem disjoint (hs : s.Sound) (hM : M ∈ s.majors) (hL : L ∈ s.majors) (hne : M ≠ L) :
    M.stop ≤ L.addr ∨ L.stop ≤ M.addr := by
  have hsymm : Std.Symm fun M L : Major => Apart M.extent L.extent := ⟨fun _ _ h => h.symm⟩
  exact (List.pairwise_map.mp hs.apart).forall hM hL hne

/-- What a minor holds lies in its block, behind its own header. -/
theorem holds_bounds (hs : s.Sound) (hM : M ∈ s.majors) (hm : m ∈ M.minors) (hz : m.Holds z) :
    M.addr + majorHeader ≤ m.addr ∧ m.addr + minorHeader + 16 ≤ z ∧ z < m.stop ∧ m.stop ≤ M.stop := by
  have hb := (hs.blocks M hM).bounds hm
  have hhigh := (hs.blocks M hM).high
  have hp := Minor.ptr_bounds ((hs.blocks M hM).sizes m hm) (by omega)
  unfold Minor.Holds at hz
  omega

/-- No header lies on a byte that was given away. -/
theorem owned_off (hs : s.Sound) (hz : s.Owned z) (hL : L ∈ s.majors) : L.Off z := by
  obtain ⟨M, hM, m, hm, hmz⟩ := hz
  have hb := hs.holds_bounds hM hm hmz
  unfold Major.Off
  by_cases hML : M = L
  · subst hML
    refine ⟨by omega, ?_⟩
    intro y hy
    by_cases hmy : m = y
    · subst hmy
      omega
    · have hseg := (hs.blocks M hM).packed.apart hm hy hmy
      unfold Minor.stop at hseg hb
      omega
  · have hdisj := hs.disjoint hM hL hML
    refine ⟨?_, ?_⟩
    · have hle := (hs.blocks L hL).packed.le
      omega
    · intro y hy
      have hy := (hs.blocks L hL).bounds hy
      unfold Minor.stop at hy
      omega

theorem owned_behind (hs : s.Sound) (hz : s.Owned z) : s.mm.plp ≤ z := by
  obtain ⟨M, hM, m, hm, hmz⟩ := hz
  have hb := hs.holds_bounds hM hm hmz
  have := (hs.chunks M hM).behind
  omega

/-- Writes behind `plp` keep the invariant: no part of it is read from there. -/
theorem write {mem : Memory} (hs : s.Sound) (h : Memory.Agree 0 s.mm.plp s.mm.mem mem) :
    State.Sound { s with mm := { s.mm with mem := mem } } := by
  obtain ⟨hm, hused⟩ := hs.managed.write h
  refine ⟨hm, hs.blocks, ?_, hs.apart⟩
  intro M hM
  exact (hs.chunks M hM).grow rfl rfl fun g hg hu => (hused g hg).trans hu

/-- The block `N` in the place of `M`, on the same pages. -/
theorem replace {N : Major} {i : Nat} (hs : s.Sound) (hM : s.majors[i]? = some M) (hN : N.Sound)
    (haddr : N.addr = M.addr) (hpages : N.pages = M.pages) :
    State.Sound { s with majors := s.majors.set i N } := by
  have hmem := List.mem_of_getElem? hM
  have hext : N.extent = M.extent := by
    simp [Major.extent, Major.stop, haddr, hpages]
  refine ⟨hs.managed, ?_, ?_, ?_⟩
  · intro L hL
    rcases List.mem_or_eq_of_mem_set hL with hL | rfl
    · exact hs.blocks L hL
    · exact hN
  · intro L hL
    rcases List.mem_or_eq_of_mem_set hL with hL | rfl
    · exact hs.chunks L hL
    · obtain ⟨hb, f, hf, hend, hu⟩ := hs.chunks M hmem
      exact ⟨haddr ▸ hb, f, haddr.trans hf, hpages ▸ hend, hpages ▸ hu⟩
  · have hmap : (s.majors.set i N).map Major.extent = s.majors.map Major.extent := by
      apply List.ext_getElem?
      intro j
      rw [List.getElem?_map, List.getElem?_map, List.getElem?_set]
      split_ifs with hij hlt
      · subst hij
        simp [hM, hext]
      · subst hij
        simp [List.getElem?_eq_none (Nat.le_of_not_lt hlt)]
      · rfl
    rw [hmap]
    exact hs.apart

end State.Sound

/-- A block that was just allocated for a request of `size` bytes. -/
structure Major.Brand (M : Major) (size : Nat) : Prop where
  sound : M.Sound
  empty : M.minors = []
  enough : size + majorHeader + minorHeader ≤ M.pages * 4096

theorem Major.Brand.room {M : Major} {size : Nat} (hM : M.Brand size) : M.room size = some .case2 := by
  have hhigh := hM.sound.high
  have hsize := hM.sound.size_eq
  have henough := hM.enough
  unfold Major.stop at hhigh
  have hdiff : sub32 M.size M.usage = M.pages * 4096 - majorHeader := by
    rw [hM.sound.fresh hM.empty, hsize]
    exact sub32_eq (by omega) (by omega)
  have hlt : ¬M.pages * 4096 - majorHeader < wrap (size + minorHeader) := by
    rw [wrap_of_lt (by omega)]
    omega
  simp [Major.room, Major.place, hdiff, hlt, hM.empty]

/-- From `s` to `t` the heap got new blocks at most, with nothing in them yet. -/
structure Grown (s t : State) : Prop where
  sound : t.Sound
  vars : SameVars s.mm t.mm
  plp : t.mm.plp = s.mm.plp
  majors : ∃ new, t.majors = s.majors ++ new ∧ ∀ M ∈ new, M.minors = []
  mem : ∀ z, s.Owned z → t.mm.mem z = s.mm.mem z

namespace Grown

variable {s t u : State}

theorem refl (hs : s.Sound) : Grown s s :=
  ⟨hs, .refl _, rfl, ⟨[], by simp, by simp⟩, fun _ _ => rfl⟩

theorem owned (h : Grown s t) {z : Nat} : t.Owned z ↔ s.Owned z := by
  obtain ⟨new, hnew, hempty⟩ := h.majors
  unfold State.Owned
  rw [hnew]
  constructor
  · rintro ⟨M, hM, m, hm, hz⟩
    rcases List.mem_append.mp hM with hM | hM
    · exact ⟨M, hM, m, hm, hz⟩
    · rw [hempty M hM] at hm
      cases hm
  · rintro ⟨M, hM, hz⟩
    exact ⟨M, List.mem_append_left _ hM, hz⟩

theorem trans (h : Grown s t) (k : Grown t u) : Grown s u := by
  obtain ⟨new, hnew, hempty⟩ := h.majors
  obtain ⟨new', hnew', hempty'⟩ := k.majors
  refine ⟨k.sound, h.vars.trans k.vars, k.plp.trans h.plp,
    ⟨new ++ new', by rw [hnew', hnew, List.append_assoc], ?_⟩, ?_⟩
  · intro M hM
    rcases List.mem_append.mp hM with hM | hM
    · exact hempty M hM
    · exact hempty' M hM
  · intro z hz
    rw [k.mem z (h.owned.mpr hz), h.mem z hz]

end Grown

theorem better_grown {s : State} (hs : s.Sound) (M : Major) (n : Nat) : Grown s (s.better M n) := by
  refine ⟨hs.of_eq (s.better_mm M n) (s.better_majors M n), ?_, ?_, ⟨[], by simp, by simp⟩, ?_⟩
  · rw [State.better_mm]
    exact .refl _
  · rw [State.better_mm]
  · intro z _
    rw [State.better_mm]

theorem pagesFor_spec {size : Nat} (hsize : size + majorHeader + minorHeader < 2 ^ 32) :
    1 ≤ pagesFor size ∧ size + majorHeader + minorHeader ≤ pagesFor size * 4096 := by
  unfold pagesFor pageCount
  rw [wrap_of_lt (x := size + majorHeader) (by omega), wrap_of_lt hsize]
  simp only
  split_ifs <;> omega

/-- Putting a block at the end of the list writes its header and the last one's. -/
theorem push_mem {s : State} {N : Major} {z : Nat} (hN : z < N.addr ∨ N.addr + majorHeader ≤ z)
    (hz : ∀ L ∈ s.majors, z < L.addr ∨ L.addr + majorHeader ≤ z) :
    (s.push N).mm.mem z = s.mm.mem z := by
  unfold majorHeader at *
  unfold State.push
  cases hlast : s.majors.getLast? with
  | none => rfl
  | some L =>
    have hL := hz L (List.mem_of_getLast? hlast)
    exact (Memory.setWord_apply (by omega)).trans (Memory.setWord_apply (by omega))

/-- A block on frames that were free joins the others. -/
theorem State.Sound.extend {s : State} {mm : Mm} {M : Major} {f : Nat} (hs : s.Sound) (hm : Managed mm)
    (hv : SameVars s.mm mm) (hplp : mm.plp = s.mm.plp)
    (hused : ∀ g < s.mm.nframes, mm.used g = (s.mm.used g || decide (f ≤ g ∧ g < f + M.pages)))
    (hunused : ∀ g, f ≤ g → g < f + M.pages → s.mm.used g = false) (hM : M.Sound)
    (haddr : M.addr = 0x1000 * f) (hend : f + M.pages ≤ s.mm.nframes) (hbehind : s.mm.plp ≤ M.addr) :
    State.Sound { s with mm := mm, majors := s.majors ++ [M] } := by
  refine ⟨hm, ?_, ?_, ?_⟩
  · intro L hL
    rcases List.mem_append.mp hL with hL | hL
    · exact hs.blocks L hL
    · exact List.mem_singleton.mp hL ▸ hM
  · intro L hL
    rcases List.mem_append.mp hL with hL | hL
    · apply (hs.chunks L hL).grow hv hplp
      intro g hg hu
      rw [hused g hg, hu, Bool.true_or]
    · obtain rfl := List.mem_singleton.mp hL
      refine ⟨by rw [hplp]; exact hbehind, f, haddr, by rw [hv.nframes]; exact hend, ?_⟩
      intro g h1 h2
      rw [hused g (by omega)]
      simp [h1, h2]
  · rw [List.map_append]
    refine List.pairwise_append.mpr ⟨hs.apart, List.pairwise_singleton _ _, ?_⟩
    intro a ha b hb
    obtain ⟨L, hL, rfl⟩ := List.mem_map.mp ha
    obtain rfl : b = M.extent := by simpa using hb
    obtain ⟨-, e, he, hlt, hu⟩ := hs.chunks L hL
    have hL' := (hs.blocks L hL).packed.le
    -- a frame of both would be free and in use
    have hone (g : Nat) (h1 : f ≤ g) (h2 : g < f + M.pages) (h3 : e ≤ g) (h4 : g < e + L.pages) :
        False := by
      have := hunused g h1 h2
      rw [hu g h3 h4] at this
      cases this
    have hM' := hM.packed.le
    unfold Major.stop majorHeader at hL' hM'
    by_contra hnot
    simp only [Apart, Major.extent, Major.stop] at hnot
    exact hone (max e f) (by omega) (by omega) (by omega) (by omega)

/-- Putting a block at the end changes the memory and the list. -/
theorem push_eq (s : State) (N : Major) : s.push N = { s with
    majors := s.majors ++ [N], mm := { s.mm with mem := (s.push N).mm.mem } } := rfl

theorem allocateNewPage_ok {s s₁ : State} {size : Nat} {N : Option Major}
    (h : allocateNewPage s size = .ok (N, s₁)) :
    ∃ maj mm, mmAllocPages s.mm (pagesFor size) = .ok (maj, mm) ∧ (maj ≠ 0 →
      ∃ M : Major, M = ⟨maj, pagesFor size, majorHeader, []⟩ ∧ N = some M ∧
        s₁ = { s with mm := { mm with
          mem := setWords mm.mem M.addr [0, 0, M.pages, M.size, majorHeader, 0] } }) := by
  obtain ⟨⟨maj, mm⟩, halloc, h⟩ := bind_eq_ok.mp h
  refine ⟨maj, mm, halloc, fun h0 => ?_⟩
  simp only [if_neg h0] at h
  split_ifs at h
  cases h
  exact ⟨_, rfl, rfl, rfl⟩

/-- `allocate_new_page`, and the new block at the end of the list. -/
theorem allocateNewPage_spec {s s₁ : State} {size : Nat} {N : Option Major} (hs : s.Sound)
    (hsize : size + majorHeader + minorHeader < 2 ^ 32) (hfree : FreeRun s.mm (pagesFor size))
    (h : allocateNewPage s size = .ok (N, s₁)) :
    ∃ M, N = some M ∧ M.Brand size ∧ (s₁.push M).majors = s.majors ++ [M] ∧ Grown s (s₁.push M) := by
  obtain ⟨h1, henough⟩ := pagesFor_spec hsize
  have hlow := hs.managed.low
  have hfew := hs.managed.few
  obtain ⟨maj, mm, halloc, hnew⟩ := allocateNewPage_ok h
  obtain ⟨f, rfl, hend, hbehind, hunused, hm, hv, hplp, hmem, hused⟩ :=
    hs.managed.mmAllocPages h1 hfree halloc
  obtain ⟨M, hM, rfl, rfl⟩ := hnew (by omega)
  have haddr : M.addr = 0x1000 * f := by rw [hM]
  have hpages : M.pages = pagesFor size := by rw [hM]
  have hempty : M.minors = [] := by rw [hM]
  have hsoundM : M.Sound := by
    refine ⟨?_, ?_, ?_, by simp [hempty], fun _ => by rw [hM]⟩
    · omega
    · unfold Major.stop
      omega
    · rw [hempty]
      simp only [Packed, Major.stop, majorHeader]
      omega
  rw [← hpages] at hend hunused hused henough
  have hsound := hs.extend hm hv hplp hused hunused hsoundM haddr hend (by omega)
  refine ⟨M, rfl, ⟨hsoundM, hempty, henough⟩, rfl, ?_⟩
  -- the headers, behind `plp` and beside all that was given away
  generalize hmem₁ : setWords mm.mem M.addr [0, 0, M.pages, M.size, majorHeader, 0] = mem₁
  let s₁ : State := { s with mm := { mm with mem := mem₁ } }
  change Grown s (s₁.push M)
  have hheads (z : Nat) (hz : z < M.addr ∨ M.addr + majorHeader ≤ z)
      (hall : ∀ L ∈ s.majors, z < L.addr ∨ L.addr + majorHeader ≤ z) :
      (s₁.push M).mm.mem z = mm.mem z := by
    have hhead : mem₁ z = mm.mem z := by
      rw [← hmem₁]
      exact setWords_apply hz
    exact (push_mem (s := s₁) hz hall).trans hhead
  have hpush := push_eq s₁ M
  have hagree : Memory.Agree 0 mm.plp mm.mem (s₁.push M).mm.mem := by
    intro z _ hz
    apply hheads z (.inl (by omega))
    intro L hL
    have := (hs.chunks L hL).behind
    omega
  refine ⟨?_, ?_, ?_, ⟨[M], ?_, ?_⟩, ?_⟩
  · rw [hpush]
    exact hsound.write hagree
  · rw [hpush]
    exact hv.trans rfl
  · rw [hpush]
    exact hplp
  · rw [hpush]
  · simp [hempty]
  · intro z hz
    rw [hheads z ?_ ?_]
    · exact hmem z (hs.owned_behind hz)
    · have hoff : State.Owned { s with mm := mm, majors := s.majors ++ [M] } z := by
        obtain ⟨L, hL, hz⟩ := hz
        exact ⟨L, List.mem_append_left _ hL, hz⟩
      exact (hsound.owned_off hoff (L := M) (by simp)).1
    · intro L hL
      exact (hs.owned_off hz hL).1

end Levos.Liballoc
