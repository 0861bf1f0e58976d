import Levos.Liballoc.Store

namespace Levos.Liballoc

open Levos.Framework Levos.Memory

/-- The bytes between the first `k` of the minors and those behind them, when the minors begin at `lo`
and the block ends at `hi`. -/
def gapIn (lo hi : Nat) (ms : List Minor) (k : Nat) : Nat :=
  startOf Minor.addr hi (ms.drop k) - endOf Minor.stop lo (ms.take k)

/-- The free bytes of a block behind its first `k` minors. -/
def Major.gap (M : Major) (k : Nat) : Nat := gapIn (M.addr + majorHeader) M.stop M.minors k

/-- What the minors of a block take. -/
def Major.taken (M : Major) : Nat := (M.minors.map fun m => m.size + minorHeader).sum

/-- The usage that every block is written up with is what it has given away, with all headers. -/
def State.Counted (s : State) : Prop := ∀ M ∈ s.majors, M.usage = majorHeader + M.taken

section Room

variable {M : Major} {size k : Nat}

theorem gapIn_succ (lo hi : Nat) (m : Minor) (ms : List Minor) (k : Nat) :
    gapIn lo hi (m :: ms) (k + 1) = gapIn m.stop hi ms k := rfl

/-- Where the loop over the minors stops: at the first gap behind one of them that is long enough. -/
theorem scanMinors_first {lo : Nat} {ms : List Minor} (hM : M.Sound) (hsize : size + minorHeader < 2 ^ 32)
    (hp : Packed Minor.addr Minor.stop lo M.stop ms) :
    (scanMinors M size k ms = none ∧
      ∀ j, 1 ≤ j → j ≤ ms.length → gapIn lo M.stop ms j < size + minorHeader) ∨
    ∃ pl j, scanMinors M size k ms = some pl ∧ 1 ≤ j ∧ j ≤ ms.length ∧
      size + minorHeader ≤ gapIn lo M.stop ms j ∧
      (∀ i, 1 ≤ i → i < j → gapIn lo M.stop ms i < size + minorHeader) ∧
      (pl = .case4₁ ∧ j = ms.length ∨ pl = .case4₂ (k + j - 1)) := by
  have hhigh := hM.high
  have hend : wrap (M.addr + M.size) = M.stop := by
    rw [hM.size_eq]
    exact wrap_of_lt hhigh
  induction ms generalizing lo k with
  | nil =>
    refine .inl ⟨rfl, ?_⟩
    intro j h1 h2
    simp only [List.length_nil] at h2
    omega
  | cons m ms ih =>
    obtain ⟨-, -, hrest⟩ := hp
    cases ms with
    | nil =>
      have hgap : gapIn lo M.stop [m] 1 = M.stop - m.stop := rfl
      simp only [scanMinors, hend, sub32_stop hrest hhigh, wrap_of_lt hsize]
      split_ifs with hfit
      · refine .inr ⟨_, 1, rfl, le_refl 1, by simp, hfit, ?_, .inl ⟨rfl, rfl⟩⟩
        intro i h1 h2
        omega
      · refine .inl ⟨rfl, ?_⟩
        intro j h1 h2
        obtain rfl : j = 1 := by
          simp only [List.length_cons, List.length_nil] at h2
          omega
        rw [hgap]
        omega
    | cons n ms =>
      have hn : n.addr < 2 ^ 32 := by
        have := (hrest.bounds List.mem_cons_self).2
        omega
      have hgap : gapIn lo M.stop (m :: n :: ms) 1 = n.addr - m.stop := rfl
      simp only [scanMinors, sub32_stop hrest.1 hn, wrap_of_lt hsize]
      split_ifs with hfit
      · refine .inr ⟨_, 1, rfl, le_refl 1, by simp, hfit, ?_, .inr (congrArg _ (by omega))⟩
        intro i h1 h2
        omega
      · have hsmall : gapIn lo M.stop (m :: n :: ms) 1 < size + minorHeader := by
          rw [hgap]
          omega
        rcases ih (k := k + 1) hrest with ⟨hnone, hall⟩ | ⟨pl, j, hpl, h1, h2, h3, h4, h5⟩
        · refine .inl ⟨hnone, ?_⟩
          intro j h1 h2
          by_cases hj : j = 1
          · rw [hj]
            exact hsmall
          · obtain ⟨i, rfl⟩ : ∃ i, j = i + 1 := ⟨j - 1, by omega⟩
            rw [gapIn_succ]
            exact hall i (by omega) (by simpa using h2)
        · refine .inr ⟨pl, j + 1, hpl, by omega, by simpa using h2, h3, ?_, ?_⟩
          · intro i hi1 hi2
            by_cases hi : i = 1
            · rw [hi]
              exact hsmall
            · obtain ⟨i', rfl⟩ : ∃ i', i = i' + 1 := ⟨i - 1, by omega⟩
              rw [gapIn_succ]
              exact h4 i' (by omega) (by omega)
          · rcases h5 with ⟨rfl, hj⟩ | rfl
            · exact .inl ⟨rfl, by simp only [List.length_cons] at hj ⊢; omega⟩
            · exact .inr (congrArg _ (by omega))

/-- What a block has given away and any of its gaps fit into it. -/
theorem Major.Sound.gap_le (hM : M.Sound) (k : Nat) :
    M.addr + majorHeader + M.taken + M.gap k ≤ M.stop := by
  have hp := hM.packed
  rw [← List.take_append_drop k M.minors] at hp
  have hle := hp.gap_le
  rw [List.take_append_drop] at hle
  have hsizes : (M.minors.map fun m => m.stop - m.addr) = M.minors.map fun m => m.size + minorHeader := by
    apply List.map_congr_left
    intro m _
    unfold Minor.stop
    omega
  rw [hsizes] at hle
  exact hle

/-- A block serves a request in the first of its gaps that is long enough, if there is one. -/
theorem Major.Sound.room_first (hM : M.Sound) (hcount : M.usage = majorHeader + M.taken)
    (hsize : size + minorHeader < 2 ^ 32) :
    (M.room size = none ∧ ∀ k ≤ M.minors.length, M.gap k < size + minorHeader) ∨
    ∃ pl, M.room size = some pl ∧ pl.before M.minors ≤ M.minors.length ∧
      size + minorHeader ≤ M.gap (pl.before M.minors) ∧
      ∀ j < pl.before M.minors, M.gap j < size + minorHeader := by
  have hhigh := hM.high
  have hle := hM.gap_le 0
  have hfree : sub32 M.size M.usage = M.stop - (M.addr + M.usage) := by
    unfold Major.stop at hhigh hle ⊢
    rw [hM.size_eq, sub32_eq (by omega) (by omega)]
    omega
  rw [Major.room, hfree, wrap_of_lt hsize]
  split_ifs with hfull
  · refine .inl ⟨rfl, ?_⟩
    intro k _
    have := hM.gap_le k
    omega
  · unfold Major.place
    cases hms : M.minors with
    | nil =>
      have hgap : M.gap 0 = M.stop - (M.addr + majorHeader) := by
        unfold Major.gap
        rw [hms]
        rfl
      have htaken : M.taken = 0 := by
        unfold Major.taken
        rw [hms]
        rfl
      refine .inr ⟨.case2, rfl, le_refl 0, ?_, fun j hj => absurd hj (Nat.not_lt_zero j)⟩
      change size + minorHeader ≤ M.gap 0
      omega
    | cons m ms =>
      have hp := hM.packed
      rw [hms] at hp
      have hm := hp.bounds List.mem_cons_self
      have hgap : M.gap 0 = m.addr - (M.addr + majorHeader) := by
        unfold Major.gap
        rw [hms]
        rfl
      have hbetween : sub32 (sub32 m.addr M.addr) majorHeader = m.addr - (M.addr + majorHeader) := by
        have h1 : sub32 m.addr M.addr = m.addr - M.addr := sub32_eq (by omega) (by omega)
        rw [h1, sub32_eq (by omega) (by omega)]
        omega
      simp only [hbetween, wrap_of_lt hsize]
      split_ifs with hfront
      · refine .inr ⟨.case3, rfl, Nat.zero_le _, ?_, fun j hj => absurd hj (Nat.not_lt_zero j)⟩
        change size + minorHeader ≤ M.gap 0
        omega
      · have hsmall : M.gap 0 < size + minorHeader := by omega
        have hgaps (j : Nat) : M.gap j = gapIn (M.addr + majorHeader) M.stop (m :: ms) j := by
          unfold Major.gap
          rw [hms]
        rcases scanMinors_first (k := 0) hM hsize hp with ⟨hnone, hall⟩ | ⟨pl, j, hpl, h1, h2, h3, h4, h5⟩
        · refine .inl ⟨hnone, ?_⟩
          intro k hk
          by_cases h0 : k = 0
          · rw [h0]
            exact hsmall
          · rw [hgaps]
            exact hall k (by omega) hk
        · have hbefore : pl.before (m :: ms) = j := by
            rcases h5 with ⟨rfl, hj⟩ | rfl
            · exact hj.symm
            · change 0 + j - 1 + 1 = j
              omega
          refine .inr ⟨pl, hpl, by rw [hbefore]; exact h2, by rw [hbefore, hgaps]; exact h3, ?_⟩
          intro i hi
          rw [hbefore] at hi
          by_cases h0 : i = 0
          · rw [h0]
            exact hsmall
          · rw [hgaps]
            exact h4 i (by omega) hi

end Room

namespace State.Counted

variable {s t : State} {M : Major} {m : Minor} {i k n p : Nat}

theorem of_eq (h : s.Counted) (hmajors : t.majors = s.majors) : t.Counted := by
  unfold State.Counted
  rw [hmajors]
  exact h

theorem replace {N : Major} (h : s.Counted)
    (hN : N.usage = majorHeader + N.taken) (ht : t.majors = s.majors.set i N) : t.Counted := by
  intro L hL
  rw [ht] at hL
  rcases List.mem_or_eq_of_mem_set hL with hL | rfl
  · exact h L hL
  · exact hN

theorem grows {size : Nat} (hsize : size + majorHeader + minorHeader < 2 ^ 32) :
    Grows size State.Counted := by
  refine ⟨fun s t _ hmajors h => h.of_eq hmajors, ?_⟩
  intro s s₁ N hs h _ hfree hnew
  obtain ⟨N', hN', hbrand, hpush, -⟩ := allocateNewPage_spec hs hsize hfree hnew
  obtain rfl := Option.some.inj hN'
  intro L hL
  rw [hpush] at hL
  rcases List.mem_append.mp hL with hL | hL
  · exact h L hL
  · obtain rfl := List.mem_singleton.mp hL
    rw [hbrand.sound.fresh hbrand.empty, Major.taken, hbrand.empty]
    rfl

/-- A block with one more minor. -/
theorem occupied {pl : Place} {size : Nat} (hM : M.Sound) (hcount : M.usage = majorHeader + M.taken)
    (hgap : M.gapStart pl + minorHeader + size ≤ M.gapEnd pl) :
    (M.occupied pl size n).usage = M.usage + (size + minorHeader) ∧
      (M.occupied pl size n).taken = M.taken + (size + minorHeader) := by
  have hhigh := hM.high
  have hle := hM.gap_le (pl.before M.minors)
  have hgap' : size + minorHeader ≤ M.gap (pl.before M.minors) := by
    change size + minorHeader ≤ M.gapEnd pl - M.gapStart pl
    omega
  refine ⟨?_, ?_⟩
  · change wrap (M.usage + wrap (size + minorHeader)) = M.usage + (size + minorHeader)
    have hinner : wrap (size + minorHeader) = size + minorHeader := wrap_of_lt (by omega)
    rw [hinner, wrap_of_lt (by omega)]
  · have hold : M.taken = ((M.pre pl ++ M.post pl).map fun m => m.size + minorHeader).sum := by
      rw [Major.Sound.pre_post]
      rfl
    rw [hold]
    simp only [Major.taken, Major.occupied, List.map_append, List.map_cons, List.sum_append,
      List.sum_cons]
    have hnew : (M.newMinor pl size n).size = size := rfl
    omega

theorem newMalloc (hs : s.Sound) (h : s.Counted) (hfit : Fits s n)
    (hmalloc : newMalloc s n = .ok (p, t)) : t.Counted := by
  have hsize := hfit.size
  have hgrows : Grows (n + 32) State.Counted := grows (by unfold majorHeader minorHeader; omega)
  apply newMalloc_rule (Q := fun _ => State.Counted) hgrows (fun _ s t _ hmajors h => h.of_eq hmajors)
    ?_ hs hfit hmalloc h
  intro s t i p M pl hs h hM hroom hoccupy
  obtain ⟨-, hmajors, -⟩ := occupy_ptr hoccupy
  have hmem := List.mem_of_getElem? hM
  have hsound := hs.blocks M hmem
  have hcount := h M hmem
  obtain ⟨husage, htaken⟩ := occupied (n := n) hsound hcount
    (hsound.room_gap (by unfold minorHeader; omega) hroom)
  exact h.replace (by rw [husage, htaken]; omega) hmajors

theorem vacated (hM : M.Sound) (hcount : M.usage = majorHeader + M.taken)
    (hm : M.minors[k]? = some m) : (M.vacated k).usage = majorHeader + (M.vacated k).taken := by
  have hhigh := hM.high
  have hle := hM.gap_le 0
  have hsum : M.taken = (M.vacated k).taken + (m.size + minorHeader) := by
    unfold Major.taken
    conv_lhs => rw [← split_at hm]
    simp only [Major.vacated, List.map_append, List.map_cons, List.sum_append, List.sum_cons]
    omega
  change sub32 M.usage (wrap (M.minors[k]?.elim 0 Minor.size + minorHeader)) = _
  have hsize : M.minors[k]?.elim 0 Minor.size = m.size := by rw [hm]; rfl
  rw [hsize, wrap_of_lt (by omega), sub32_eq (by omega) (by omega)]
  omega

theorem newFree {ptr : Nat} (hs : s.Sound) (h : s.Counted) (hkeep : ¬Empties s ptr)
    (hfree : newFree s ptr = .ok t) : t.Counted := by
  rcases newFree_cases hkeep hfree with ⟨-, hmajors, -⟩ | ⟨i, k, M, m, -, hM, hm, -, -, -, hmajors⟩
  · exact h.of_eq hmajors
  · have hmem := List.mem_of_getElem? hM
    exact h.replace (vacated (hs.blocks M hmem) (h M hmem) hm) hmajors

theorem run {es : List ClientEvent} (hk : s.Kept) (h : s.Counted) (hrun : Run ClientStep s es t) :
    t.Counted := by
  have hstep (s : State) (e : ClientEvent) (t : State) (hs : s.Kept ∧ s.Counted)
      (hst : ClientStep s e t) : t.Kept ∧ t.Counted := by
    refine ⟨hst.kept hs.1, ?_⟩
    obtain ⟨hkept, hcounted⟩ := hs
    cases hst with
    | kmalloc hfit hcall =>
      rw [hkept.ready.kmalloc_eq] at hcall
      exact hcounted.newMalloc hkept.ready.sound hfit hcall
    | newFree hkeep hcall => exact hcounted.newFree hkept.ready.sound hkeep hcall
    | write v hown => exact hcounted
  exact (hrun.invariant (fun s => s.Kept ∧ s.Counted) hstep ⟨hk, h⟩).2

end State.Counted

/-- The block with a minor of `size` bytes in the gap behind its first `k` minors. -/
def Major.filled (M : Major) (k size reqSize : Nat) : Major :=
  { M with
    usage := M.usage + (size + minorHeader)
    minors := M.minors.take k ++
      ⟨endOf Minor.stop (M.addr + majorHeader) (M.minors.take k), size, reqSize⟩ :: M.minors.drop k }

/-- A request is served from a gap of block `i` that is long enough, and is the first such of the block.
The memory manager is not asked for anything. -/
structure Reuses (s t : State) (n p i k : Nat) (M : Major) : Prop where
  block : s.majors[i]? = some M
  index : k ≤ M.minors.length
  enough : n + 56 ≤ M.gap k
  first : ∀ j < k, M.gap j < n + 56
  majors : t.majors = s.majors.set i (M.filled k (n + 32) n)
  pointer : p = (Minor.mk (endOf Minor.stop (M.addr + majorHeader) (M.minors.take k)) (n + 32) n).ptr
  vars : t.mm = { s.mm with mem := t.mm.mem }
  low : ∀ z < s.mm.plp, t.mm.mem z = s.mm.mem z

/-- A request is served from new pages, which begin with the minor for it. -/
def Extends (s t : State) (n : Nat) : Prop :=
  ∃ N : Major, t.majors = s.majors ++ [N] ∧ N.pages = pagesFor (n + 32) ∧
    N.minors = [⟨N.addr + majorHeader, n + 32, n⟩]

theorem allocateNewPage_size {s s₁ : State} {N : Major} {size : Nat}
    (h : allocateNewPage s size = .ok (some N, s₁)) : N.pages = pagesFor size := by
  obtain ⟨⟨maj, mm⟩, -, h⟩ := bind_eq_ok.mp h
  simp only at h
  split_ifs at h
  · cases h
  · cases h
    rfl

section Serve

variable {s t : State} {M : Major} {i n p : Nat} {pl : Place}

theorem newMinor_eq (hM : M.Sound) :
    M.newMinor pl (n + 32) n = ⟨M.gapStart pl, n + 32, n⟩ := by
  have haddr : M.behind (M.pre pl) = M.gapStart pl := hM.newMinor_addr pl (n + 32) n
  rw [Major.newMinor, haddr]

theorem occupied_filled (hM : M.Sound) (hcount : M.usage = majorHeader + M.taken)
    (hgap : M.gapStart pl + minorHeader + (n + 32) ≤ M.gapEnd pl) :
    M.occupied pl (n + 32) n = M.filled (pl.before M.minors) (n + 32) n := by
  obtain ⟨husage, -⟩ := State.Counted.occupied (n := n) hM hcount hgap
  have hminors : (M.occupied pl (n + 32) n).minors =
      (M.filled (pl.before M.minors) (n + 32) n).minors := by
    simp only [Major.occupied, newMinor_eq hM]
    rfl
  calc M.occupied pl (n + 32) n
      = { M with
          usage := (M.occupied pl (n + 32) n).usage
          minors := (M.occupied pl (n + 32) n).minors } := rfl
    _ = M.filled (pl.before M.minors) (n + 32) n := by
      rw [husage, hminors]
      rfl

/-- What a request is served from, when the end of its placement is reached. -/
theorem serves_either {u : State} (hs : u.Sound) (hc : u.Counted) (hfit : Fits s n)
    (hu : (u.mm = s.mm ∧ u.majors = s.majors) ∨
      s.Full (n + 32) ∧ ∃ N : Major, N.Brand (n + 32) ∧ N.pages = pagesFor (n + 32) ∧
        u.majors = s.majors ++ [N])
    (hM : u.majors[i]? = some M) (hroom : M.room (n + 32) = some pl)
    (h : occupy u i M pl (n + 32) n = .ok (p, t)) :
    (¬s.Full (n + 32) ∧ ∃ k M, Reuses s t n p i k M) ∨ s.Full (n + 32) ∧ Extends s t n := by
  have hsize := hfit.size
  have hmem := List.mem_of_getElem? hM
  have hsound := hs.blocks M hmem
  have hcount := hc M hmem
  have hgap := hsound.room_gap (by unfold minorHeader; omega) hroom
  have hfilled := occupied_filled hsound hcount hgap
  have hbehind := (hs.chunks M hmem).behind
  obtain ⟨hvars, hmajors, hbytes⟩ := occupy_ok h
  rw [hfilled] at hmajors
  have hword : n + 32 + minorHeader < 2 ^ 32 := by
    unfold minorHeader
    omega
  have hfirst := hsound.room_first hcount hword
  rcases hfirst with ⟨hnone, -⟩ | ⟨pl', hpl, h1, h2, h3⟩
  · rw [hroom] at hnone
    cases hnone
  obtain rfl := Option.some.inj (hroom.symm.trans hpl)
  rcases hu with ⟨hmm, hmajors'⟩ | ⟨hfull, N, hbrand, hpages, hmajors'⟩
  · left
    rw [hmajors'] at hM hmajors
    rw [hmm] at hvars hbytes hbehind
    refine ⟨?_, pl.before M.minors, M, hM, h1, h2, h3, hmajors, ?_, hvars, ?_⟩
    · intro hfull
      have hnone := hfull M (List.mem_of_getElem? hM)
      rw [hroom] at hnone
      cases hnone
    · rw [(occupy_ptr h).1, newMinor_eq hsound]
      rfl
    · intro z hz
      have hb := hsound.gap_bounds pl
      have hhigh := hsound.high
      have haddr := hsound.newMinor_addr pl (n + 32) n
      have hptr := newMinor_bounds hsound hroom (by unfold minorHeader; omega)
      have hstop : (M.newMinor pl (n + 32) n).stop < 2 ^ 32 := by
        unfold Minor.stop
        rw [haddr]
        change M.gapStart pl + minorHeader + (n + 32) < 2 ^ 32
        omega
      rw [hbytes z (.inl (by omega))]
      apply occupyMem_apply hstop rfl ?_ (.inl (by omega))
      refine ⟨.inl (by omega), ?_⟩
      intro m hm
      have := hsound.bounds hm
      omega
  · right
    refine ⟨hfull, ?_⟩
    rw [hmajors'] at hM hmajors
    have hi : i = s.majors.length := by
      have hlt := (List.getElem?_eq_some_iff.mp hM).1
      rw [List.length_append, List.length_singleton] at hlt
      by_contra hne
      rw [List.getElem?_append_left (by omega)] at hM
      have hnone := hfull M (List.mem_of_getElem? hM)
      rw [hroom] at hnone
      cases hnone
    obtain rfl : N = M := by
      rw [hi] at hM
      simpa using hM
    refine ⟨N.filled (pl.before N.minors) (n + 32) n, ?_, hpages, ?_⟩
    · rw [hmajors, hi]
      simp
    · rw [Major.filled, hbrand.empty]
      simp only [List.take_nil, List.drop_nil, List.nil_append]
      rfl

end Serve

/-- In every state that the users of the heap can bring it to, the usage of each block is what it has
given away. A request is then served from a gap if there is one that is long enough for it and a
header, and from the first such gap of its block; new pages are asked for only where there is none. -/
theorem kmalloc_first_fit {s₀ s t : State} {es : List ClientEvent} {n p : Nat} (hi : Installed s₀)
    (h : Run ClientStep s₀ es s) (hfit : Fits s n) (hcall : s.kmalloc n = .ok (p, t)) :
    (∀ M ∈ s.majors, M.usage = majorHeader + M.taken) ∧
      ((∃ M ∈ s.majors, ∃ k ≤ M.minors.length, n + 56 ≤ M.gap k) →
        ∃ i k M, Reuses s t n p i k M) ∧
      ((∀ M ∈ s.majors, ∀ k ≤ M.minors.length, M.gap k < n + 56) → Extends s t n) := by
  have hsize := hfit.size
  have hkept := kept_run hi.kept h
  have hcounted : s.Counted := by
    apply State.Counted.run hi.kept ?_ h
    obtain ⟨s₁, ls, s₂, mm, -, -, -, -, -, -, -, rfl⟩ := hi
    intro M hM
    cases hM
  have hword : n + 32 + minorHeader < 2 ^ 32 := by
    unfold minorHeader
    omega
  have hgaps (M : Major) (hM : M ∈ s.majors) :=
    (hkept.ready.sound.blocks M hM).room_first (hcounted M hM) hword
  rw [hkept.ready.kmalloc_eq] at hcall
  have hgrows : Grows (n + 32) fun u => u.Counted ∧ ((u.mm = s.mm ∧ u.majors = s.majors) ∨
      s.Full (n + 32) ∧ ∃ N : Major, N.Brand (n + 32) ∧ N.pages = pagesFor (n + 32) ∧
        u.majors = s.majors ++ [N]) := by
    have hsize' : n + 32 + majorHeader + minorHeader < 2 ^ 32 := by
      unfold majorHeader minorHeader
      omega
    refine ⟨?_, ?_⟩
    · intro u v hmm hmajors hu
      rw [hmm, hmajors]
      exact ⟨hu.1.of_eq hmajors, hu.2⟩
    · rintro u v N hu ⟨hc, hor⟩ hfull hfree hnew
      obtain ⟨N', hN', hbrand, hpush, -⟩ := allocateNewPage_spec hu hsize' hfree hnew
      obtain rfl := Option.some.inj hN'
      refine ⟨(State.Counted.grows hsize').block u v N hu hc hfull hfree hnew, .inr ?_⟩
      rcases hor with ⟨-, hmajors⟩ | ⟨-, L, hL, -, hmajors⟩
      · refine ⟨?_, N, hbrand, ?_, ?_⟩
        · rwa [State.Full, hmajors] at hfull
        · exact allocateNewPage_size hnew
        · rw [hpush, hmajors]
      · have hnone := hfull L (by rw [hmajors]; simp)
        rw [hL.room] at hnone
        cases hnone
  have hserved : (¬s.Full (n + 32) ∧ ∃ i k M, Reuses s t n p i k M) ∨
      s.Full (n + 32) ∧ Extends s t n := by
    refine newMalloc_rule (Q := fun p t => (¬s.Full (n + 32) ∧ ∃ i k M, Reuses s t n p i k M) ∨
      s.Full (n + 32) ∧ Extends s t n) hgrows ?_ ?_ hkept.ready.sound hfit hcall
      ⟨hcounted, .inl ⟨rfl, rfl⟩⟩
    · intro p u v hmm hmajors hu
      rcases hu with ⟨hnot, i, k, M, hr⟩ | ⟨hfull, hext⟩
      · refine .inl ⟨hnot, i, k, M, hr.block, hr.index, hr.enough, hr.first, ?_, hr.pointer, ?_, ?_⟩
        · rw [hmajors, hr.majors]
        · rw [hmm]
          exact hr.vars
        · rw [hmm]
          exact hr.low
      · refine .inr ⟨hfull, ?_⟩
        rw [Extends, hmajors]
        exact hext
    · rintro u v i p M pl hu ⟨hc, hu'⟩ hM hroom hoccupy
      rcases serves_either hu hc hfit hu' hM hroom hoccupy with ⟨hnot, k, M, hreuse⟩ | hext
      · exact .inl ⟨hnot, i, k, M, hreuse⟩
      · exact .inr hext
  refine ⟨hcounted, ?_, ?_⟩
  · rintro ⟨M, hM, k, hk, hgap⟩
    rcases hserved with ⟨-, hreuse⟩ | ⟨hfull, -⟩
    · exact hreuse
    · rcases hgaps M hM with ⟨-, hall⟩ | ⟨pl, hpl, -⟩
      · have hsmall := hall k hk
        unfold minorHeader at hsmall
        omega
      · have hnone := hfull M hM
        rw [hpl] at hnone
        cases hnone
  · intro hall
    rcases hserved with ⟨hnot, -⟩ | ⟨-, hext⟩
    · apply absurd ?_ hnot
      intro M hM
      rcases hgaps M hM with ⟨hnone, -⟩ | ⟨pl, -, hle, henough, -⟩
      · exact hnone
      · have hsmall := hall M hM _ hle
        unfold minorHeader at henough
        omega
    · exact hext

/-- The second of two requests is served from the pages of the first. -/
theorem kmalloc_first_fit_second : ∃ mm s t, Installed (heapInstall mm) ∧
    Run ClientStep (heapInstall mm) [.kmalloc 8 0x800040] s ∧ s.kmalloc 8 = .ok (0x800080, t) ∧
    ∃ i k M, Reuses s t 8 0x800080 i k M := by
  obtain ⟨mm, mm', mem, hinst, hfirst, hsecond⟩ := first_request
  refine ⟨mm, _, _, hinst, .single hfirst, hsecond, ?_⟩
  apply (kmalloc_first_fit hinst (.single hfirst) (chunkHeap_fits mm' mem) hsecond).2.1
  exact ⟨chunkAt 1, List.mem_singleton_self _, 1, by decide, by decide⟩

end Levos.Liballoc
