import Levos.Framework.BlockStore
import Levos.Liballoc.Lists
import Levos.Liballoc.Live
import Levos.Liballoc.ZeroFill

namespace Levos.Liballoc

open Levos.Framework Levos.Memory

/-- What the users of the heap do: requests, each with the pointer that it got, blocks that are given
back, and bytes that an owner writes. -/
inductive ClientEvent
  | kmalloc (n p : Nat)
  | newFree (p : Nat)
  | write (a : Nat) (v : BitVec 8)

/-- A step of a user, with requests that the heap can meet, and no block of pages that is given back. -/
inductive ClientStep : State → ClientEvent → State → Prop
  | kmalloc {s t : State} {n p : Nat} (hfit : Fits s n) (h : s.kmalloc n = .ok (p, t)) :
      ClientStep s (.kmalloc n p) t
  | newFree {s t : State} {p : Nat} (hkeep : ¬Empties s p) (h : newFree s p = .ok t) :
      ClientStep s (.newFree p) t
  | write {s : State} {a : Nat} (v : BitVec 8) (h : s.Owned a) :
      ClientStep s (.write a v) (s.setMem (setByte s.mm.mem a v))

/-- The heap between two calls, with its structures in memory. -/
structure State.Kept (s : State) : Prop where
  ready : s.Ready
  written : s.Written

theorem Installed.kept {s : State} (h : Installed s) : s.Kept := by
  refine ⟨h.ready, ?_⟩
  obtain ⟨s₀, ls, s₁, mm, -, -, -, -, -, -, -, rfl⟩ := h
  refine ⟨by simp [heapInstall], ?_, trivial⟩
  intro a as has
  simp [heapInstall] at has

theorem ClientStep.kept {s t : State} {e : ClientEvent} (hs : s.Kept) (h : ClientStep s e t) : t.Kept := by
  obtain ⟨hready, hwritten⟩ := hs
  cases h with
  | kmalloc hfit h =>
    refine ⟨(hready.kmalloc hfit h).1, ?_⟩
    rw [hready.kmalloc_eq] at h
    exact hwritten.newMalloc hready.sound hfit h
  | newFree hkeep h =>
    refine ⟨⟨(newFree_spec hready.sound hkeep h).sound, ?_⟩, hwritten.newFree hready.sound hkeep h⟩
    rcases newFree_ok h with ⟨-, rfl⟩ | ⟨-, u, -, rfl⟩
    · exact hready.unlocked
    · rfl
  | @write a v h =>
    have hmem (z : Nat) (hz : ¬s.Owned z) : setByte s.mm.mem a v z = s.mm.mem z := by
      apply if_neg
      rintro rfl
      exact hz h
    exact ⟨hready.setMem hmem, hwritten.setMem hready.sound hmem⟩

theorem kept_run {s t : State} {es : List ClientEvent} (hs : s.Kept) (h : Run ClientStep s es t) :
    t.Kept :=
  h.invariant State.Kept (fun _ _ _ hs hst => hst.kept hs) hs

section TwoBlocks

/-- Two requests, a byte that is written to the second block, and this block given back. -/
def twoBlocks : List ClientEvent :=
  [.kmalloc 8 0x800040, .kmalloc 8 0x800080, .write 0x800080 0xFF, .newFree 0x800080]

theorem chunkHeap_fits (mm : Mm) (mem : Memory) : Fits (chunkHeap mm mem 1) 8 := by
  refine ⟨by decide, fun hfull => ?_⟩
  have hnone := hfull (chunkAt 1) (List.mem_singleton_self _)
  rw [chunkAt_room] at hnone
  cases hnone

/-- The heap of a kernel of less than 1 MiB meets the first of them from new pages, and the second one from
the same pages. -/
theorem first_request : ∃ mm mm' mem, Installed (heapInstall mm) ∧
    ClientStep (heapInstall mm) (.kmalloc 8 0x800040) (chunkHeap mm' mem 1) ∧
    (chunkHeap mm' mem 1).kmalloc 8 =
      .ok (0x800080, chunkHeap mm' (occupyMem mem (chunkAt 1) .case4₁ 40 8) 2) := by
  obtain ⟨mm, mm', hinst, hfree, halloc, hthere, -⟩ := imageTo_installs
  obtain ⟨mem, hmalloc, -⟩ := chunkHeap_first _ halloc hthere
  have hpages : pagesFor (8 + 32) = 16 := by decide
  have hfits : Fits (heapInstall mm) 8 := ⟨by decide, fun _ => by rw [hpages]; exact hfree⟩
  have hfirst : ClientStep (heapInstall mm) (.kmalloc 8 0x800040) (chunkHeap mm' mem 1) :=
    .kmalloc hfits ((hinst.ready.kmalloc_eq 8).trans hmalloc)
  have hready₁ := (hfirst.kept hinst.kept).ready
  exact ⟨mm, mm', mem, hinst, hfirst, (hready₁.kmalloc_eq 8).trans (chunkHeap_second mm' mem)⟩

theorem twoBlocks_run : ∃ mm mm' mem, Installed (heapInstall mm) ∧
    Run ClientStep (heapInstall mm) (twoBlocks.take 3) (chunkHeap mm' (tailWritten mem 0x800080) 2) ∧
    ClientStep (chunkHeap mm' (tailWritten mem 0x800080) 2) (.newFree 0x800080)
      (chunkHeap mm' (tailFreed mem 0x800080) 1) := by
  obtain ⟨mm, mm', mem, hinst, hfirst, hcall⟩ := first_request
  let placed : State := chunkHeap mm' (occupyMem mem (chunkAt 1) .case4₁ 40 8) 2
  have hsecond : ClientStep (chunkHeap mm' mem 1) (.kmalloc 8 0x800080) placed :=
    .kmalloc (chunkHeap_fits mm' mem) hcall
  have howned : placed.Owned 0x800080 := chunkHeap_owned mm' _ true
  obtain ⟨halign, hmagic⟩ := tailWritten_header mem true
  refine ⟨mm, mm', mem, hinst, .cons hfirst (.cons hsecond (.single (.write 0xFF howned))), ?_⟩
  exact .newFree (chunkHeap_keeps mm' _ _) (chunkHeap_free mm' halign hmagic)

end TwoBlocks

/-- The bytes from `a` on. -/
def bytesAt (mem : Memory) (a n : Nat) : List (BitVec 8) := (List.range n).map fun i => mem (a + i)

/-- What the pointer `p` was given away for: the bytes of the minor that it points into. -/
def State.contents (s : State) (p : Nat) : Option (List (BitVec 8)) :=
  (s.live.find? fun m => m.ptr = p).map fun m => bytesAt s.mm.mem p m.reqSize

theorem bytesAt_eq {mem mem' : Memory} {a n : Nat} (h : ∀ z, a ≤ z → z < a + n → mem' z = mem z) :
    bytesAt mem' a n = bytesAt mem a n := by
  apply List.map_congr_left
  intro i hi
  rw [List.mem_range] at hi
  exact h _ (by omega) (by omega)

/-- A byte that is written shows in the bytes. -/
theorem bytesAt_set {mem : Memory} {a n i : Nat} {v : BitVec 8} :
    bytesAt (setByte mem (a + i) v) a n = (bytesAt mem a n).set i v := by
  apply List.ext_getElem?
  intro j
  rw [List.getElem?_set, bytesAt, bytesAt, List.length_map, List.length_range, List.getElem?_map,
    List.getElem?_map]
  by_cases hj : j < n
  · rw [List.getElem?_range hj, Option.map_some, Option.map_some, setByte]
    by_cases hij : i = j
    · subst hij
      rw [if_pos rfl, if_pos rfl, if_pos hj]
    · rw [if_neg (by omega), if_neg hij]
  · rw [List.getElem?_eq_none (by simpa using hj)]
    split_ifs
    · omega
    · rfl
    · rfl

namespace State.Sound

variable {s : State} {m y : Minor}

/-- What liballoc has given away lies apart. -/
theorem live_apart (hs : s.Sound) (hm : m ∈ s.live) (hy : y ∈ s.live) (hne : m ≠ y) :
    m.stop ≤ y.addr ∨ y.stop ≤ m.addr := by
  obtain ⟨M, hM, hmM⟩ := List.mem_flatMap.mp hm
  obtain ⟨L, hL, hyL⟩ := List.mem_flatMap.mp hy
  by_cases hML : M = L
  · subst hML
    exact (hs.blocks M hM).packed.apart hmM hyL hne
  · have hdisj := hs.disjoint hM hL hML
    have h1 := (hs.blocks M hM).bounds hmM
    have h2 := (hs.blocks L hL).bounds hyL
    omega

/-- Where the pointer of a minor lies, and what it is given away for. -/
theorem live_ptr (hs : s.Sound) (hm : m ∈ s.live) :
    m.addr + 40 ≤ m.ptr ∧ m.ptr + m.reqSize < m.stop ∧ m.stop = m.addr + m.reqSize + 56 ∧
      m.stop < 2 ^ 32 := by
  obtain ⟨M, hM, hmM⟩ := List.mem_flatMap.mp hm
  have hb := (hs.blocks M hM).bounds hmM
  have hhigh := (hs.blocks M hM).high
  have hsize := (hs.blocks M hM).sizes m hmM
  have hptr := Minor.ptr_bounds hsize (by omega)
  have hstop : m.stop = m.addr + 24 + m.size := rfl
  unfold minorHeader at hptr
  omega

theorem live_eq (hs : s.Sound) (hm : m ∈ s.live) (hy : y ∈ s.live) (hptr : m.ptr = y.ptr) : m = y := by
  by_contra hne
  have hapart := hs.live_apart hm hy hne
  have h1 := hs.live_ptr hm
  have h2 := hs.live_ptr hy
  omega

theorem live_addr (hs : s.Sound) (hm : m ∈ s.live) (hy : y ∈ s.live) (haddr : m.addr = y.addr) :
    m = y := by
  by_contra hne
  have hapart := hs.live_apart hm hy hne
  have h1 := m.header_le
  have h2 := y.header_le
  omega

theorem contents_eq (hs : s.Sound) {p : Nat} {bs : List (BitVec 8)} :
    s.contents p = some bs ↔ ∃ m ∈ s.live, m.ptr = p ∧ bytesAt s.mm.mem p m.reqSize = bs := by
  rw [State.contents, Option.map_eq_some_iff]
  constructor
  · rintro ⟨m, hm, hbs⟩
    exact ⟨m, List.mem_of_find?_eq_some hm, by simpa using List.find?_some hm, hbs⟩
  · rintro ⟨m, hm, hptr, hbs⟩
    cases hfind : s.live.find? fun m => m.ptr = p with
    | none =>
      have hno := List.find?_eq_none.mp hfind m hm
      simp [hptr] at hno
    | some y =>
      have hy : y.ptr = p := by simpa using List.find?_some hfind
      obtain rfl := hs.live_eq (List.mem_of_find?_eq_some hfind) hm (hy.trans hptr.symm)
      exact ⟨y, rfl, hbs⟩

/-- The store of blocks that the heap stands for. -/
def store (hs : s.Sound) : BlockStore (BitVec 8) where
  held := s.contents
  apart := by
    intro p q bs cs hp hq hpq
    obtain ⟨m, hm, rfl, rfl⟩ := hs.contents_eq.mp hp
    obtain ⟨y, hy, rfl, rfl⟩ := hs.contents_eq.mp hq
    have hne : m ≠ y := by
      rintro rfl
      exact hpq rfl
    have hapart := hs.live_apart hm hy hne
    have h1 := hs.live_ptr hm
    have h2 := hs.live_ptr hy
    simp only [bytesAt, List.length_map, List.length_range]
    omega

end State.Sound

section Live

variable {s t : State} {M N : Major} {m y : Minor} {i k n p : Nat}

/-- What is given away when one block is another. -/
theorem mem_live_set (hM : s.majors[i]? = some M) (ht : t.majors = s.majors.set i N) :
    y ∈ t.live ↔ y ∈ N.minors ∨ ∃ j L, j ≠ i ∧ s.majors[j]? = some L ∧ y ∈ L.minors := by
  have hi := (List.getElem?_eq_some_iff.mp hM).1
  unfold State.live
  rw [List.mem_flatMap, ht]
  constructor
  · rintro ⟨L, hL, hy⟩
    obtain ⟨j, hj⟩ := List.getElem?_of_mem hL
    by_cases hij : i = j
    · subst hij
      rw [List.getElem?_set_self hi] at hj
      obtain rfl := Option.some.inj hj
      exact .inl hy
    · rw [List.getElem?_set_ne hij] at hj
      exact .inr ⟨j, L, Ne.symm hij, hj, hy⟩
  · rintro (hy | ⟨j, L, hji, hL, hy⟩)
    · exact ⟨N, List.mem_set hi N, hy⟩
    · refine ⟨L, ?_, hy⟩
      have hset : (s.majors.set i N)[j]? = some L := by rw [List.getElem?_set_ne (Ne.symm hji), hL]
      exact List.mem_of_getElem? hset

theorem mem_live (hM : s.majors[i]? = some M) :
    y ∈ s.live ↔ y ∈ M.minors ∨ ∃ j L, j ≠ i ∧ s.majors[j]? = some L ∧ y ∈ L.minors := by
  apply mem_live_set hM
  obtain ⟨hi, rfl⟩ := List.getElem?_eq_some_iff.mp hM
  exact (List.set_getElem_self hi).symm

/-- `new_malloc` gives a new minor away, and leaves those that it has given away. -/
theorem newMalloc_live (hs : s.Sound) (hfit : Fits s n) (h : newMalloc s n = .ok (p, t)) :
    ∃ x : Minor, x.ptr = p ∧ x.reqSize = n ∧ x ∉ s.live ∧ ∀ y, y ∈ t.live ↔ y ∈ s.live ∨ y = x := by
  have hsize := hfit.size
  have hgrows : Grows (n + 32) fun u => u.live = s.live := by
    refine ⟨?_, ?_⟩
    · intro u v _ hmajors hu
      rw [State.live, hmajors]
      exact hu
    · intro u v N _ hu _ _ hnew
      exact ((allocateNewPage_live hnew).2 N rfl).trans hu
  refine newMalloc_rule (Q := fun p u => ∃ x : Minor, x.ptr = p ∧ x.reqSize = n ∧ x ∉ s.live ∧
    ∀ y, y ∈ u.live ↔ y ∈ s.live ∨ y = x) hgrows ?_ ?_ hs hfit h rfl
  · intro p u v _ hmajors hu
    have hlive : v.live = u.live := by
      unfold State.live
      rw [hmajors]
    rwa [hlive]
  · intro u v i p M pl hu hlive hM hroom hoccupy
    obtain ⟨hp, hmajors, -⟩ := occupy_ptr hoccupy
    have hMu := List.mem_of_getElem? hM
    have hsound := hu.blocks M hMu
    have hgap := hsound.room_gap (by unfold minorHeader; omega) hroom
    have hb := hsound.gap_bounds pl
    have haddr := hsound.newMinor_addr pl (n + 32) n
    refine ⟨M.newMinor pl (n + 32) n, hp.symm, rfl, ?_, ?_⟩
    · rw [← hlive]
      intro hx
      rcases (mem_live hM).mp hx with hx | ⟨j, L, hji, hL, hx⟩
      · rw [← Major.Sound.pre_post M pl] at hx
        have hhead := (M.newMinor pl (n + 32) n).header_le
        unfold minorHeader at hgap
        rcases List.mem_append.mp hx with hx | hx
        · have := hsound.pre_bounds hx
          omega
        · have := hsound.post_bounds hx
          omega
      · have hdisj := hu.apart_at hL hM hji
        have hbL := (hu.blocks L (List.mem_of_getElem? hL)).bounds hx
        have hhead := (M.newMinor pl (n + 32) n).header_le
        unfold majorHeader minorHeader at *
        omega
    · intro y
      have hminors : y ∈ (M.occupied pl (n + 32) n).minors ↔
          y ∈ M.minors ∨ y = M.newMinor pl (n + 32) n := by
        rw [← Major.Sound.pre_post M pl]
        simp only [Major.occupied, List.mem_append, List.mem_cons]
        tauto
      rw [mem_live_set hM hmajors, hminors, ← hlive, mem_live hM]
      exact or_right_comm

/-- The pointer leads `new_free` to the header. -/
theorem minorOf_ptr (hs : s.Kept) (hm : m ∈ s.live) :
    minorOf s m.ptr = m.addr ∧ s.mm.mem.word (m.addr + 12) = liballocMagic := by
  obtain ⟨⟨hsound, -⟩, hwritten⟩ := hs
  have hptr := hsound.live_ptr hm
  obtain ⟨M, hM, hmM⟩ := List.mem_flatMap.mp hm
  have hheader := (hwritten.blocks M hM).minors m hmM
  refine ⟨?_, hheader.magic⟩
  have hnear : m.ptr ≤ m.addr + 55 := by
    have hstart : wrap (m.addr + minorHeader) = m.addr + 24 := wrap_of_lt (by unfold minorHeader; omega)
    have hb := align_bounds (a := m.addr + 24) (by omega)
    rw [Minor.ptr, hstart]
    omega
  have hback : sub32 m.ptr 16 = m.ptr - 16 := sub32_eq (by omega) (by omega)
  have hinfo : (s.mm.mem (m.ptr - 16)).toNat = m.ptr - (m.addr + 24) := by
    rw [hheader.info, BitVec.toNat_ofNat]
    unfold minorHeader
    omega
  have hsub : sub32 m.ptr (m.ptr - (m.addr + 24)) = m.addr + 24 := by
    rw [sub32_eq (by omega) (by omega)]
    omega
  unfold minorOf unalign minorHeader
  rw [hback]
  simp only [hinfo]
  rw [if_pos (by omega), hsub, sub32_eq (by omega) (by omega)]
  omega

/-- A block that is given back is the one that the pointer was given away for. -/
theorem newFree_live_mem (hs : s.Kept) (hm : m ∈ s.live) (hkeep : ¬Empties s m.ptr)
    (h : newFree s m.ptr = .ok t) : ∀ y, y ∈ t.live ↔ y ∈ s.live ∧ y ≠ m := by
  obtain ⟨haddr, hmagic⟩ := minorOf_ptr hs hm
  have hsound := hs.ready.sound
  have hptr := hsound.live_ptr hm
  rcases newFree_cases hkeep h with ⟨-, -, h0 | hnot⟩ | ⟨i, k, M, x, -, hM, hx, hxaddr, -, -, hmajors⟩
  · omega
  · rw [haddr] at hnot
    exact absurd hmagic hnot
  · have hxlive : x ∈ s.live :=
      List.mem_flatMap.mpr ⟨M, List.mem_of_getElem? hM, List.mem_of_getElem? hx⟩
    obtain rfl := hsound.live_addr hxlive hm (hxaddr.trans haddr)
    intro y
    rw [mem_live_set hM hmajors, mem_live hM]
    have hp := (hsound.blocks M (List.mem_of_getElem? hM)).packed
    have hall := split_at hx
    rw [← hall] at hp
    have hsplit := hp.pairwise
    have hself := x.header_le
    have hout (hin : x ∈ M.minors.take k ++ M.minors.drop (k + 1)) : False := by
      rcases List.mem_append.mp hin with hin | hin
      · have hle := (List.pairwise_append.mp hsplit).2.2 x hin x List.mem_cons_self
        omega
      · have hle := List.rel_of_pairwise_cons (List.pairwise_append.mp hsplit).2.1 hin
        omega
    constructor
    · rintro (hy | ⟨j, L, hji, hL, hy⟩)
      · refine ⟨.inl ?_, fun hyx => hout (hyx ▸ hy)⟩
        rw [← hall]
        rcases List.mem_append.mp hy with hy | hy
        · exact List.mem_append_left _ hy
        · exact List.mem_append_right _ (List.mem_cons_of_mem _ hy)
      · refine ⟨.inr ⟨j, L, hji, hL, hy⟩, ?_⟩
        rintro rfl
        have hdisj := hsound.apart_at hL hM hji
        have h1 := (hsound.blocks L (List.mem_of_getElem? hL)).bounds hy
        have h2 := (hsound.blocks M (List.mem_of_getElem? hM)).bounds (List.mem_of_getElem? hx)
        omega
    · rintro ⟨hy | hrest, hne⟩
      · rw [← hall] at hy
        rcases List.mem_append.mp hy with hy | hy
        · exact .inl (List.mem_append_left _ hy)
        · exact .inl (List.mem_append_right _ ((List.mem_cons.mp hy).resolve_left hne))
      · exact .inr hrest

theorem owned_iff_live {z : Nat} : s.Owned z ↔ ∃ m ∈ s.live, m.Holds z := by
  unfold State.Owned State.live
  simp only [List.mem_flatMap]
  constructor
  · rintro ⟨M, hM, m, hm, hz⟩
    exact ⟨m, ⟨M, hM, hm⟩, hz⟩
  · rintro ⟨m, ⟨M, hM, hm⟩, hz⟩
    exact ⟨M, hM, m, hm, hz⟩

/-- The bytes of what was given away are kept where nothing that is owned is written to. -/
theorem bytesAt_owned (hm : m ∈ s.live) (hmem : ∀ z, s.Owned z → t.mm.mem z = s.mm.mem z) :
    bytesAt t.mm.mem m.ptr m.reqSize = bytesAt s.mm.mem m.ptr m.reqSize :=
  bytesAt_eq fun z h1 h2 => hmem z (owned_iff_live.mpr ⟨m, hm, h1, h2⟩)

theorem kmalloc_contents (hs : s.Kept) (hfit : Fits s n) (h : s.kmalloc n = .ok (p, t)) :
    s.contents p = none ∧
      ∀ q, t.contents q = if q = p then some (bytesAt t.mm.mem p n) else s.contents q := by
  have hready := hs.ready
  obtain ⟨hready', hserves⟩ := hready.kmalloc hfit h
  rw [hready.kmalloc_eq] at h
  obtain ⟨x, hp, rfl, hnew, hlive⟩ := newMalloc_live hready.sound hfit h
  have hx : x ∈ t.live := (hlive x).mpr (.inr rfl)
  have hold (q : Nat) (hq : q ≠ p) (bs : List (BitVec 8)) :
      t.contents q = some bs ↔ s.contents q = some bs := by
    rw [hready'.sound.contents_eq, hready.sound.contents_eq]
    constructor
    · rintro ⟨m, hm, rfl, hbs⟩
      have hms : m ∈ s.live := by
        apply ((hlive m).mp hm).resolve_right
        rintro rfl
        exact hq hp
      exact ⟨m, hms, rfl, (bytesAt_owned hms hserves.mem) ▸ hbs⟩
    · rintro ⟨m, hm, rfl, hbs⟩
      exact ⟨m, (hlive m).mpr (.inl hm), rfl, (bytesAt_owned hm hserves.mem).trans hbs⟩
  refine ⟨?_, ?_⟩
  · apply Option.eq_none_iff_forall_ne_some.mpr
    intro bs hbs
    obtain ⟨m, hm, hmp, -⟩ := hready.sound.contents_eq.mp hbs
    obtain rfl := hready'.sound.live_eq ((hlive m).mpr (.inl hm)) hx (hmp.trans hp.symm)
    exact hnew hm
  · intro q
    by_cases hq : q = p
    · rw [if_pos hq, hready'.sound.contents_eq]
      exact ⟨x, hx, hp.trans hq.symm, by rw [hq]⟩
    · rw [if_neg hq]
      exact Option.ext (hold q hq)

theorem newFree_contents (hs : s.Kept) (hp : s.contents p ≠ none) (hkeep : ¬Empties s p)
    (h : newFree s p = .ok t) : ∀ q, t.contents q = if q = p then none else s.contents q := by
  have ht := (ClientStep.newFree hkeep h).kept hs
  have hreleases := newFree_spec hs.ready.sound hkeep h
  obtain ⟨bs, hbs⟩ := Option.ne_none_iff_exists'.mp hp
  obtain ⟨m, hm, rfl, -⟩ := hs.ready.sound.contents_eq.mp hbs
  have hlive := newFree_live_mem hs hm hkeep h
  intro q
  by_cases hq : q = m.ptr
  · rw [if_pos hq]
    apply Option.eq_none_iff_forall_ne_some.mpr
    intro cs hcs
    obtain ⟨y, hy, hyq, -⟩ := ht.ready.sound.contents_eq.mp hcs
    obtain ⟨hys, hne⟩ := (hlive y).mp hy
    exact hne (hs.ready.sound.live_eq hys hm (hyq.trans hq))
  · rw [if_neg hq]
    apply Option.ext
    intro cs
    rw [ht.ready.sound.contents_eq, hs.ready.sound.contents_eq]
    have hbytes (y : Minor) (hy : y ∈ t.live) :
        bytesAt s.mm.mem y.ptr y.reqSize = bytesAt t.mm.mem y.ptr y.reqSize :=
      bytesAt_owned hy fun z hz => (hreleases.mem z hz).symm
    constructor
    · rintro ⟨y, hy, rfl, hcs⟩
      exact ⟨y, ((hlive y).mp hy).1, rfl, (hbytes y hy).trans hcs⟩
    · rintro ⟨y, hy, rfl, hcs⟩
      have hyt : y ∈ t.live := (hlive y).mpr ⟨hy, fun hym => hq (hym ▸ rfl)⟩
      exact ⟨y, hyt, rfl, (hbytes y hyt).symm.trans hcs⟩

/-- Writing to a byte of a block shows in that block. -/
theorem write_contents {a : Nat} (v : BitVec 8) (hs : s.Kept) (ha : s.Owned a) :
    ∃ p i bs, a = p + i ∧ s.contents p = some bs ∧ i < bs.length ∧
      ∀ q, (s.setMem (setByte s.mm.mem a v)).contents q =
        if q = p then some (bs.set i v) else s.contents q := by
  have ht := (ClientStep.write v ha).kept hs
  obtain ⟨m, hm, hz⟩ := owned_iff_live.mp ha
  unfold Minor.Holds at hz
  have hlive : (s.setMem (setByte s.mm.mem a v)).live = s.live := rfl
  have hcontents : s.contents m.ptr = some (bytesAt s.mm.mem m.ptr m.reqSize) :=
    hs.ready.sound.contents_eq.mpr ⟨m, hm, rfl, rfl⟩
  refine ⟨m.ptr, a - m.ptr, _, by omega, hcontents, by simp [bytesAt]; omega, ?_⟩
  intro q
  by_cases hq : q = m.ptr
  · rw [if_pos hq, ht.ready.sound.contents_eq, ← bytesAt_set]
    refine ⟨m, hm, hq.symm, ?_⟩
    rw [hq, show m.ptr + (a - m.ptr) = a by omega]
    rfl
  · rw [if_neg hq]
    have hkeep (y : Minor) (hy : y ∈ s.live) (hyq : y.ptr = q) :
        bytesAt (setByte s.mm.mem a v) q y.reqSize = bytesAt s.mm.mem q y.reqSize := by
      apply bytesAt_eq
      intro z h1 h2
      apply if_neg
      have hne : y ≠ m := by
        rintro rfl
        exact hq hyq.symm
      have hapart := hs.ready.sound.live_apart hy hm hne
      have h3 := hs.ready.sound.live_ptr hy
      have h4 := hs.ready.sound.live_ptr hm
      omega
    apply Option.ext
    intro cs
    rw [ht.ready.sound.contents_eq, hs.ready.sound.contents_eq]
    constructor
    · rintro ⟨y, hy, hyq, hcs⟩
      exact ⟨y, hy, hyq, (hkeep y hy hyq).symm.trans hcs⟩
    · rintro ⟨y, hy, hyq, hcs⟩
      exact ⟨y, hy, hyq, (hkeep y hy hyq).trans hcs⟩

end Live

/-- What an event is to the store of blocks. -/
def ClientEvent.toBlockEvent : ClientEvent → BlockEvent (BitVec 8)
  | .kmalloc n p => .alloc n p
  | .newFree p => .free p
  | .write a v => .write a v

/-- A step of a user who gives back nothing but blocks that he has got, and null pointers. -/
def OwnerStep (s : State) (e : ClientEvent) (t : State) : Prop :=
  ClientStep s e t ∧ ∀ p, e = .newFree p → p = 0 ∨ s.contents p ≠ none

/-- The heap stands for a store of blocks. -/
def Stands (s : State) (σ : BlockStore (BitVec 8)) : Prop := s.Kept ∧ ∀ q, σ.held q = s.contents q

/-- Each step of the users is one of the store. -/
theorem OwnerStep.refines {s t : State} {e : ClientEvent} {σ : BlockStore (BitVec 8)} (hs : Stands s σ)
    (h : OwnerStep s e t) : ∃ τ, BlockStore.Step σ e.toBlockEvent τ ∧ Stands t τ := by
  obtain ⟨hkept, hheld⟩ := hs
  obtain ⟨hstep, howner⟩ := h
  have ht := hstep.kept hkept
  have hstands : Stands t ht.ready.sound.store := ⟨ht, fun _ => rfl⟩
  cases hstep with
  | @kmalloc _ n p hfit h =>
    obtain ⟨hnew, hcontents⟩ := kmalloc_contents hkept hfit h
    have hlen : (bytesAt t.mm.mem p n).length = n := by simp [bytesAt]
    have hstep : BlockStore.Step σ (.alloc (bytesAt t.mm.mem p n).length p) ht.ready.sound.store := by
      refine .alloc _ ((hheld p).trans hnew) ?_
      intro q
      rw [hstands.2, hcontents, hheld]
    rw [hlen] at hstep
    exact ⟨_, hstep, hstands⟩
  | @newFree _ p hkeep h =>
    rcases howner p rfl with rfl | hp
    · obtain rfl : s = t := by
        rw [Liballoc.newFree, if_pos rfl] at h
        exact Except.ok.inj h
      refine ⟨σ, .null ?_, hkept, hheld⟩
      rw [hheld]
      apply Option.eq_none_iff_forall_ne_some.mpr
      intro bs hbs
      obtain ⟨m, hm, h0, -⟩ := hkept.ready.sound.contents_eq.mp hbs
      have hptr := hkept.ready.sound.live_ptr hm
      omega
    · refine ⟨_, .free (by rw [hheld]; exact hp) ?_, hstands⟩
      intro q
      rw [hstands.2, newFree_contents hkept hp hkeep h, hheld]
  | @write a v ha =>
    obtain ⟨p, i, bs, rfl, hbs, hi, hcontents⟩ := write_contents v hkept ha
    refine ⟨_, .write v ((hheld p).trans hbs) hi ?_, hstands⟩
    intro q
    rw [hstands.2, hcontents, hheld]

theorem stands_empty {s : State} (hi : Installed s) : Stands s .empty := by
  refine ⟨hi.kept, fun q => ?_⟩
  obtain ⟨s₀, ls, s₁, mm, -, -, -, -, -, -, -, rfl⟩ := hi
  rfl

theorem bytesAt_length (mem : Memory) (a n : Nat) : (bytesAt mem a n).length = n := by
  simp [bytesAt]

theorem Minor.ptr_aligned {m : Minor} (h : m.addr + 56 ≤ 2 ^ 32) : m.ptr % 16 = 0 := by
  have hstart : wrap (m.addr + minorHeader) = m.addr + 24 := wrap_of_lt (by unfold minorHeader; omega)
  have hptr : wrap (m.addr + 24 + 16) = m.addr + 40 := wrap_of_lt (by omega)
  rw [Minor.ptr, hstart]
  simp only [align, hptr]
  split_ifs
  · rw [wrap_of_lt (by omega)]
    omega
  · rw [wrap_of_lt (by omega)]
    omega

/-- In the run of two blocks the one that is given back was given away. -/
theorem twoBlocks_owner : ∃ mm mm' mem, Installed (heapInstall mm) ∧
    Run OwnerStep (heapInstall mm) (twoBlocks.take 3) (chunkHeap mm' (tailWritten mem 0x800080) 2) ∧
    OwnerStep (chunkHeap mm' (tailWritten mem 0x800080) 2) (.newFree 0x800080)
      (chunkHeap mm' (tailFreed mem 0x800080) 1) := by
  obtain ⟨mm, mm', mem, hinst, hrun, hfree⟩ := twoBlocks_run
  have hsound := (kept_run hinst.kept hrun).ready.sound
  refine ⟨mm, mm', mem, hinst, ?_, hfree, ?_⟩
  · cases hrun with
    | cons h1 hrun =>
      cases hrun with
      | cons h2 hrun =>
        cases hrun with
        | cons h3 hrun =>
          cases hrun
          exact .cons ⟨h1, by simp⟩ (.cons ⟨h2, by simp⟩ (.single ⟨h3, by simp⟩))
  · rintro p ⟨⟩
    right
    apply Option.ne_none_iff_exists'.mpr
    have hlive : ⟨0x800058, 40, 8⟩ ∈ (chunkHeap mm' (tailWritten mem 0x800080) 2).live :=
      List.mem_flatMap.mpr ⟨chunkAt 2, List.mem_singleton_self _, by decide⟩
    exact ⟨_, hsound.contents_eq.mpr ⟨_, hlive, by decide, rfl⟩⟩

/-- Whatever the users do with the heap in a kernel that has just installed it, it is a store of blocks
to them: what they see is a run of the store with the same requests and the same pointers, and what
each pointer holds is in memory. Blocks are aligned and lie in the address space. -/
theorem heap_refines_store {s₀ s : State} {es : List ClientEvent} (hi : Installed s₀)
    (h : Run OwnerStep s₀ es s) :
    ∃ σ, Run BlockStore.Step .empty (es.map ClientEvent.toBlockEvent) σ ∧
      (∀ p bs, σ.held p = some bs ↔
        ∃ m ∈ s.live, m.ptr = p ∧ bytesAt s.mm.mem p m.reqSize = bs) ∧
      ∀ p bs, σ.held p = some bs → 0 < p ∧ p % 16 = 0 ∧ p + bs.length < 2 ^ 32 := by
  obtain ⟨σ, hrun, hkept, hheld⟩ := h.simulate BlockStore.Step Stands
    ClientEvent.toBlockEvent (fun _ _ _ _ hs hst => hst.refines hs) (stands_empty hi)
  have hsound := hkept.ready.sound
  refine ⟨σ, hrun, fun p bs => by rw [hheld, hsound.contents_eq], ?_⟩
  intro p bs hp
  rw [hheld] at hp
  obtain ⟨m, hm, rfl, rfl⟩ := hsound.contents_eq.mp hp
  have hptr := hsound.live_ptr hm
  rw [bytesAt_length]
  refine ⟨by omega, Minor.ptr_aligned (by omega), by omega⟩

theorem heap_refines_store_twoBlocks : ∃ mm s σ, Installed (heapInstall mm) ∧
    Run OwnerStep (heapInstall mm) twoBlocks s ∧
    Run BlockStore.Step .empty (twoBlocks.map ClientEvent.toBlockEvent) σ := by
  obtain ⟨mm, mm', mem, hinst, hrun, hfree⟩ := twoBlocks_owner
  obtain ⟨σ, hstore, -⟩ := heap_refines_store hinst (hrun.snoc hfree)
  exact ⟨mm, _, σ, hinst, hrun.snoc hfree, hstore⟩

/-- A block that was given away holds what it held then and what its owner has written, whatever the
others do, until he gives it back. -/
theorem block_contents {s₀ s t : State} {es fs : List ClientEvent} {p : Nat} {bs : List (BitVec 8)}
    (hi : Installed s₀) (h : Run OwnerStep s₀ es s) (hp : s.contents p = some bs)
    (hrun : Run OwnerStep s fs t) (hfree : .newFree p ∉ fs) :
    t.contents p =
      some ((fs.map ClientEvent.toBlockEvent).foldl (BlockStore.written p) bs) := by
  have hkept : s.Kept := by
    apply h.invariant State.Kept (fun _ _ _ hs hst => ClientStep.kept hs hst.1) hi.kept
  have hstands : Stands s hkept.ready.sound.store := ⟨hkept, fun _ => rfl⟩
  obtain ⟨τ, hstore, -, hheld⟩ := hrun.simulate BlockStore.Step Stands
    ClientEvent.toBlockEvent (fun _ _ _ _ hs hst => hst.refines hs) hstands
  have hno : .free p ∉ fs.map ClientEvent.toBlockEvent := by
    intro hin
    obtain ⟨e, he, hlabel⟩ := List.mem_map.mp hin
    cases e with
    | kmalloc n q => cases hlabel
    | newFree q =>
      cases hlabel
      exact hfree he
    | write a v => cases hlabel
  rw [← hheld]
  exact BlockStore.run_kept hstore hp hno

/-- The first block keeps its bytes when the second one is given back. -/
theorem block_contents_first : ∃ mm s t bs, Installed (heapInstall mm) ∧
    Run OwnerStep (heapInstall mm) (twoBlocks.take 3) s ∧ s.contents 0x800040 = some bs ∧
    OwnerStep s (.newFree 0x800080) t ∧ t.contents 0x800040 = some bs := by
  obtain ⟨mm, mm', mem, hinst, hrun, hfree⟩ := twoBlocks_owner
  have hsound := (hrun.invariant State.Kept (fun _ _ _ hs hst => ClientStep.kept hs hst.1)
    hinst.kept).ready.sound
  have hlive : ⟨0x800018, 40, 8⟩ ∈ (chunkHeap mm' (tailWritten mem 0x800080) 2).live :=
    List.mem_flatMap.mpr ⟨chunkAt 2, List.mem_singleton_self _, by decide⟩
  have hp : (chunkHeap mm' (tailWritten mem 0x800080) 2).contents 0x800040 = some _ :=
    hsound.contents_eq.mpr ⟨_, hlive, by decide, rfl⟩
  exact ⟨mm, _, _, _, hinst, hrun, hp, hfree,
    block_contents hinst hrun hp (.single hfree) (by simp)⟩

section Progress

variable {s t : State} {m : Minor}

theorem findMinor_total {M : Major} (hM : M ∈ s.majors) (hm : m ∈ M.minors) :
    ∃ r, findMinor s m.addr = some r := by
  have hhit : (M.minors.findIdx? fun y => y.addr = m.addr).isSome :=
    List.findIdx?_isSome.trans (List.any_eq_true.mpr ⟨m, hm, by simp⟩)
  obtain ⟨i, hi⟩ : ∃ i, (s.majors.findIdx? fun M =>
      (M.minors.findIdx? fun y => y.addr = m.addr).isSome) = some i :=
    Option.isSome_iff_exists.mp (List.findIdx?_isSome.trans (List.any_eq_true.mpr ⟨M, hM, hhit⟩))
  obtain ⟨hlt, hsome, -⟩ := List.findIdx?_eq_some_iff_getElem.mp hi
  obtain ⟨k, hk⟩ := Option.isSome_iff_exists.mp hsome
  refine ⟨(i, k), ?_⟩
  simp only [findMinor, hi, Option.bind_some, List.getElem?_eq_getElem hlt, hk, Option.map_some]

/-- A block that was given away can be given back. -/
theorem newFree_total (hs : s.Kept) (hm : m ∈ s.live) (hkeep : ¬Empties s m.ptr) :
    ∃ t, newFree s m.ptr = .ok t := by
  obtain ⟨haddr, hmagic⟩ := minorOf_ptr hs hm
  have hptr := hs.ready.sound.live_ptr hm
  have h0 : m.ptr ≠ 0 := by omega
  obtain ⟨M, hM, hmM⟩ := List.mem_flatMap.mp hm
  obtain ⟨⟨i, k⟩, hfind⟩ := findMinor_total (s := s.locked) hM hmM
  obtain ⟨L, x, hL, hx, hxaddr⟩ := findMinor_spec hfind
  have hne : (L.vacated k).minors ≠ [] := by
    intro hnil
    have hall := split_at hx
    have hpre : L.minors.take k = [] := (List.append_eq_nil_iff.mp hnil).1
    have hpost : L.minors.drop (k + 1) = [] := (List.append_eq_nil_iff.mp hnil).2
    rw [hpre, hpost, List.nil_append] at hall
    refine hkeep ⟨h0, by rw [haddr]; exact hmagic, L, List.mem_of_getElem? hL, x, hall.symm, ?_⟩
    rw [hxaddr, haddr]
  have hlock : liballocLock s = .ok s.locked := if_neg (by simp [hs.ready.unlocked])
  have hmin : sub32 (unalign s.mm.mem m.ptr) minorHeader = m.addr := haddr
  obtain ⟨u, hfree, hu⟩ : ∃ u, freeLocked s.locked m.addr = .ok u ∧ u.lock = 1 := by
    have hlive : ¬s.locked.mm.mem.word (m.addr + 12) ≠ liballocMagic := not_not.mpr hmagic
    rw [freeLocked, if_neg hlive, hfind]
    simp only [hL]
    rw [if_neg (by simpa using hne)]
    exact ⟨_, rfl, rfl⟩
  have hunlock : liballocUnlock u = .ok { u with lock := 0 } := if_neg (by simp [hu])
  refine ⟨{ u with lock := 0 }, ?_⟩
  rw [newFree, if_neg h0]
  simp only [hlock, ok_bind, hmin, hfree, hunlock]

/-- And given back once more, without any effect. -/
theorem newFree_twice (hs : s.Kept) (hm : m ∈ s.live) (hkeep : ¬Empties s m.ptr)
    (h : newFree s m.ptr = .ok t) : newFree t m.ptr = .ok t := by
  obtain ⟨haddr, hmagic⟩ := minorOf_ptr hs hm
  have hsound := hs.ready.sound
  have hptr := hsound.live_ptr hm
  have h0 : m.ptr ≠ 0 := by omega
  have hlock : t.lock = 0 := by
    rcases newFree_ok h with ⟨h0', -⟩ | ⟨-, u, -, rfl⟩
    · exact absurd h0' h0
    · rfl
  rcases newFree_cases hkeep h with ⟨-, -, h0' | hnot⟩ | ⟨i, k, M, x, -, hM, hx, hxaddr, hne, hmm, -⟩
  · exact absurd h0' h0
  · rw [haddr] at hnot
    exact absurd hmagic hnot
  · have hMsound := hsound.blocks M (List.mem_of_getElem? hM)
    have hsite := vacated_site hMsound hx hne
    have hcell := hsite.cell_bounds
    have hblock := hsite.block
    have hmem : t.mm.mem = vacateMem s.mm.mem M k x.addr := by rw [hmm]; rfl
    have hunlinks := @vacateMem_unlinks s.mm.mem _ _ _ hsite
    rw [← hmem] at hunlinks
    have hxlive : x ∈ s.live :=
      List.mem_flatMap.mpr ⟨M, List.mem_of_getElem? hM, List.mem_of_getElem? hx⟩
    obtain rfl : m = x := (hsound.live_addr hxlive hm (hxaddr.trans haddr)).symm
    unfold majorHeader at hblock
    have hinfo : t.mm.mem (m.ptr - 16) = s.mm.mem (m.ptr - 16) := by
      apply hunlinks.kept _ (by omega) (by omega) ?_ (by omega)
      intro y hy
      have hp := hMsound.packed
      rw [← split_at hx] at hp
      have hrest := (List.pairwise_append.mp hp.pairwise).2.1
      have := List.rel_of_pairwise_cons hrest (List.mem_of_head? hy)
      omega
    have hback : sub32 m.ptr 16 = m.ptr - 16 := sub32_eq (by omega) (by omega)
    have hmin : sub32 (unalign t.mm.mem m.ptr) minorHeader = m.addr := by
      rw [← haddr, minorOf, unalign, unalign, hback, hinfo]
    have hdead : t.locked.mm.mem.word (m.addr + 12) ≠ liballocMagic := by
      have hword : t.mm.mem.word (m.addr + 12) = liballocDead := hunlinks.dead
      change t.mm.mem.word (m.addr + 12) ≠ liballocMagic
      rw [hword]
      decide
    have hlocked : liballocLock t = .ok t.locked := if_neg (by simp [hlock])
    have hfree : freeLocked t.locked m.addr = .ok t.locked := if_pos hdead
    have hunlock : liballocUnlock t.locked = .ok t := by
      rw [liballocUnlock, if_neg (by simp [State.locked])]
      obtain ⟨mm, lock, majors, bestBet⟩ := t
      obtain rfl : lock = 0 := hlock
      rfl
    rw [newFree, if_neg h0]
    simp only [hlocked, ok_bind, hmin, hfree, hunlock]

end Progress

/-- From every state that the users can bring the heap to, each request that is granted is met; each block
that was given away, and is not the only one of its pages, can be given back; and giving it back twice is
giving it back once. -/
theorem heap_progress {s₀ s : State} {es : List ClientEvent} (hi : Installed s₀)
    (h : Run OwnerStep s₀ es s) :
    (∀ n, n + 80 < 2 ^ 32 → pagesFor (n + 32) < 2 ^ 20 → Granted s n →
      ∃ p t, OwnerStep s (.kmalloc n p) t) ∧
    ∀ p, s.contents p ≠ none → ¬Empties s p →
      ∃ t, OwnerStep s (.newFree p) t ∧ newFree t p = .ok t := by
  have hkept : s.Kept := h.invariant State.Kept (fun _ _ _ hs hst => ClientStep.kept hs hst.1) hi.kept
  refine ⟨?_, ?_⟩
  · intro n hsize hpages hgranted
    obtain ⟨p, t, hcall⟩ := hkept.ready.kmalloc_total hsize hpages hgranted
    refine ⟨p, t, .kmalloc (hgranted.fits hkept.ready.sound hsize) hcall, ?_⟩
    rintro q ⟨⟩
  · intro p hp hkeep
    obtain ⟨bs, hbs⟩ := Option.ne_none_iff_exists'.mp hp
    obtain ⟨m, hm, rfl, -⟩ := hkept.ready.sound.contents_eq.mp hbs
    obtain ⟨t, hfree⟩ := newFree_total hkept hm hkeep
    refine ⟨t, ⟨.newFree hkeep hfree, ?_⟩, newFree_twice hkept hm hkeep hfree⟩
    rintro q ⟨⟩
    exact .inr hp

theorem heap_progress_second : ∃ mm s t, Installed (heapInstall mm) ∧
    Run OwnerStep (heapInstall mm) (twoBlocks.take 3) s ∧ newFree s 0x800080 = .ok t ∧
    newFree t 0x800080 = .ok t := by
  obtain ⟨mm, mm', mem, hinst, hrun, hfree, howner⟩ := twoBlocks_owner
  have hp := (howner _ rfl).resolve_left (by decide)
  cases hfree with
  | newFree hkeep h =>
    obtain ⟨t, ⟨hstep, -⟩, htwice⟩ := (heap_progress hinst hrun).2 0x800080 hp hkeep
    cases hstep with
    | newFree _ hone => exact ⟨mm, _, t, hinst, hrun, hone, htwice⟩

end Levos.Liballoc
