import Levos.Liballoc.Headers
import Levos.Liballoc.Process

namespace Levos.Liballoc

open Levos.Framework Levos.Memory

/-- The structures of liballoc in memory: a list of blocks from `l_memRoot` on, linked in both
directions. -/
structure State.Written (s : State) : Prop where
  blocks : ∀ M ∈ s.majors, M.Written s.mm.mem
  next : ∀ a as, s.majors.map Major.addr = a :: as → Linked 4 s.mm.mem (a + 4) as 0
  prev : LinkedBack 0 s.mm.mem 0 (s.majors.map Major.addr)

/-- The end of a placement writes the headers, and to the bytes that it gives away. -/
theorem occupy_ok {s t : State} {M : Major} {pl : Place} {i size reqSize p : Nat}
    (h : occupy s i M pl size reqSize = .ok (p, t)) : t.mm = { s.mm with mem := t.mm.mem } ∧
      t.majors = s.majors.set i (M.occupied pl size reqSize) ∧
      ∀ z, (z < (M.newMinor pl size reqSize).ptr ∨ (M.newMinor pl size reqSize).ptr + reqSize ≤ z) →
        t.mm.mem z = occupyMem s.mm.mem M pl size reqSize z := by
  simp only [occupy] at h
  split_ifs at h
  · cases h
    exact ⟨rfl, rfl, fun _ _ => rfl⟩
  · cases h
    exact ⟨rfl, rfl, fun z hz => Memory.fill_apply hz⟩

/-- Blocks at different places of the list are apart. -/
theorem State.Sound.apart_at {s : State} {M L : Major} {i j : Nat} (hs : s.Sound)
    (hM : s.majors[i]? = some M) (hL : s.majors[j]? = some L) (hij : i ≠ j) :
    M.stop ≤ L.addr ∨ L.stop ≤ M.addr := by
  have hpairs := List.pairwise_iff_getElem.mp (List.pairwise_map.mp hs.apart)
  obtain ⟨hi, rfl⟩ := List.getElem?_eq_some_iff.mp hM
  obtain ⟨hj, rfl⟩ := List.getElem?_eq_some_iff.mp hL
  rcases Nat.lt_or_gt_of_ne hij with hlt | hgt
  · exact hpairs i j hi hj hlt
  · exact (hpairs j i hj hi hgt).symm

namespace State.Written

variable {s t : State} {M N : Major} {m : Minor} {i k : Nat} {mem : Memory}

theorem of_eq (h : s.Written) (hmm : t.mm = s.mm) (hmajors : t.majors = s.majors) : t.Written := by
  obtain ⟨mm, lock, majors, bestBet⟩ := t
  cases hmm
  cases hmajors
  exact ⟨h.blocks, h.next, h.prev⟩

/-- A block is exchanged for one on the same pages, and no other is written to. -/
theorem replace (hs : s.Sound) (h : s.Written) (hM : s.majors[i]? = some M) (haddr : N.addr = M.addr)
    (hN : N.Written mem) (hkeep : ∀ z, (z < M.addr + 8 ∨ M.stop ≤ z) → mem z = s.mm.mem z) :
    State.Written { s with mm := { s.mm with mem := mem }, majors := s.majors.set i N } := by
  have hmem := List.mem_of_getElem? hM
  have haddrs : (s.majors.set i N).map Major.addr = s.majors.map Major.addr := by
    have hi := (List.getElem?_eq_some_iff.mp hM).1
    rw [List.map_set, haddr]
    apply List.ext_getElem?
    intro j
    rw [List.getElem?_set]
    split_ifs with hij hlt
    · subst hij
      simp [hM]
    · subst hij
      simp at hlt
      omega
    · rfl
  have hlinks (L : Major) (hL : L ∈ s.majors) (j : Nat) (hj : j ≤ 4) :
      mem.word (L.addr + j) = s.mm.mem.word (L.addr + j) := by
    refine word_of_bytes fun z h1 h2 => hkeep z ?_
    by_cases hML : M = L
    · subst hML
      omega
    · have hdisj := hs.disjoint hmem hL hML
      have hle := (hs.blocks L hL).packed.le
      unfold majorHeader at hle
      omega
  refine ⟨?_, ?_, ?_⟩
  · intro L hL
    obtain ⟨j, hj⟩ := List.getElem?_of_mem hL
    by_cases hij : i = j
    · subst hij
      have hset := List.getElem?_set_self (a := N) (List.getElem?_eq_some_iff.mp hM).1
      obtain rfl := Option.some.inj (hset.symm.trans hj)
      exact hN
    · rw [List.getElem?_set_ne hij] at hj
      have hL' := List.mem_of_getElem? hj
      apply (h.blocks L hL').frame (hs.blocks L hL')
      intro z h1 hz
      have hb := (hs.blocks L hL').reserved_bounds hz
      have hdisj := hs.apart_at hM hj hij
      apply hkeep
      omega
  · intro a as has
    have has' : s.majors.map Major.addr = a :: as := haddrs ▸ has
    have hmem' (b : Nat) (hb : b ∈ a :: as) : ∃ L ∈ s.majors, L.addr = b := by
      rw [← has'] at hb
      exact List.mem_map.mp hb
    obtain ⟨L, hL, rfl⟩ := hmem' a List.mem_cons_self
    apply (h.next _ as has').moved (hlinks L hL 4 (le_refl 4))
    intro b hb
    obtain ⟨L', hL', rfl⟩ := hmem' b (List.mem_cons_of_mem _ hb)
    exact hlinks L' hL' 4 (le_refl 4)
  · change LinkedBack 0 mem 0 ((s.majors.set i N).map Major.addr)
    rw [haddrs]
    apply h.prev.frame
    intro b hb
    obtain ⟨L, hL, rfl⟩ := List.mem_map.mp hb
    exact hlinks L hL 0 (Nat.zero_le 4)

/-- A block without one of its minors. -/
theorem vacated (hs : s.Sound) (h : s.Written) (hM : s.majors[i]? = some M)
    (hm : M.minors[k]? = some m) (hne : (M.vacated k).minors ≠ []) : (s.vacated i k M m).Written := by
  have hmem := List.mem_of_getElem? hM
  have hsound := hs.blocks M hmem
  have hN := (h.blocks M hmem).vacated hsound hm hne
  exact replace (N := M.vacated k) hs h hM rfl hN fun z hz => vacateMem_outside hsound hm hne hz

/-- The end of a placement. -/
theorem occupy {p reqSize : Nat} {pl : Place} (hs : s.Sound) (h : s.Written)
    (hM : s.majors[i]? = some M) (hroom : M.room (reqSize + 32) = some pl)
    (hsize : reqSize + 32 + minorHeader < 2 ^ 32)
    (hoccupy : occupy s i M pl (reqSize + 32) reqSize = .ok (p, t)) : t.Written := by
  have hmem := List.mem_of_getElem? hM
  have hsound := hs.blocks M hmem
  have hgap := hsound.room_gap hsize hroom
  have hb := hsound.gap_bounds pl
  have hhigh := hsound.high
  have haddr := hsound.newMinor_addr pl (reqSize + 32) reqSize
  have hsite : LinkSite M.addr (M.pre pl).getLast? (M.post pl).head?
      (M.newMinor pl (reqSize + 32) reqSize) := hsound.site hgap
  have hstop : (M.newMinor pl (reqSize + 32) reqSize).stop =
      (M.newMinor pl (reqSize + 32) reqSize).addr + minorHeader + (reqSize + 32) := rfl
  have hptr := Minor.ptr_bounds (m := M.newMinor pl (reqSize + 32) reqSize) rfl (by omega)
  have hreq : (M.newMinor pl (reqSize + 32) reqSize).reqSize = reqSize := rfl
  rw [hreq] at hptr
  have hN (mem' : Memory) := @Major.Written.occupied _ mem' _ _ _ _ hsound (h.blocks M hmem) rfl hgap
  obtain ⟨hmm, hmajors, hbytes⟩ := occupy_ok hoccupy
  simp only [occupyMem] at hbytes
  generalize M.newMinor pl (reqSize + 32) reqSize = x at *
  have hstart : wrap (x.addr + minorHeader) = x.addr + minorHeader := wrap_of_lt (by omega)
  have hdiff := align_info (a := x.addr + minorHeader) (by omega)
  have hptrAlign : (align (x.addr + minorHeader)).1 = x.ptr := by rw [Minor.ptr, hstart]
  have hsub : sub32 x.ptr 16 = x.ptr - 16 := sub32_eq (by omega) (by omega)
  rw [hstart, hptrAlign, hsub, hdiff, hptrAlign] at hbytes
  have hbefore (y : Minor) (hy : (M.post pl).head? = some y) : x.stop ≤ y.addr := by
    have := hsound.post_bounds (List.mem_of_head? hy)
    omega
  have hlinked := @linkMinor_links s.mm.mem _ (M.occupied pl (reqSize + 32) reqSize).usage _ _ _ hsite
  have hagree (z : Nat) (hz : z < x.addr + minorHeader ∨ x.stop ≤ z) : t.mm.mem z = linkMinor s.mm.mem
      M.addr (M.occupied pl (reqSize + 32) reqSize).usage (M.pre pl).getLast? (M.post pl).head? x z := by
    rw [hbytes z (by omega)]
    exact if_neg (by omega)
  have hlinks := hlinked.of_agree hsite hbefore hagree
  have hinfo : t.mm.mem (x.ptr - 16) = BitVec.ofNat 8 (x.ptr - (x.addr + minorHeader)) := by
    rw [hbytes _ (by omega)]
    exact if_pos rfl
  have hcell := hsite.cell_bounds
  apply of_eq (replace (N := M.occupied pl (reqSize + 32) reqSize) hs h hM rfl (hN _ hlinks hinfo) ?_)
    hmm hmajors
  intro z hz
  unfold majorHeader at hb
  apply hlinks.kept z (by omega) (by omega) ?_ (by omega)
  intro y hy
  have hy' := hsound.post_bounds (List.mem_of_head? hy)
  have := y.header_le
  omega

end State.Written

/-- What `allocate_new_page` and the end of the list write. -/
structure Joins (s t : State) (N : Major) : Prop where
  sound : t.Sound
  majors : t.majors = s.majors ++ [N]
  header : ∀ i w, [0, 0, N.pages, N.size, N.usage, 0][i]? = some w → 1 ≤ i ∨ s.majors = [] →
    t.mm.mem.word (N.addr + 4 * i) = BitVec.ofNat 32 w
  last : ∀ L, s.majors.getLast? = some L → t.mm.mem.word (L.addr + 4) = BitVec.ofNat 32 N.addr ∧
    t.mm.mem.word N.addr = BitVec.ofNat 32 L.addr
  kept : ∀ z, s.mm.plp ≤ z → (z < N.addr ∨ N.addr + 24 ≤ z) →
    (∀ L, s.majors.getLast? = some L → z < L.addr + 4 ∨ L.addr + 8 ≤ z) → t.mm.mem z = s.mm.mem z

/-- A new block in the list. -/
theorem allocateNewPage_joins {s s₁ : State} {size : Nat} {N : Major} (hs : s.Sound)
    (hsize : size + majorHeader + minorHeader < 2 ^ 32) (hfree : FreeRun s.mm (pagesFor size))
    (h : allocateNewPage s size = .ok (some N, s₁)) :
    Joins s (s₁.push N) N ∧ N.minors = [] := by
  obtain ⟨h1, -⟩ := pagesFor_spec hsize
  have hlow := hs.managed.low
  obtain ⟨N', hN', hbrand, hpush, hgrown⟩ := allocateNewPage_spec hs hsize hfree h
  obtain rfl := Option.some.inj hN'
  obtain ⟨maj, mm, halloc, hnew⟩ := allocateNewPage_ok h
  obtain ⟨f, rfl, -, hbehind, -, -, -, -, hmem, -⟩ := hs.managed.mmAllocPages h1 hfree halloc
  obtain ⟨M, hM, hNM, rfl⟩ := hnew (by omega)
  obtain rfl := Option.some.inj hNM
  have hsound := hgrown.sound
  have husage : N.usage = majorHeader := hbrand.sound.fresh hbrand.empty
  generalize hmem₁ : setWords mm.mem N.addr [0, 0, N.pages, N.size, majorHeader, 0] = mem₁ at *
  have hword (i w : Nat) (hw : [0, 0, N.pages, N.size, majorHeader, 0][i]? = some w) :
      mem₁.word (N.addr + 4 * i) = BitVec.ofNat 32 w := by
    rw [← hmem₁]
    exact setWords_word hw
  have hkept (z : Nat) (h2 : s.mm.plp ≤ z) (h3 : z < N.addr ∨ N.addr + 24 ≤ z) :
      mem₁ z = s.mm.mem z := by
    rw [← hmem₁, setWords_apply h3]
    exact hmem z h2
  have hapart (L : Major) (hL : L ∈ s.majors) : N.stop ≤ L.addr ∨ L.stop ≤ N.addr := by
    obtain ⟨j, hj⟩ := List.getElem?_of_mem hL
    have hlt := (List.getElem?_eq_some_iff.mp hj).1
    have hold : (State.push { s with mm := { mm with mem := mem₁ } } N).majors[j]? = some L := by
      rw [hpush, List.getElem?_append_left hlt, hj]
    have hthere : (State.push { s with mm := { mm with mem := mem₁ } } N).majors[s.majors.length]? =
        some N := by
      rw [hpush]
      simp
    exact hsound.apart_at hthere hold (by omega)
  have hmem' : (State.push { s with mm := { mm with mem := mem₁ } } N).mm.mem =
      s.majors.getLast?.elim mem₁ fun L => (mem₁.setWord (L.addr + 4) (BitVec.ofNat 32 N.addr)).setWord
        N.addr (BitVec.ofNat 32 L.addr) := by
    unfold State.push
    cases s.majors.getLast? <;> rfl
  have hNle := hbrand.sound.packed.le
  have hnil (hne : s.majors.getLast? ≠ none) : s.majors ≠ [] := by
    rintro h0
    rw [h0] at hne
    exact hne rfl
  refine ⟨⟨hsound, hpush, ?_, ?_, ?_⟩, hbrand.empty⟩
  all_goals
    rw [hmem']
    cases hlast : s.majors.getLast? with
    | none => ?_
    | some L => ?_
  · intro i w hw _
    rw [husage] at hw
    exact hword i w hw
  · intro i w hw hor
    have hL := List.mem_of_getLast? hlast
    have hdisj := hapart L hL
    have hLle := (hs.blocks L hL).packed.le
    have hi : 1 ≤ i := hor.resolve_right (List.ne_nil_of_mem hL)
    have hi5 := (List.getElem?_eq_some_iff.mp hw).1
    simp only [List.length_cons, List.length_nil] at hi5
    rw [husage] at hw
    unfold majorHeader at hNle hLle
    rw [Option.elim_some, Memory.word_setWord_ne (by omega), Memory.word_setWord_ne (by omega)]
    exact hword i w hw
  · rintro L ⟨⟩
  · intro K hK
    obtain rfl := Option.some.inj hK
    have hL := List.mem_of_getLast? hlast
    have hdisj := hapart L hL
    have hLle := (hs.blocks L hL).packed.le
    unfold majorHeader at hNle hLle
    rw [Option.elim_some, Memory.word_setWord_ne (by omega), Memory.word_setWord, Memory.word_setWord]
    exact ⟨rfl, rfl⟩
  · intro z h2 h3 _
    exact hkept z h2 h3
  · intro z h2 h3 h4
    have := h4 L rfl
    rw [Option.elim_some, Memory.setWord_apply (by omega), Memory.setWord_apply (by omega)]
    exact hkept z h2 h3

namespace State.Written

variable {s t : State} {N : Major}

/-- A block whose header was written, and that has no minors. -/
theorem of_join (hj : Joins s t N) (hempty : N.minors = []) : N.Written t.mm.mem := by
  refine ⟨hj.header 2 _ rfl (.inl (by decide)), hj.header 3 _ rfl (.inl (by decide)),
    hj.header 4 _ rfl (.inl (by decide)), ?_, ?_, ?_⟩
  · rw [hempty]
    exact hj.header 5 _ rfl (.inl (by decide))
  · rw [hempty]
    trivial
  · simp [hempty]

/-- The old blocks but for the pointer to the next one of the last. -/
theorem old_kept (hs : s.Sound) (hj : Joins s t N) {K : Major} {z : Nat} (hK : K ∈ s.majors)
    (h1 : K.addr ≤ z) (h2 : z < K.stop)
    (hlast : s.majors.getLast? = some K → z < K.addr + 4 ∨ K.addr + 8 ≤ z) :
    t.mm.mem z = s.mm.mem z := by
  have hbehind := (hs.chunks K hK).behind
  have hNle := (hj.sound.blocks N (by rw [hj.majors]; simp)).packed.le
  have hKle := (hs.blocks K hK).packed.le
  unfold majorHeader at hNle hKle
  obtain ⟨j, hKj⟩ := List.getElem?_of_mem hK
  have hlt := (List.getElem?_eq_some_iff.mp hKj).1
  have hapart : N.stop ≤ K.addr ∨ K.stop ≤ N.addr := by
    apply hj.sound.apart_at (i := s.majors.length) (j := j)
    · rw [hj.majors]
      simp
    · rw [hj.majors, List.getElem?_append_left hlt, hKj]
    · omega
  apply hj.kept z (by omega) (by omega)
  intro L hL
  rw [List.getLast?_eq_getElem?] at hL
  by_cases hjL : j = s.majors.length - 1
  · rw [← hjL, hKj] at hL
    obtain rfl := Option.some.inj hL
    apply hlast
    rw [List.getLast?_eq_getElem?, ← hjL, hKj]
  · have hdisj := hs.apart_at hKj hL hjL
    have hLle := (hs.blocks L (List.mem_of_getElem? hL)).packed.le
    unfold majorHeader at hLle
    omega

/-- A new block joins the list. -/
theorem join (hs : s.Sound) (h : s.Written) (hj : Joins s t N) (hempty : N.minors = []) :
    t.Written := by
  have hold (K : Major) (hK : K ∈ s.majors) (z : Nat) (h1 : K.addr ≤ z) (h2 : z < K.stop)
      (hlast : s.majors.getLast? = some K → z < K.addr + 4 ∨ K.addr + 8 ≤ z) :
      t.mm.mem z = s.mm.mem z := old_kept hs hj hK h1 h2 hlast
  have hle (K : Major) (hK : K ∈ s.majors) : K.addr + 24 ≤ K.stop := (hs.blocks K hK).packed.le
  refine ⟨?_, ?_, ?_⟩
  · intro K hK
    rw [hj.majors] at hK
    rcases List.mem_append.mp hK with hK | hK
    · apply (h.blocks K hK).frame (hs.blocks K hK)
      intro z h1 hz
      have hb := (hs.blocks K hK).reserved_bounds hz
      exact hold K hK z hb.1 hb.2 fun _ => .inr h1
    · obtain rfl := List.mem_singleton.mp hK
      exact of_join hj hempty
  · intro a as has
    rw [hj.majors, List.map_append, List.map_singleton] at has
    rcases s.majors.eq_nil_or_concat with hnil | ⟨init, L, hinit⟩
    · rw [hnil] at has
      obtain ⟨rfl, rfl⟩ : N.addr = a ∧ [] = as := by simpa using has
      exact hj.header 1 _ rfl (.inl (le_refl 1))
    · rw [List.concat_eq_append] at hinit
      have hlast : s.majors.getLast? = some L := by rw [hinit]; simp
      have hmap : s.majors.map Major.addr = init.map Major.addr ++ [L.addr] := by simp [hinit]
      obtain ⟨as₀, has₀, rfl⟩ : ∃ as₀, s.majors.map Major.addr = a :: as₀ ∧ as = as₀ ++ [N.addr] := by
        cases hms : s.majors.map Major.addr with
        | nil => simp [hms] at hmap
        | cons b bs =>
          rw [hms] at has
          obtain ⟨rfl, rfl⟩ := List.cons_eq_cons.mp has
          exact ⟨bs, rfl, rfl⟩
      have hcell : lastCell 4 (a + 4) as₀ = L.addr + 4 := by
        have hall : lastCell 4 0 (a :: as₀) = L.addr + 4 := by rw [← has₀, hmap, lastCell_snoc]
        rwa [lastCell_cons] at hall
      -- the blocks in front of the last one
      have hfront (b : Nat) (hb : b ∈ (a :: as₀).dropLast) :
          t.mm.mem.word (b + 4) = s.mm.mem.word (b + 4) := by
        rw [← has₀, hmap, List.dropLast_concat] at hb
        obtain ⟨K, hK, rfl⟩ := List.mem_map.mp hb
        have hKm : K ∈ s.majors := by rw [hinit]; exact List.mem_append_left _ hK
        have hpairs := List.pairwise_map.mp hs.apart
        rw [hinit] at hpairs
        have hdisj := (List.pairwise_append.mp hpairs).2.2 K hK L (List.mem_singleton_self L)
        simp only [Apart, Major.extent] at hdisj
        have hKle := hle K hKm
        refine word_of_bytes fun z h1 h2 => hold K hKm z (by omega) (by omega) fun hKL => ?_
        obtain rfl := Option.some.inj (hKL.symm.trans hlast)
        omega
      have hnext := h.next a as₀ has₀
      rw [← List.append_nil as₀, ← List.append_nil (as₀ ++ [])] at hnext
      rw [← List.append_nil (as₀ ++ [N.addr])]
      apply hnext.exchange
      · intro hne
        apply hfront
        rw [List.dropLast_cons_of_ne_nil hne]
        exact List.mem_cons_self
      · intro b hb
        apply hfront
        rw [List.dropLast_cons_of_ne_nil (List.ne_nil_of_mem (List.mem_of_mem_dropLast hb))]
        exact List.mem_cons_of_mem _ hb
      · simp
      · rw [hcell]
        exact ⟨(hj.last L hlast).1, hj.header 1 _ rfl (.inl (le_refl 1))⟩
  · rw [hj.majors, List.map_append, List.map_singleton, LinkedBack.append]
    refine ⟨h.prev.frame ?_, ?_, trivial⟩
    · intro b hb
      obtain ⟨K, hK, rfl⟩ := List.mem_map.mp hb
      have := hle K hK
      exact word_of_bytes fun z h1 h2 => hold K hK z h1 (by omega) fun _ => by omega
    · rw [List.getLast?_map]
      cases hlast : s.majors.getLast? with
      | none => exact hj.header 0 _ rfl (.inr (List.getLast?_eq_none_iff.mp hlast))
      | some L => exact (hj.last L hlast).2

theorem grows {size : Nat} (hsize : size + majorHeader + minorHeader < 2 ^ 32) :
    Grows size State.Written := by
  refine ⟨fun s t hmm hmajors h => h.of_eq hmm hmajors, ?_⟩
  intro s s₁ N hs h _ hfree hnew
  obtain ⟨hj, hempty⟩ := allocateNewPage_joins hs hsize hfree hnew
  exact h.join hs hj hempty

theorem newMalloc {n p : Nat} (hs : s.Sound) (h : s.Written) (hfit : Fits s n)
    (hmalloc : newMalloc s n = .ok (p, t)) : t.Written := by
  have hsize := hfit.size
  apply newMalloc_rule (P := State.Written) (Q := fun _ => State.Written) (grows ?_) ?_ ?_ hs hfit
    hmalloc h
  · unfold majorHeader minorHeader
    omega
  · exact fun _ s t hmm hmajors h => h.of_eq hmm hmajors
  · intro s t i p M pl hs h hM hroom hoccupy
    exact h.occupy hs hM hroom (by unfold minorHeader; omega) hoccupy

theorem newFree {ptr : Nat} (hs : s.Sound) (h : s.Written) (hkeep : ¬Empties s ptr)
    (hfree : newFree s ptr = .ok t) : t.Written := by
  rcases newFree_cases hkeep hfree with ⟨hmm, hmajors, -⟩ | ⟨i, k, M, m, -, hM, hm, -, hne, hmm, hmajors⟩
  · exact h.of_eq hmm hmajors
  · exact (h.vacated hs hM hm hne).of_eq hmm hmajors

/-- No owner of a byte writes to anything that liballoc keeps. -/
theorem owned_unreserved {M : Major} {z : Nat} (hs : s.Sound) (hz : s.Owned z) (hM : M ∈ s.majors) :
    ¬M.Reserved z := by
  have hoff := hs.owned_off hz hM
  rintro (hin | ⟨m, hm, h1, h2⟩)
  · have := hoff.1
    omega
  · obtain ⟨L, hL, y, hy, hzy⟩ := hz
    have hb := hs.holds_bounds hL hy hzy
    have hb' := (hs.blocks M hM).bounds hm
    have hhigh := (hs.blocks M hM).high
    have hptr := Minor.ptr_bounds ((hs.blocks M hM).sizes m hm) (by omega)
    by_cases hLM : L = M
    · subst hLM
      by_cases hym : y = m
      · subst hym
        unfold Minor.Holds at hzy
        omega
      · have hseg := (hs.blocks L hL).packed.apart hy hm hym
        omega
    · have hdisj := hs.disjoint hL hM hLM
      omega

theorem setMem (hs : s.Sound) (h : s.Written) {mem : Memory}
    (hmem : ∀ z, ¬s.Owned z → mem z = s.mm.mem z) : (s.setMem mem).Written := by
  have hkeep (M : Major) (hM : M ∈ s.majors) (z : Nat) (hz : M.Reserved z) : mem z = s.mm.mem z :=
    hmem z fun hown => owned_unreserved hs hown hM hz
  have hlinks (M : Major) (hM : M ∈ s.majors) (i : Nat) (hi : i ≤ 4) :
      mem.word (M.addr + i) = s.mm.mem.word (M.addr + i) :=
    word_of_bytes fun z h1 h2 => hkeep M hM z (.inl (by unfold majorHeader; omega))
  refine ⟨fun M hM => (h.blocks M hM).frame (hs.blocks M hM) fun z _ hz => hkeep M hM z hz, ?_, ?_⟩
  · intro a as has
    have hmem (b : Nat) (hb : b ∈ a :: as) : ∃ M ∈ s.majors, M.addr = b := by
      have has' : s.majors.map Major.addr = a :: as := has
      rw [← has'] at hb
      exact List.mem_map.mp hb
    obtain ⟨M, hM, rfl⟩ := hmem a List.mem_cons_self
    apply (h.next _ as has).moved (hlinks M hM 4 (le_refl 4))
    intro b hb
    obtain ⟨L, hL, rfl⟩ := hmem b (List.mem_cons_of_mem _ hb)
    exact hlinks L hL 4 (le_refl 4)
  · apply h.prev.frame
    intro b hb
    obtain ⟨M, hM, rfl⟩ := List.mem_map.mp hb
    exact hlinks M hM 0 (Nat.zero_le 4)

end State.Written

end Levos.Liballoc
