import Levos.Liballoc.Links
import Mathlib.Data.List.Infix

namespace Levos.Liballoc

open Levos.Framework Levos.Memory

/-- The header of a minor of the block at `maj` but for the pointers to its neighbours, and the byte that
`ALIGN` leaves before its pointer. -/
structure Minor.Written (mem : Memory) (maj : Nat) (m : Minor) : Prop where
  block : mem.word (m.addr + 8) = BitVec.ofNat 32 maj
  magic : mem.word (m.addr + 12) = liballocMagic
  size : mem.word (m.addr + 16) = BitVec.ofNat 32 m.size
  reqSize : mem.word (m.addr + 20) = BitVec.ofNat 32 m.reqSize
  info : mem (m.ptr - 16) = BitVec.ofNat 8 (m.ptr - (m.addr + minorHeader))

/-- The header of a block in memory but for the pointers to its neighbours, and those of its minors:
they are a list from `first` on, linked in both directions. -/
structure Major.Written (mem : Memory) (M : Major) : Prop where
  pages : mem.word (M.addr + 8) = BitVec.ofNat 32 M.pages
  size : mem.word (M.addr + 12) = BitVec.ofNat 32 M.size
  usage : mem.word (M.addr + 16) = BitVec.ofNat 32 M.usage
  next : Linked 4 mem (M.addr + 20) (M.minors.map Minor.addr) 0
  prev : LinkedBack 0 mem 0 (M.minors.map Minor.addr)
  minors : ∀ m ∈ M.minors, m.Written mem M.addr

namespace Minor.Written

variable {mem mem' : Memory} {m : Minor} {maj : Nat}

/-- The header and the byte before the pointer are all that is written. -/
theorem frame (h : m.Written mem maj) (hptr : m.addr + minorHeader + 16 ≤ m.ptr)
    (hkeep : ∀ z, m.addr + 8 ≤ z → z < m.ptr → mem' z = mem z) : m.Written mem' maj := by
  unfold minorHeader at hptr
  have hword (i : Nat) (h1 : 8 ≤ i) (h2 : i ≤ 20) : mem'.word (m.addr + i) = mem.word (m.addr + i) :=
    word_of_bytes fun z h3 h4 => hkeep z (by omega) (by omega)
  refine ⟨(hword 8 (by omega) (by omega)).trans h.block, (hword 12 (by omega) (by omega)).trans h.magic,
    (hword 16 (by omega) (by omega)).trans h.size, (hword 20 (by omega) (by omega)).trans h.reqSize, ?_⟩
  exact (hkeep _ (by omega) (by omega)).trans h.info

end Minor.Written

section Occupied

variable {mem mem' : Memory} {M : Major} {pl : Place} {size reqSize usage : Nat}

theorem Major.Sound.pre_cell {m : Minor} (hM : M.Sound) (hm : m ∈ (M.pre pl).dropLast) :
    m.stop + 4 ≤ prevCell M.addr (M.pre pl).getLast? := by
  have hpre := (hM.packed_split pl).append.1
  cases hl : (M.pre pl).getLast? with
  | none =>
    rw [List.getLast?_eq_none_iff.mp hl] at hm
    cases hm
  | some y =>
    have hle := hpre.before_last hl hm
    change m.stop + 4 ≤ y.addr + 4
    omega

/-- The minors in front of a gap, and the pointer to what comes behind them: it is that of the last. -/
theorem Major.Sound.pre_bounds {m : Minor} (hM : M.Sound) (hm : m ∈ M.pre pl) :
    M.addr + majorHeader ≤ m.addr ∧ m.stop ≤ M.gapStart pl ∧
      (prevCell M.addr (M.pre pl).getLast? = m.addr + 4 ∨
        m.stop + 4 ≤ prevCell M.addr (M.pre pl).getLast?) := by
  have hb := (hM.packed_split pl).append.1.bounds hm
  refine ⟨hb.1, hb.2.2, ?_⟩
  by_cases hdrop : m ∈ (M.pre pl).dropLast
  · exact .inr (hM.pre_cell hdrop)
  · obtain ⟨ys, y, hys⟩ := (M.pre pl).eq_nil_or_concat.resolve_left (List.ne_nil_of_mem hm)
    rw [hys] at hm hdrop ⊢
    rw [List.concat_eq_append, List.dropLast_concat] at hdrop
    rw [List.concat_eq_append] at hm ⊢
    obtain rfl := List.mem_singleton.mp ((List.mem_append.mp hm).resolve_left hdrop)
    simp [prevCell]

theorem Major.Sound.post_bounds {m : Minor} (hM : M.Sound) (hm : m ∈ M.post pl) :
    M.gapEnd pl ≤ m.addr ∧ m.stop ≤ M.stop ∧ ∀ y, (M.post pl).head? = some y → y.addr ≤ m.addr := by
  have hsplit := (hM.packed_split pl).append
  have hb := hsplit.2.2.bounds hm
  unfold Major.gapEnd
  cases hp : M.post pl with
  | nil =>
    rw [hp] at hm
    cases hm
  | cons z zs =>
    rw [hp] at hm hsplit
    refine ⟨?_, hb.2.2, ?_⟩
    · rcases List.mem_cons.mp hm with rfl | hm
      · exact Nat.le_refl _
      · have hle := hsplit.2.2.behind_head rfl hm
        unfold Minor.stop at hle
        change z.addr ≤ m.addr
        omega
    · intro y hy
      obtain rfl : z = y := by simpa using hy
      rcases List.mem_cons.mp hm with rfl | hm
      · exact Nat.le_refl _
      · have hle := hsplit.2.2.behind_head rfl hm
        unfold Minor.stop at hle
        omega

theorem Major.Sound.site (hM : M.Sound) (hgap : M.gapStart pl + minorHeader + size ≤ M.gapEnd pl) :
    LinkSite M.addr (M.pre pl).getLast? (M.post pl).head? (M.newMinor pl size reqSize) := by
  have hb := hM.gap_bounds pl
  have haddr := hM.newMinor_addr pl size reqSize
  refine ⟨by omega, ?_, ?_⟩
  · intro y hy
    have hpre := hM.pre_bounds (List.mem_of_getLast? hy)
    unfold Minor.stop at hpre
    omega
  · intro y hy
    have hpost := hM.post_bounds (List.mem_of_head? hy)
    omega

/-- Writing to the pointers at a gap leaves the others of the block alone, and the rest of the headers. -/
theorem Major.Sound.links_kept {z : Nat} (hM : M.Sound)
    (hgap : M.gapStart pl + minorHeader + size ≤ M.gapEnd pl)
    (hl : Links mem mem' M.addr usage (M.pre pl).getLast? (M.post pl).head?
      (M.newMinor pl size reqSize)) (hz : z < M.gapStart pl ∨ M.gapEnd pl ≤ z)
    (hfields : z < M.addr + 16 ∨ M.addr + 20 ≤ z)
    (hcell : z < prevCell M.addr (M.pre pl).getLast? ∨ prevCell M.addr (M.pre pl).getLast? + 4 ≤ z)
    (hnext : ∀ y, (M.post pl).head? = some y → z < y.addr ∨ y.addr + 4 ≤ z) : mem' z = mem z := by
  have haddr := hM.newMinor_addr pl size reqSize
  have hstop : (M.newMinor pl size reqSize).stop ≤ M.gapEnd pl := by
    unfold Minor.stop
    rw [haddr]
    exact hgap
  exact hl.kept z hfields hcell hnext (by omega)

theorem Major.Written.occupied (hM : M.Sound) (h : M.Written mem) (hsize : size = reqSize + 32)
    (hgap : M.gapStart pl + minorHeader + size ≤ M.gapEnd pl)
    (hl : Links mem mem' M.addr (M.occupied pl size reqSize).usage (M.pre pl).getLast?
      (M.post pl).head? (M.newMinor pl size reqSize))
    (hinfo : mem' ((M.newMinor pl size reqSize).ptr - 16) = BitVec.ofNat 8
      ((M.newMinor pl size reqSize).ptr - ((M.newMinor pl size reqSize).addr + minorHeader))) :
    (M.occupied pl size reqSize).Written mem' := by
  have hsite : LinkSite M.addr (M.pre pl).getLast? (M.post pl).head? (M.newMinor pl size reqSize) :=
    hM.site hgap
  have haddr := hM.newMinor_addr pl size reqSize
  have hgapB := hM.gap_bounds pl
  have hcell := hsite.cell_bounds
  have hhigh := hM.high
  have hkept {z : Nat} := hM.links_kept (z := z) hgap hl
  have hminors : (M.occupied pl size reqSize).minors.map Minor.addr =
      (M.pre pl).map Minor.addr ++ [(M.newMinor pl size reqSize).addr] ++ (M.post pl).map Minor.addr := by
    simp [Major.occupied]
  have hold : M.minors.map Minor.addr =
      (M.pre pl).map Minor.addr ++ [] ++ (M.post pl).map Minor.addr := by
    rw [List.append_nil, ← List.map_append, Major.Sound.pre_post]
  -- the pointers in front of the header, and the header
  have hpre (m : Minor) (hm : m ∈ M.pre pl) := And.intro (hM.pre_bounds hm) m.header_le
  have hpost (m : Minor) (hm : m ∈ M.post pl) := hM.post_bounds hm
  have hblock (m : Minor) (hm : m ∈ M.minors) := hM.bounds hm
  have hcellLe : prevCell M.addr (M.pre pl).getLast? + 4 ≤ M.gapStart pl := by omega
  unfold majorHeader at *
  refine ⟨?_, ?_, hl.usage, ?_, ?_, ?_⟩
  · refine (word_of_bytes fun z h1 h2 => ?_).trans h.pages
    change M.addr + 8 ≤ z at h1
    change z < M.addr + 8 + 4 at h2
    apply hkept (by omega) (by omega) (by omega)
    intro y hy
    have := hpost y (List.mem_of_head? hy)
    omega
  · refine (word_of_bytes fun z h1 h2 => ?_).trans h.size
    change M.addr + 12 ≤ z at h1
    change z < M.addr + 12 + 4 at h2
    apply hkept (by omega) (by omega) (by omega)
    intro y hy
    have := hpost y (List.mem_of_head? hy)
    omega
  · have hnext := h.next
    rw [hold] at hnext
    rw [hminors]
    apply hnext.exchange
    · intro hne
      obtain ⟨ys, y, hys⟩ := (M.pre pl).eq_nil_or_concat.resolve_left (by simpa using hne)
      have hlast : (M.pre pl).getLast? = some y := by rw [hys]; simp
      have hy := hpre y (List.mem_of_getLast? hlast)
      refine word_of_bytes fun z h1 h2 => hkept (by omega) (by omega) (by omega) ?_
      intro n hn
      have := hpost n (List.mem_of_head? hn)
      omega
    · intro a ha
      rw [← List.map_dropLast] at ha
      obtain ⟨m, hm, rfl⟩ := List.mem_map.mp ha
      have hm' := hpre m (List.mem_of_mem_dropLast hm)
      have hlast := hM.pre_cell hm
      refine word_of_bytes fun z h1 h2 => hkept (by omega) (by omega) (by omega) ?_
      intro n hn
      have := hpost n (List.mem_of_head? hn)
      omega
    · intro a ha
      obtain ⟨m, hm, rfl⟩ := List.mem_map.mp ha
      have hm' := hpost m hm
      refine word_of_bytes fun z h1 h2 => hkept (by omega) (by omega) (by omega) ?_
      intro n hn
      have := hm'.2.2 n hn
      omega
    · rw [lastCell_addr, headWord_addr]
      exact ⟨hl.cell, hl.header 1 _ rfl⟩
  · have hprev := h.prev
    rw [hold] at hprev
    rw [hminors]
    apply hprev.exchange
    · intro a ha
      obtain ⟨m, hm, rfl⟩ := List.mem_map.mp ha
      have hm' := hpre m hm
      refine word_of_bytes fun z h1 h2 => hkept (by omega) (by omega) (by omega) ?_
      intro n hn
      have := hpost n (List.mem_of_head? hn)
      omega
    · rw [getLast?_addr]
      exact ⟨hl.header 0 _ rfl, trivial⟩
    · intro a ha
      rw [List.head?_map] at ha
      obtain ⟨y, hy, rfl⟩ := Option.map_eq_some_iff.mp ha
      simpa using hl.before y hy
    · intro a ha
      rw [← List.map_tail] at ha
      obtain ⟨m, hm, rfl⟩ := List.mem_map.mp ha
      have hm' := hpost m (List.mem_of_mem_tail hm)
      refine word_of_bytes fun z h1 h2 => hkept (by omega) (by omega) (by omega) ?_
      intro n hn
      have hn' := (hM.packed_split pl).append.2.2.behind_head hn hm
      unfold Minor.stop minorHeader at hn'
      omega
  · intro m hm
    have hcases : m ∈ M.minors ∨ m = M.newMinor pl size reqSize := by
      rw [← Major.Sound.pre_post M pl]
      simp only [Major.occupied, List.mem_append, List.mem_cons] at hm ⊢
      tauto
    rcases hcases with hm | rfl
    · have hb := hblock m hm
      have hptr := Minor.ptr_bounds (hM.sizes m hm) (by omega)
      apply (h.minors m hm).frame hptr.1
      intro z h1 h2
      rw [← Major.Sound.pre_post M pl] at hm
      rcases List.mem_append.mp hm with hm | hm
      · have hm' := hpre m hm
        apply hkept (by omega) (by omega) (by omega)
        intro n hn
        have := hpost n (List.mem_of_head? hn)
        omega
      · have hm' := hpost m hm
        apply hkept (by omega) (by omega) (by omega)
        intro n hn
        have := hm'.2.2 n hn
        omega
    · exact ⟨hl.header 2 _ rfl, hl.header 3 _ rfl, hl.header 4 _ rfl, hl.header 5 _ rfl, hinfo⟩

end Occupied

section Vacated

variable {mem mem' : Memory} {M : Major} {m : Minor} {k usage : Nat}

/-- The place of a new minor behind `k` others. -/
def placeAt : Nat → Place
  | 0 => .case3
  | k + 1 => .case4₂ k

theorem placeAt_before (ms : List Minor) (k : Nat) : (placeAt k).before ms = k := by
  cases k <;> rfl

theorem vacated_pre (hm : M.minors[k]? = some m) : (M.vacated k).pre (placeAt k) = M.minors.take k := by
  have hk := (List.getElem?_eq_some_iff.mp hm).1
  rw [Major.pre, placeAt_before]
  exact List.take_left' (by rw [List.length_take]; omega)

theorem vacated_post (hm : M.minors[k]? = some m) :
    (M.vacated k).post (placeAt k) = M.minors.drop (k + 1) := by
  have hk := (List.getElem?_eq_some_iff.mp hm).1
  rw [Major.post, placeAt_before]
  exact List.drop_left' (by rw [List.length_take]; omega)

/-- The minor that left lies in the gap. -/
theorem vacated_gap (hM : M.Sound) (hm : M.minors[k]? = some m) :
    (M.vacated k).gapStart (placeAt k) ≤ m.addr ∧ m.stop ≤ (M.vacated k).gapEnd (placeAt k) := by
  have hp := hM.packed
  rw [← split_at hm] at hp
  obtain ⟨-, hstart, hrest⟩ := hp.append
  unfold Major.gapStart Major.gapEnd
  rw [vacated_pre hm, vacated_post hm]
  refine ⟨hstart, ?_⟩
  have hend := hrest.2.2
  cases hpost : M.minors.drop (k + 1) with
  | nil =>
    rw [hpost] at hend
    exact hend
  | cons y ys =>
    rw [hpost] at hend
    exact hend.1

theorem vacateMem_unlinks
    (hsite : LinkSite M.addr (M.minors.take k).getLast? (M.minors.drop (k + 1)).head? m) :
    Unlinks mem (vacateMem mem M k m.addr) M.addr (M.vacated k).usage (M.minors.take k).getLast?
      (M.minors.drop (k + 1)).head? m := by
  rw [vacateMem_eq]
  exact unlinkMinor_unlinks hsite

theorem vacated_site (hM : M.Sound) (hm : M.minors[k]? = some m) (hne : (M.vacated k).minors ≠ []) :
    LinkSite M.addr (M.minors.take k).getLast? (M.minors.drop (k + 1)).head? m := by
  have hM' := hM.vacated hm hne
  have hgap := vacated_gap hM hm
  have hb := hM.bounds (List.mem_of_getElem? hm)
  have hhead := m.header_le
  refine ⟨hb.1, ?_, ?_⟩
  · intro y hy
    rw [← vacated_pre hm] at hy
    have hy' : M.addr + majorHeader ≤ y.addr ∧ _ := hM'.pre_bounds (List.mem_of_getLast? hy)
    have := y.header_le
    unfold minorHeader
    omega
  · intro y hy
    rw [← vacated_post hm] at hy
    have hy' := hM'.post_bounds (List.mem_of_head? hy)
    unfold minorHeader
    omega

/-- Taking a minor out writes to nothing but its block. -/
theorem vacateMem_outside {z : Nat} (hM : M.Sound) (hm : M.minors[k]? = some m)
    (hne : (M.vacated k).minors ≠ []) (hz : z < M.addr + 8 ∨ M.stop ≤ z) :
    vacateMem mem M k m.addr z = mem z := by
  have hsite := vacated_site hM hm hne
  have hcell := hsite.cell_bounds
  have hb := hM.bounds (List.mem_of_getElem? hm)
  have hhead := m.header_le
  unfold majorHeader at hb
  apply (vacateMem_unlinks hsite).kept z (by omega) (by omega) ?_ (by omega)
  intro y hy
  have hy' := hM.bounds (List.mem_of_mem_drop (List.mem_of_head? hy))
  have := y.header_le
  unfold majorHeader at hy'
  omega

/-- A block without one of its minors. -/
theorem Major.Written.vacated (hM : M.Sound) (h : M.Written mem) (hm : M.minors[k]? = some m)
    (hne : (M.vacated k).minors ≠ []) : (M.vacated k).Written (vacateMem mem M k m.addr) := by
  have hM' := hM.vacated hm hne
  have hgap := vacated_gap hM hm
  have hhigh := hM.high
  have hb := hM.bounds (List.mem_of_getElem? hm)
  have hhead := m.header_le
  have hpre (y : Minor) (hy : y ∈ (M.vacated k).pre (placeAt k)) :=
    And.intro (hM'.pre_bounds hy) y.header_le
  have hpost (y : Minor) (hy : y ∈ (M.vacated k).post (placeAt k)) :=
    And.intro (hM'.post_bounds hy) y.header_le
  have hdrop (y : Minor) (hy : y ∈ ((M.vacated k).pre (placeAt k)).dropLast) := hM'.pre_cell hy
  have htail (y n : Minor) (hn : ((M.vacated k).post (placeAt k)).head? = some n)
      (hy : y ∈ ((M.vacated k).post (placeAt k)).tail) : n.stop ≤ y.addr :=
    (hM'.packed_split (placeAt k)).append.2.2.behind_head hn hy
  have haddr : (M.vacated k).addr = M.addr := rfl
  rw [vacated_pre hm] at hpre hdrop
  rw [vacated_post hm] at hpost htail
  rw [haddr] at hpre hdrop
  unfold majorHeader at *
  have hsite := vacated_site hM hm hne
  obtain ⟨hcellLow, hcellHigh⟩ := hsite.cell_bounds
  generalize hmem' : vacateMem mem M k m.addr = mem'
  have hl : Unlinks mem mem' M.addr (M.vacated k).usage (M.minors.take k).getLast?
      (M.minors.drop (k + 1)).head? m := hmem' ▸ vacateMem_unlinks hsite
  -- the rest of the block is not written to
  have hkept (z : Nat) (h1 : z < M.addr + 16 ∨ M.addr + 20 ≤ z)
      (h2 : z < prevCell M.addr (M.minors.take k).getLast? ∨
        prevCell M.addr (M.minors.take k).getLast? + 4 ≤ z)
      (h3 : ∀ y, (M.minors.drop (k + 1)).head? = some y → z < y.addr ∨ y.addr + 4 ≤ z)
      (h4 : z < m.addr ∨ m.stop ≤ z) : mem' z = mem z := by
    apply hl.kept z h1 h2 h3
    omega
  have hbehind (n : Minor) (hn : (M.minors.drop (k + 1)).head? = some n) : m.stop ≤ n.addr := by
    have := hpost n (List.mem_of_head? hn)
    omega
  have hold : M.minors.map Minor.addr =
      (M.minors.take k).map Minor.addr ++ [m.addr] ++ (M.minors.drop (k + 1)).map Minor.addr := by
    rw [List.append_assoc, ← List.map_singleton, ← List.map_append, ← List.map_append]
    exact congrArg _ (split_at hm).symm
  have hnew : (M.vacated k).minors.map Minor.addr =
      (M.minors.take k).map Minor.addr ++ [] ++ (M.minors.drop (k + 1)).map Minor.addr := by
    rw [List.append_nil, ← List.map_append]
    rfl
  have hminors : (M.vacated k).minors = M.minors.take k ++ M.minors.drop (k + 1) := rfl
  have hmem (y : Minor) (hy : y ∈ (M.vacated k).minors) : y ∈ M.minors := by
    rw [← split_at hm]
    rcases List.mem_append.mp hy with hy | hy
    · exact List.mem_append_left _ hy
    · exact List.mem_append_right _ (List.mem_cons_of_mem _ hy)
  generalize M.minors.take k = pre at *
  generalize M.minors.drop (k + 1) = post at *
  refine ⟨?_, ?_, hl.usage, ?_, ?_, ?_⟩
  · refine (word_of_bytes fun z h1 h2 => ?_).trans h.pages
    change M.addr + 8 ≤ z at h1
    change z < M.addr + 8 + 4 at h2
    apply hkept z (by omega) (by omega) ?_ (by omega)
    intro n hn
    have := hbehind n hn
    omega
  · refine (word_of_bytes fun z h1 h2 => ?_).trans h.size
    change M.addr + 12 ≤ z at h1
    change z < M.addr + 12 + 4 at h2
    apply hkept z (by omega) (by omega) ?_ (by omega)
    intro n hn
    have := hbehind n hn
    omega
  · have hnext := h.next
    rw [hold] at hnext
    rw [hnew]
    apply hnext.exchange
    · intro hne
      obtain ⟨ys, y, rfl⟩ := pre.eq_nil_or_concat.resolve_left (by simpa using hne)
      have hy := hpre y (by simp)
      refine word_of_bytes fun z h1 h2 => hkept z (by omega) (by omega) ?_ (by omega)
      intro n hn
      have := hbehind n hn
      omega
    · intro a ha
      rw [← List.map_dropLast] at ha
      obtain ⟨y, hy, rfl⟩ := List.mem_map.mp ha
      have hy' := hpre y (List.mem_of_mem_dropLast hy)
      have hlast := hdrop y hy
      refine word_of_bytes fun z h1 h2 => hkept z (by omega) (by omega) ?_ (by omega)
      intro n hn
      have := hbehind n hn
      omega
    · intro a ha
      obtain ⟨y, hy, rfl⟩ := List.mem_map.mp ha
      have hy' := hpost y hy
      refine word_of_bytes fun z h1 h2 => hkept z (by omega) (by omega) ?_ (by omega)
      intro n hn
      have := hy'.1.2.2 n hn
      omega
    · rw [lastCell_addr, headWord_addr]
      exact hl.cell
  · have hprev := h.prev
    rw [hold] at hprev
    rw [hnew]
    apply hprev.exchange
    · intro a ha
      obtain ⟨y, hy, rfl⟩ := List.mem_map.mp ha
      have hy' := hpre y hy
      refine word_of_bytes fun z h1 h2 => hkept z (by omega) (by omega) ?_ (by omega)
      intro n hn
      have := hbehind n hn
      omega
    · trivial
    · intro a ha
      rw [List.head?_map] at ha
      obtain ⟨y, hy, rfl⟩ := Option.map_eq_some_iff.mp ha
      rw [List.append_nil, getLast?_addr]
      exact hl.before y hy
    · intro a ha
      rw [← List.map_tail] at ha
      obtain ⟨y, hy, rfl⟩ := List.mem_map.mp ha
      have hy' := hpost y (List.mem_of_mem_tail hy)
      refine word_of_bytes fun z h1 h2 => hkept z (by omega) (by omega) ?_ (by omega)
      intro n hn
      have := htail y n hn hy
      have := n.header_le
      omega
  · intro y hy
    have hsize := hM'.sizes y hy
    have hb' := hM'.bounds hy
    have hstop : (M.vacated k).stop = M.stop := rfl
    have hptr := Minor.ptr_bounds hsize (by omega)
    apply (h.minors y (hmem y hy)).frame hptr.1
    intro z h1 h2
    rw [hminors] at hy
    rcases List.mem_append.mp hy with hy | hy
    · have hy' := hpre y hy
      apply hkept z (by omega) (by omega) ?_ (by omega)
      intro n hn
      have := hbehind n hn
      omega
    · have hy' := hpost y hy
      apply hkept z (by omega) (by omega) ?_ (by omega)
      intro n hn
      have := hy'.1.2.2 n hn
      omega

end Vacated

/-- The bytes of a block that nobody owns: its header, and the minors up to their pointers. -/
def Major.Reserved (M : Major) (z : Nat) : Prop :=
  (M.addr ≤ z ∧ z < M.addr + majorHeader) ∨ ∃ m ∈ M.minors, m.addr ≤ z ∧ z < m.ptr

theorem Major.Sound.reserved_bounds {M : Major} {z : Nat} (hM : M.Sound) (hz : M.Reserved z) :
    M.addr ≤ z ∧ z < M.stop := by
  have hhigh := hM.high
  have hle := hM.packed.le
  rcases hz with hz | ⟨m, hm, h1, h2⟩
  · omega
  · have hb := hM.bounds hm
    have hptr := Minor.ptr_bounds (hM.sizes m hm) (by omega)
    omega

/-- Nothing but the reserved bytes of a block tells what is written about it. -/
theorem Major.Written.frame {M : Major} {mem mem' : Memory} (hM : M.Sound) (h : M.Written mem)
    (hkeep : ∀ z, M.addr + 8 ≤ z → M.Reserved z → mem' z = mem z) : M.Written mem' := by
  have hhigh := hM.high
  have hword (i : Nat) (h1 : 8 ≤ i) (h2 : i ≤ 20) : mem'.word (M.addr + i) = mem.word (M.addr + i) :=
    word_of_bytes fun z h3 h4 => hkeep z (by omega) (.inl (by unfold majorHeader; omega))
  have hminor (m : Minor) (hm : m ∈ M.minors) (z : Nat) (h1 : m.addr ≤ z) (h2 : z < m.ptr) :
      mem' z = mem z := by
    have hb := hM.bounds hm
    unfold majorHeader at hb
    exact hkeep z (by omega) (.inr ⟨m, hm, h1, h2⟩)
  have hptr (m : Minor) (hm : m ∈ M.minors) := by
    have hb := hM.bounds hm
    exact Minor.ptr_bounds (hM.sizes m hm) (by omega)
  unfold minorHeader at hptr
  have hcell : mem'.word (M.addr + 20) = mem.word (M.addr + 20) := hword 20 (by omega) (by omega)
  refine ⟨(hword 8 (by omega) (by omega)).trans h.pages, (hword 12 (by omega) (by omega)).trans h.size,
    (hword 16 (by omega) (by omega)).trans h.usage, h.next.moved hcell ?_, h.prev.frame ?_, ?_⟩
  · intro a ha
    obtain ⟨m, hm, rfl⟩ := List.mem_map.mp ha
    have hm' := hptr m hm
    exact word_of_bytes fun z h1 h2 => hminor m hm z (by omega) (by omega)
  · intro a ha
    obtain ⟨m, hm, rfl⟩ := List.mem_map.mp ha
    have hm' := hptr m hm
    exact word_of_bytes fun z h1 h2 => hminor m hm z (by omega) (by omega)
  · intro m hm
    exact (h.minors m hm).frame (hptr m hm).1 fun z h1 h2 => hminor m hm z (by omega) h2

end Levos.Liballoc
