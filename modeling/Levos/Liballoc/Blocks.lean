import Levos.Framework.Segments
import Levos.Liballoc.Malloc

namespace Levos.Liballoc

open Levos.Framework Levos.Memory

theorem sub32_eq {a b : Nat} (hle : b ≤ a) (hlt : a < 2 ^ 32) : sub32 a b = a - b := by
  unfold sub32 wrap
  omega

def Minor.stop (m : Minor) : Nat := m.addr + minorHeader + m.size

/-- The free bytes behind a minor, as the code counts them. -/
theorem sub32_stop {m : Minor} {hi : Nat} (hle : m.stop ≤ hi) (hlt : hi < 2 ^ 32) :
    sub32 (sub32 (sub32 hi m.addr) minorHeader) m.size = hi - m.stop := by
  unfold Minor.stop minorHeader at *
  have h1 : sub32 hi m.addr = hi - m.addr := sub32_eq (by omega) hlt
  have h2 : sub32 (hi - m.addr) 24 = hi - m.addr - 24 := sub32_eq (by omega) (by omega)
  rw [h1, h2, sub32_eq (by omega) (by omega)]
  omega

def Major.stop (M : Major) : Nat := M.addr + M.pages * 4096

/-- A block that the code can work with: it lies in the address space, its minors lie in it one
behind the other, each with room to align what was asked for. -/
structure Major.Sound (M : Major) : Prop where
  low : 0 < M.addr
  high : M.stop < 2 ^ 32
  packed : Packed Minor.addr Minor.stop (M.addr + majorHeader) M.stop M.minors
  sizes : ∀ m ∈ M.minors, m.size = m.reqSize + 32
  fresh : M.minors = [] → M.usage = majorHeader

/-- The free bytes between the minors in front of a new one and those behind it. -/
def Major.gapStart (M : Major) (pl : Place) : Nat := endOf Minor.stop (M.addr + majorHeader) (M.pre pl)

def Major.gapEnd (M : Major) (pl : Place) : Nat := startOf Minor.addr M.stop (M.post pl)

namespace Major.Sound

variable {M : Major} {m : Minor} {size k : Nat} {pl : Place}

theorem size_eq (hM : M.Sound) : M.size = M.pages * 4096 := by
  have := hM.high
  unfold Major.stop at this
  exact wrap_of_lt (by omega)

theorem bounds (hM : M.Sound) (hm : m ∈ M.minors) :
    M.addr + majorHeader ≤ m.addr ∧ m.stop ≤ M.stop := by
  have := hM.packed.bounds hm
  omega

/-- The tail of a block, or the gap behind minor `k`, in the part of the list still to be seen. -/
theorem scanMinors {lo : Nat} {ms : List Minor} (hM : M.Sound) (hsize : size + minorHeader < 2 ^ 32)
    (hp : Packed Minor.addr Minor.stop lo M.stop ms)
    (h : scanMinors M size k ms = some pl) :
    (pl = .case4₁ ∧ endOf Minor.stop lo ms + minorHeader + size ≤ M.stop) ∨
    ∃ j, pl = .case4₂ (k + j) ∧ endOf Minor.stop lo (ms.take (j + 1)) + minorHeader + size ≤
      startOf Minor.addr M.stop (ms.drop (j + 1)) := by
  have hhigh := hM.high
  have hend : wrap (M.addr + M.size) = M.stop := by
    rw [hM.size_eq]
    exact wrap_of_lt hhigh
  induction ms generalizing lo k with
  | nil => cases h
  | cons m ms ih =>
    obtain ⟨h1, h2, h3⟩ := hp
    cases ms with
    | nil =>
      left
      simp only [Liballoc.scanMinors, hend, sub32_stop h3 hhigh, wrap_of_lt hsize] at h
      split_ifs at h with hfit
      cases h
      have hle : m.stop ≤ M.stop := h3
      refine ⟨rfl, ?_⟩
      simp only [endOf]
      omega
    | cons n ms =>
      have hlast := h3.le
      have hn : n.addr < 2 ^ 32 := by
        have := (h3.bounds (List.mem_cons_self ..)).2
        omega
      simp only [Liballoc.scanMinors, sub32_stop h3.1 hn, wrap_of_lt hsize] at h
      split_ifs at h with hfit
      · cases h
        refine .inr ⟨0, rfl, ?_⟩
        have hle : m.stop ≤ n.addr := h3.1
        simp only [List.take_succ_cons, List.take_zero, List.drop_succ_cons, List.drop_zero, endOf,
          startOf]
        omega
      · rcases ih h3 h with ⟨rfl, htail⟩ | ⟨j, rfl, hgap⟩
        · exact .inl ⟨rfl, htail⟩
        · refine .inr ⟨j + 1, congrArg Place.case4₂ (by omega), ?_⟩
          rw [List.take_succ_cons, List.drop_succ_cons]
          exact hgap

/-- A block with room for a request has it in the gap that the case names. -/
theorem room_gap (hM : M.Sound) (hsize : size + minorHeader < 2 ^ 32) (h : M.room size = some pl) :
    M.gapStart pl + minorHeader + size ≤ M.gapEnd pl := by
  have hhigh := hM.high
  have hle := hM.packed.le
  unfold Major.gapStart Major.gapEnd Major.pre Major.post
  simp only [Major.room, wrap_of_lt hsize] at h
  split_ifs at h with hfull
  unfold Major.place at h
  cases hms : M.minors with
  | nil =>
    simp only [hms] at h
    cases h
    have hdiff : sub32 M.size M.usage = M.stop - (M.addr + majorHeader) := by
      rw [hM.fresh hms, hM.size_eq]
      unfold Major.stop at hhigh hle ⊢
      rw [sub32_eq (by omega) (by omega)]
      omega
    simp only [Place.before, List.take_zero, List.drop_zero, endOf, startOf]
    omega
  | cons m ms =>
    simp only [hms, wrap_of_lt hsize] at h
    have hp := hM.packed
    rw [hms] at hp
    split_ifs at h with hfront
    · cases h
      have hm := hp.bounds (List.mem_cons_self ..)
      have hbetween : sub32 (sub32 m.addr M.addr) majorHeader = m.addr - (M.addr + majorHeader) := by
        have h1 : sub32 m.addr M.addr = m.addr - M.addr := sub32_eq (by omega) (by omega)
        rw [h1, sub32_eq (by omega) (by omega)]
        omega
      simp only [Place.before, List.take_zero, List.drop_zero, endOf, startOf]
      omega
    · rcases hM.scanMinors hsize hp h with ⟨rfl, htail⟩ | ⟨j, rfl, hgap⟩
      · simpa [Place.before, startOf] using htail
      · simpa [Place.before] using hgap

theorem pre_post (M : Major) (pl : Place) : M.pre pl ++ M.post pl = M.minors :=
  List.take_append_drop _ _

theorem packed_split (hM : M.Sound) (pl : Place) :
    Packed Minor.addr Minor.stop (M.addr + majorHeader) M.stop (M.pre pl ++ M.post pl) := by
  rw [pre_post]
  exact hM.packed

theorem gap_bounds (hM : M.Sound) (pl : Place) :
    M.addr + majorHeader ≤ M.gapStart pl ∧ M.gapEnd pl ≤ M.stop := by
  obtain ⟨h1, h2, h3⟩ := (hM.packed_split pl).append
  refine ⟨h1.le, ?_⟩
  unfold Major.gapEnd
  cases hp : M.post pl with
  | nil => exact Nat.le_refl _
  | cons y ys =>
    rw [hp] at h3
    have := h3.2.2.le
    have := h3.2.1
    simp only [startOf]
    omega

/-- The new minor begins where the gap does. -/
theorem newMinor_addr (hM : M.Sound) (pl : Place) (size reqSize : Nat) :
    (M.newMinor pl size reqSize).addr = M.gapStart pl := by
  have hhigh := hM.high
  have hb := hM.gap_bounds pl
  obtain ⟨h1, h2, h3⟩ := (hM.packed_split pl).append
  have hle := h3.le
  have hend := endOf_getLast? Minor.stop (M.addr + majorHeader) (M.pre pl)
  unfold Major.newMinor Major.behind Major.gapStart
  cases hl : (M.pre pl).getLast? with
  | none =>
    rw [hl] at hend
    simp only [hend, Option.elim_none]
    rw [hend] at hle
    simp only [Option.elim_none] at hle
    exact wrap_of_lt (by omega)
  | some m =>
    rw [hl] at hend
    simp only [hend, Option.elim_some]
    rw [hend] at hle
    simp only [Option.elim_some, Minor.stop] at hle ⊢
    rw [wrap_of_lt (x := m.addr + minorHeader) (by omega), wrap_of_lt (by omega)]

theorem occupied (hM : M.Sound) {reqSize : Nat} (hsize : size = reqSize + 32)
    (hgap : M.gapStart pl + minorHeader + size ≤ M.gapEnd pl) :
    (M.occupied pl size reqSize).Sound := by
  have haddr := hM.newMinor_addr pl size reqSize
  refine ⟨hM.low, hM.high, ?_, ?_, ?_⟩
  · apply (hM.packed_split pl).insert
    · exact Nat.le_of_eq haddr.symm
    · unfold Minor.stop
      omega
    · unfold Minor.stop
      rw [haddr]
      exact hgap
  · intro m hm
    rcases List.mem_append.mp hm with hm | hm
    · exact hM.sizes m (List.mem_of_mem_take hm)
    · rcases List.mem_cons.mp hm with rfl | hm
      · exact hsize
      · exact hM.sizes m (List.mem_of_mem_drop hm)
  · intro hnil
    simp [Major.occupied] at hnil

end Major.Sound

/-- The bytes that a minor gives to its owner. -/
def Minor.Holds (m : Minor) (z : Nat) : Prop := m.ptr ≤ z ∧ z < m.ptr + m.reqSize

/-- `z` lies in no header of the block. -/
def Major.Off (M : Major) (z : Nat) : Prop :=
  (z < M.addr ∨ M.addr + majorHeader ≤ z) ∧ ∀ m ∈ M.minors, z < m.addr ∨ m.addr + minorHeader ≤ z

theorem align_bounds {a : Nat} (h : a + 32 ≤ 2 ^ 32) :
    a + 16 ≤ (align a).1 ∧ (align a).1 ≤ a + 31 := by
  have hptr : wrap (a + 16) = a + 16 := wrap_of_lt (by omega)
  simp only [align, hptr]
  split_ifs
  · rw [wrap_of_lt (by omega)]
    omega
  · rw [wrap_of_lt (by omega)]
    omega

/-- What a minor holds lies behind its header. -/
theorem Minor.ptr_bounds {m : Minor} (hsize : m.size = m.reqSize + 32) (hlt : m.stop < 2 ^ 32) :
    m.addr + minorHeader + 16 ≤ m.ptr ∧ m.ptr + m.reqSize < m.stop := by
  unfold Minor.stop at hlt ⊢
  have hstart : wrap (m.addr + minorHeader) = m.addr + minorHeader := wrap_of_lt (by omega)
  have hb := align_bounds (a := m.addr + minorHeader) (by omega)
  unfold Minor.ptr
  rw [hstart]
  omega

section Writes

variable {mem : Memory} {a z : Nat}

theorem setWords_apply {ws : List Nat} (h : z < a ∨ a + 4 * ws.length ≤ z) :
    setWords mem a ws z = mem z := by
  induction ws generalizing mem a with
  | nil => rfl
  | cons w ws ih =>
    simp only [List.length_cons] at h
    rw [setWords, ih (by omega), Memory.setWord_apply (by omega)]

/-- Linking a minor writes its header and those of its neighbours and its block. -/
theorem linkMinor_apply {maj usage : Nat} {prev next : Option Minor} {x : Minor}
    (hmaj : z < maj ∨ maj + majorHeader ≤ z)
    (hprev : ∀ y, prev = some y → z < y.addr ∨ y.addr + minorHeader ≤ z)
    (hnext : ∀ y, next = some y → z < y.addr ∨ y.addr + minorHeader ≤ z)
    (hx : z < x.addr ∨ x.addr + minorHeader ≤ z) : linkMinor mem maj usage prev next x z = mem z := by
  unfold majorHeader minorHeader at *
  unfold linkMinor
  have hheader : z < x.addr ∨ x.addr + 4 * [addrOf prev, addrOf next, maj, liballocMagic.toNat,
      x.size, x.reqSize].length ≤ z := by
    simp only [List.length_cons, List.length_nil]
    omega
  rw [Memory.setWord_apply (by omega), setWords_apply hheader]
  cases prev with
  | none =>
    cases next with
    | none => exact Memory.setWord_apply (by omega)
    | some n =>
      have hn := hnext n rfl
      exact (Memory.setWord_apply (by omega)).trans (Memory.setWord_apply (by omega))
  | some y =>
    have hy := hprev y rfl
    cases next with
    | none => exact Memory.setWord_apply (by omega)
    | some n =>
      have hn := hnext n rfl
      exact (Memory.setWord_apply (by omega)).trans (Memory.setWord_apply (by omega))

/-- The end of a placement writes headers, and in front of the new pointer. -/
theorem occupyMem_apply {M : Major} {pl : Place} {size reqSize : Nat}
    (hlt : (M.newMinor pl size reqSize).stop < 2 ^ 32) (hsize : size = reqSize + 32) (hz : M.Off z)
    (hx : z < (M.newMinor pl size reqSize).addr ∨ (M.newMinor pl size reqSize).ptr ≤ z) :
    occupyMem mem M pl size reqSize z = mem z := by
  have hb := Minor.ptr_bounds (m := M.newMinor pl size reqSize) hsize hlt
  have hinfo : sub32 (M.newMinor pl size reqSize).ptr 16 = (M.newMinor pl size reqSize).ptr - 16 :=
    sub32_eq (by omega) (by omega)
  change setByte _ (sub32 (M.newMinor pl size reqSize).ptr 16) _ z = mem z
  rw [hinfo, setByte, if_neg (by omega)]
  apply linkMinor_apply hz.1
  · intro y hy
    exact hz.2 y (List.mem_of_mem_take (List.mem_of_getLast? hy))
  · intro y hy
    exact hz.2 y (List.mem_of_mem_drop (List.mem_of_head? hy))
  · omega

end Writes

end Levos.Liballoc
