import Levos.Framework.LinkedList
import Levos.Liballoc.Rules

namespace Levos.Liballoc

open Levos.Framework Levos.Memory

section Words

variable {mem mem' : Memory} {a : Nat}

theorem word_of_bytes (h : ∀ z, a ≤ z → z < a + 4 → mem' z = mem z) : mem'.word a = mem.word a :=
  have hagree : Memory.Agree a (a + 4) mem mem' := h
  hagree.word (Nat.le_refl _) (Nat.le_refl _)

/-- Word `i` of those that are written from `a` on. -/
theorem setWords_word {ws : List Nat} {i w : Nat} (hw : ws[i]? = some w) :
    (setWords mem a ws).word (a + 4 * i) = BitVec.ofNat 32 w := by
  induction ws generalizing mem a i with
  | nil => cases hw
  | cons v ws ih =>
    rw [setWords]
    cases i with
    | zero =>
      obtain rfl : v = w := by simpa using hw
      have hkeep : (setWords (mem.setWord a (BitVec.ofNat 32 v)) (a + 4) ws).word a =
          (mem.setWord a (BitVec.ofNat 32 v)).word a :=
        word_of_bytes fun z _ hz => setWords_apply (.inl (by omega))
      exact hkeep.trans (Memory.word_setWord _ _ _)
    | succ i =>
      have hrest : (setWords (mem.setWord a (BitVec.ofNat 32 v)) (a + 4) ws).word (a + 4 + 4 * i) =
          BitVec.ofNat 32 w := ih (by simpa using hw)
      rw [← hrest]
      congr 1
      omega

end Words

/-- The pointer to the first minor behind `prev`. -/
def prevCell (maj : Nat) (prev : Option Minor) : Nat := prev.elim (maj + 20) fun y => y.addr + 4

/-- Where a minor is linked into a block: behind `prev` and in front of `next`. -/
structure LinkSite (maj : Nat) (prev next : Option Minor) (x : Minor) : Prop where
  block : maj + majorHeader ≤ x.addr
  behind : ∀ y, prev = some y → maj + majorHeader ≤ y.addr ∧ y.addr + minorHeader ≤ x.addr
  before : ∀ y, next = some y → x.addr + minorHeader ≤ y.addr

section Link

variable {mem : Memory} {maj usage : Nat} {prev next : Option Minor} {x : Minor}

theorem LinkSite.cell_bounds (h : LinkSite maj prev next x) :
    maj + 20 ≤ prevCell maj prev ∧ prevCell maj prev + 4 ≤ x.addr := by
  have hblock := h.block
  unfold majorHeader at hblock
  cases prev with
  | none => exact ⟨Nat.le_refl _, by change maj + 20 + 4 ≤ x.addr; omega⟩
  | some y =>
    have hy := h.behind y rfl
    unfold majorHeader minorHeader at hy
    change maj + 20 ≤ y.addr + 4 ∧ y.addr + 4 + 4 ≤ x.addr
    omega

/-- The writes of `linkMinor`, one behind the other. -/
theorem linkMinor_eq : linkMinor mem maj usage prev next x =
    (setWords (next.elim (mem.setWord (prevCell maj prev) (BitVec.ofNat 32 x.addr)) fun y =>
        (mem.setWord (prevCell maj prev) (BitVec.ofNat 32 x.addr)).setWord y.addr (BitVec.ofNat 32 x.addr))
      x.addr [addrOf prev, addrOf next, maj, liballocMagic.toNat, x.size, x.reqSize]).setWord (maj + 16)
        (BitVec.ofNat 32 usage) := by
  cases prev <;> cases next <;> rfl

/-- What linking `x` writes, outside the bytes of its owner. -/
structure Links (mem mem' : Memory) (maj usage : Nat) (prev next : Option Minor) (x : Minor) :
    Prop where
  usage : mem'.word (maj + 16) = BitVec.ofNat 32 usage
  cell : mem'.word (prevCell maj prev) = BitVec.ofNat 32 x.addr
  before : ∀ y, next = some y → mem'.word y.addr = BitVec.ofNat 32 x.addr
  header : ∀ i w, [addrOf prev, addrOf next, maj, liballocMagic.toNat, x.size, x.reqSize][i]? = some w →
    mem'.word (x.addr + 4 * i) = BitVec.ofNat 32 w
  kept : ∀ z, (z < maj + 16 ∨ maj + 20 ≤ z) → (z < prevCell maj prev ∨ prevCell maj prev + 4 ≤ z) →
    (∀ y, next = some y → z < y.addr ∨ y.addr + 4 ≤ z) → (z < x.addr ∨ x.stop ≤ z) → mem' z = mem z

theorem linkMinor_links (h : LinkSite maj prev next x) :
    Links mem (linkMinor mem maj usage prev next x) maj usage prev next x := by
  have hcell := h.cell_bounds
  have hblock := h.block
  unfold majorHeader at hblock
  rw [linkMinor_eq]
  generalize hc : prevCell maj prev = c at hcell
  generalize hws : [addrOf prev, addrOf next, maj, liballocMagic.toNat, x.size, x.reqSize] = ws
  have hlen : ws.length = 6 := by rw [← hws]; rfl
  -- the memory with the two pointers to `x`
  generalize hm₁ : mem.setWord c (BitVec.ofNat 32 x.addr) = m₁
  generalize hm₂ : (next.elim m₁ fun y => m₁.setWord y.addr (BitVec.ofNat 32 x.addr)) = m₂
  have hc₂ : m₂.word c = BitVec.ofNat 32 x.addr := by
    have hset : m₁.word c = BitVec.ofNat 32 x.addr := by rw [← hm₁, Memory.word_setWord]
    cases next with
    | none => exact hm₂ ▸ hset
    | some y =>
      have hy := h.before y rfl
      unfold minorHeader at hy
      rw [← hm₂]
      exact (Memory.word_setWord_ne (by omega)).trans hset
  have hkept₂ (z : Nat) (h1 : z < c ∨ c + 4 ≤ z) (h2 : ∀ y, next = some y → z < y.addr ∨ y.addr + 4 ≤ z) :
      m₂ z = mem z := by
    have hset : m₁ z = mem z := by rw [← hm₁, Memory.setWord_apply h1]
    cases next with
    | none => exact hm₂ ▸ hset
    | some y =>
      rw [← hm₂]
      exact (Memory.setWord_apply (h2 y rfl)).trans hset
  have hout (z : Nat) (h1 : z < maj + 16 ∨ maj + 20 ≤ z) (h2 : z < x.addr ∨ x.addr + 24 ≤ z) :
      (setWords m₂ x.addr ws).setWord (maj + 16) (BitVec.ofNat 32 usage) z = m₂ z :=
    (Memory.setWord_apply (by omega)).trans (setWords_apply (by omega))
  refine ⟨Memory.word_setWord _ _ _, ?_, ?_, ?_, ?_⟩
  · rw [hc, word_of_bytes fun z h1 h2 => hout z (by omega) (by omega), hc₂]
  · rintro y rfl
    have hy := h.before y rfl
    unfold minorHeader at hy
    rw [word_of_bytes fun z h1 h2 => hout z (by omega) (by omega), ← hm₂]
    exact Memory.word_setWord _ _ _
  · intro i w hw
    rw [hws] at hw
    have hi := (List.getElem?_eq_some_iff.mp hw).1
    rw [Memory.word_setWord_ne (by omega)]
    exact setWords_word hw
  · intro z h1 h2 h3 h4
    rw [hc] at h2
    unfold Minor.stop minorHeader at h4
    rw [hout z h1 (by omega), hkept₂ z h2 h3]

/-- Writes behind the header of `x` do not matter. -/
theorem Links.of_agree {mem₁ mem' : Memory} (hsite : LinkSite maj prev next x)
    (hnext : ∀ y, next = some y → x.stop ≤ y.addr) (h : Links mem mem₁ maj usage prev next x)
    (hmem : ∀ z, z < x.addr + minorHeader ∨ x.stop ≤ z → mem' z = mem₁ z) :
    Links mem mem' maj usage prev next x := by
  have hcell := hsite.cell_bounds
  have hblock := hsite.block
  have hstop : x.stop = x.addr + minorHeader + x.size := rfl
  unfold majorHeader at hblock
  unfold minorHeader at *
  refine ⟨?_, ?_, ?_, ?_, ?_⟩
  · exact (word_of_bytes fun z _ _ => hmem z (by omega)).trans h.usage
  · exact (word_of_bytes fun z _ _ => hmem z (by omega)).trans h.cell
  · intro y hy
    have := hnext y hy
    exact (word_of_bytes fun z _ _ => hmem z (by omega)).trans (h.before y hy)
  · intro i w hw
    have hi := (List.getElem?_eq_some_iff.mp hw).1
    simp only [List.length_cons, List.length_nil] at hi
    exact (word_of_bytes fun z _ _ => hmem z (by omega)).trans (h.header i w hw)
  · intro z h1 h2 h3 h4
    rw [hmem z (by omega), h.kept z h1 h2 h3 h4]

end Link

theorem headWord_addr (ms : List Minor) :
    headWord 0 (ms.map Minor.addr) = BitVec.ofNat 32 (addrOf ms.head?) := by
  cases ms <;> rfl

theorem lastCell_addr (maj : Nat) (ms : List Minor) :
    lastCell 4 (maj + 20) (ms.map Minor.addr) = prevCell maj ms.getLast? := by
  rw [lastCell, List.getLast?_map]
  cases ms.getLast? <;> rfl

theorem getLast?_addr (ms : List Minor) :
    (ms.map Minor.addr).getLast?.getD 0 = addrOf ms.getLast? := by
  rw [List.getLast?_map]
  cases ms.getLast? <;> rfl

theorem align_info {a : Nat} (h : a + 32 ≤ 2 ^ 32) : (align a).2 = (align a).1 - a := by
  have hptr : wrap (a + 16) = a + 16 := wrap_of_lt (by omega)
  simp only [align, hptr]
  split_ifs
  · rw [wrap_of_lt (by omega)]
    omega
  · rw [wrap_of_lt (by omega)]
    omega

theorem Minor.header_le (m : Minor) : m.addr + 24 ≤ m.stop := Nat.le_add_right _ _

section Unlink

variable {mem mem' : Memory} {M : Major} {m : Minor} {k usage : Nat}

/-- What taking out `m` writes. -/
structure Unlinks (mem mem' : Memory) (maj usage : Nat) (prev next : Option Minor) (m : Minor) :
    Prop where
  usage : mem'.word (maj + 16) = BitVec.ofNat 32 usage
  cell : mem'.word (prevCell maj prev) = BitVec.ofNat 32 (addrOf next)
  before : ∀ y, next = some y → mem'.word y.addr = BitVec.ofNat 32 (addrOf prev)
  dead : mem'.word (m.addr + 12) = liballocDead
  kept : ∀ z, (z < maj + 16 ∨ maj + 20 ≤ z) → (z < prevCell maj prev ∨ prevCell maj prev + 4 ≤ z) →
    (∀ y, next = some y → z < y.addr ∨ y.addr + 4 ≤ z) → (z < m.addr + 12 ∨ m.addr + 16 ≤ z) →
    mem' z = mem z

/-- The writes that take the minor at `min` out of its block. -/
def unlinkMinor (mem : Memory) (maj usage : Nat) (prev next : Option Minor) (min : Nat) : Memory :=
  let mem := (mem.setWord (maj + 16) (BitVec.ofNat 32 usage)).setWord (min + 12) liballocDead
  let mem := next.elim mem fun n => mem.setWord n.addr (BitVec.ofNat 32 (addrOf prev))
  mem.setWord (prevCell maj prev) (BitVec.ofNat 32 (addrOf next))

theorem vacateMem_eq (mem : Memory) (M : Major) (k min : Nat) : vacateMem mem M k min =
    unlinkMinor mem M.addr (M.vacated k).usage (M.minors.take k).getLast?
      (M.minors.drop (k + 1)).head? min := by
  unfold vacateMem
  generalize (M.vacated k).usage = usage
  cases (M.minors.take k).getLast? <;> cases (M.minors.drop (k + 1)).head? <;> rfl

theorem unlinkMinor_unlinks {maj : Nat} {prev next : Option Minor} (hsite : LinkSite maj prev next m) :
    Unlinks mem (unlinkMinor mem maj usage prev next m.addr) maj usage prev next m := by
  have hcell := hsite.cell_bounds
  have hblock := hsite.block
  have hbefore (y : Minor) (hy : next = some y) := hsite.before y hy
  unfold majorHeader at hblock
  unfold minorHeader at hbefore
  simp only [unlinkMinor]
  generalize hc : prevCell maj prev = c at hcell
  generalize hm₁ : (mem.setWord (maj + 16) (BitVec.ofNat 32 usage)).setWord (m.addr + 12)
    liballocDead = m₁
  generalize hm₂ : (next.elim m₁ fun n => m₁.setWord n.addr (BitVec.ofNat 32 (addrOf prev))) = m₂
  have hkept₂ (z : Nat) (h : ∀ y, next = some y → z < y.addr ∨ y.addr + 4 ≤ z) : m₂ z = m₁ z := by
    cases next with
    | none => exact hm₂ ▸ rfl
    | some y =>
      rw [← hm₂]
      exact Memory.setWord_apply (h y rfl)
  have hword (a : Nat) (h1 : a + 4 ≤ c ∨ c + 4 ≤ a)
      (h2 : ∀ y, next = some y → a + 4 ≤ y.addr ∨ y.addr + 4 ≤ a) :
      (m₂.setWord c (BitVec.ofNat 32 (addrOf next))).word a = m₁.word a := by
    rw [Memory.word_setWord_ne (by omega)]
    refine word_of_bytes fun z h3 h4 => hkept₂ z ?_
    intro y hy
    have := h2 y hy
    omega
  refine ⟨?_, ?_, ?_, ?_, ?_⟩
  · rw [hword (maj + 16) (by omega) (fun y hy => by have := hbefore y hy; omega), ← hm₁,
      Memory.word_setWord_ne (by omega), Memory.word_setWord]
  · rw [hc]
    exact Memory.word_setWord _ _ _
  · rintro y rfl
    have hy := hbefore y rfl
    rw [Memory.word_setWord_ne (by omega), ← hm₂]
    exact Memory.word_setWord _ _ _
  · rw [hword (m.addr + 12) (by omega) (fun y hy => by have := hbefore y hy; omega), ← hm₁,
      Memory.word_setWord]
  · intro z h1 h2 h3 h4
    rw [hc] at h2
    rw [Memory.setWord_apply h2, hkept₂ z h3, ← hm₁, Memory.setWord_apply (by omega),
      Memory.setWord_apply (by omega)]

end Unlink

end Levos.Liballoc
