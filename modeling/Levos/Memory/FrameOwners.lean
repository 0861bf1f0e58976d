import Levos.Memory.FreePages

namespace Levos.Memory

open Levos.Framework

/-- A page entry: a word of memory that is not one of the bitmap's. -/
def EntryWord (s : Mm) (p : Nat) : Prop :=
  p ≠ 0 ∧ p % 4 = 0 ∧ (p + 4 ≤ s.frames ∨ s.frames + 4 * s.frameWords ≤ p)

/-- From `s` to `s'` the entry `p` becomes `pg` and the bits become `used`. -/
structure EntryChange (s s' : Mm) (p : Nat) (pg : Page) (used : Nat → Bool) : Prop where
  vars : SameVars s s'
  entry : s'.page p = pg
  others : ∀ q, EntryWord s q → q ≠ p → s'.page q = s.page q
  bits : ∀ g, s.inFrames (g / 32) → s'.used g = used g

section Change

variable {s s' s'' : Mm} {p f : Nat} {pg pg' : Page} {used used' : Nat → Bool}

theorem SameVars.entryWord (h : SameVars s s') (hp : EntryWord s p) : EntryWord s' p := by
  unfold EntryWord at *
  rw [h.frames, h.frameWords]
  exact hp

/-- A change after a change of the same entry. -/
theorem EntryChange.trans (h : EntryChange s s' p pg used) (k : EntryChange s' s'' p pg' used') :
    EntryChange s s'' p pg' used' := by
  refine ⟨h.vars.trans k.vars, k.entry, ?_, ?_⟩
  · intro q hq hne
    rw [k.others q (h.vars.entryWord hq) hne, h.others q hq hne]
  · intro g hg
    exact k.bits g (h.vars.inFrames.mpr hg)

theorem EntryChange.of_bits (h : EntryChange s s' p pg used)
    (hbits : ∀ g, s.inFrames (g / 32) → used g = used' g) : EntryChange s s' p pg used' :=
  ⟨h.vars, h.entry, h.others, fun g hg => (h.bits g hg).trans (hbits g hg)⟩

/-- The entry is written. -/
theorem change_setPage (hp : EntryWord s p) (pg : Page) :
    EntryChange s (s.setPage p pg) p pg s.used := by
  obtain ⟨-, h4, hwhere⟩ := hp
  have hbits : Memory.Agree s.frames (s.frames + 4 * s.frameWords) s.mem (s.mem.setWord p pg.toWord) :=
    Memory.agree_setWord (by omega)
  refine ⟨rfl, page_setPage s p pg, ?_, fun g hg => used_write hbits hg⟩
  rintro q ⟨-, hq4, -⟩ hne
  exact congrArg Page.ofWord (Memory.word_setWord_ne (by omega))

/-- A change after which the entry is written. -/
theorem EntryChange.write (h : EntryChange s s' p pg used) (hp : EntryWord s p) (pg' : Page) :
    EntryChange s (s'.setPage p pg') p pg' used :=
  (h.trans (change_setPage (h.vars.entryWord hp) pg')).of_bits h.bits

/-- A word of the bitmap is written: the entries stay as they are. -/
theorem page_setWord (hf : s.inFrames (f / 32)) (w : BitVec 32) {q : Nat} (hq : EntryWord s q) :
    ({ s with mem := s.mem.setWord (s.frames + 4 * (f / 32)) w } : Mm).page q = s.page q := by
  obtain ⟨-, -, hwhere⟩ := hq
  unfold Mm.inFrames at hf
  exact congrArg Page.ofWord (Memory.word_setWord_ne (by omega))

theorem change_setFrame {a : Nat} (hp : EntryWord s p) (h : setFrame s a = .ok s') :
    s.inFrames (a / 0x1000 / 32) ∧
      EntryChange s s' p (s.page p) fun g => decide (g = a / 0x1000) || s.used g := by
  simp only [setFrame] at h
  split_ifs at h with hin
  cases h
  exact ⟨hin, rfl, page_setWord hin _ hp, fun q hq _ => page_setWord hin _ hq,
    fun g _ => Memory.bit_setBit s.mem s.frames _ g⟩

theorem change_clearFrame {a : Nat} (hp : EntryWord s p) (h : clearFrame s a = .ok s') :
    EntryChange s s' p (s.page p) fun g => !decide (g = a / 0x1000) && s.used g := by
  simp only [clearFrame] at h
  split_ifs at h with hin
  cases h
  exact ⟨rfl, page_setWord hin _ hp, fun q hq _ => page_setWord hin _ hq,
    fun g _ => Memory.bit_clearBit s.mem s.frames _ g⟩

end Change

/-- The entry that `alloc_frame` leaves, with the frame it holds. -/
def allocatedPage (pg : Page) (k w : Bool) : Page := { pg with present := true, rw := w, user := !k }

/-- What a call of `alloc_frame` that returns has done: it sets the flags of an entry that holds a frame,
and draws a free one for an entry that holds none. -/
def FrameDrawn (s s' : Mm) (p : Nat) (k w : Bool) : Prop :=
  ((s.page p).frame ≠ 0 ∧ EntryChange s s' p (allocatedPage (s.page p) k w) s.used) ∨
    ((s.page p).frame = 0 ∧ ∃ f, f ≠ 0 ∧ f < 2 ^ 20 ∧ s.inFrames (f / 32) ∧ s.used f = false ∧
      EntryChange s s' p (allocatedPage { s.page p with frame := BitVec.ofNat 20 f } k w)
        fun g => decide (g = f) || s.used g)

section Drawn

variable {s s' : Mm} {p : Nat} {k w : Bool}

theorem frame_ne_zero {f : Nat} (h0 : f ≠ 0) (hlt : f < 2 ^ 20) : BitVec.ofNat 20 f ≠ 0 := by
  intro h
  have hnat := congrArg BitVec.toNat h
  rw [BitVec.toNat_ofNat, Nat.mod_eq_of_lt hlt] at hnat
  exact h0 hnat

/-- Where frame 0 is reserved and no bit behind the address space is set, the first free frame is one of
the address space or the one behind it. -/
theorem firstFrame_bounds {f : Nat} (h0 : s.inFrames (0 / 32) → s.used 0 = true)
    (hend : s.inFrames (2 ^ 20 / 32) → s.used (2 ^ 20) = false) (hfirst : firstFrame s = .ok f) :
    f ≠ 0 ∧ f ≤ 2 ^ 20 := by
  obtain ⟨-, hin, hfree, hbefore⟩ := firstFrame_least hfirst
  constructor
  · intro hf
    rw [hf] at hfree hin
    rw [h0 hin] at hfree
    cases hfree
  · by_contra hlt
    have hin' : s.inFrames (2 ^ 20 / 32) := by
      unfold Mm.inFrames at hin ⊢
      omega
    have hlast := hbefore (2 ^ 20) (by omega)
    rw [hend hin'] at hlast
    cases hlast

/-- The loop of `alloc_frame`, where frame 0 is reserved and no bit behind the address space is set. -/
theorem allocFrameLoop_drawn (fuel : Nat) (hp : EntryWord s p)
    (h0 : s.inFrames (0 / 32) → s.used 0 = true)
    (hend : s.inFrames (2 ^ 20 / 32) → s.used (2 ^ 20) = false)
    (h : allocFrameLoop p k w fuel s = .ok s') : FrameDrawn s s' p k w := by
  induction fuel generalizing s with
  | zero => cases h
  | succ fuel ih =>
    rw [allocFrameLoop] at h
    split_ifs at h with hz
    · cases h
      exact .inl ⟨hz, change_setPage hp _⟩
    · have hz' : (s.page p).frame = 0 := by simpa using hz
      obtain ⟨f, hfirst, h⟩ := bind_eq_ok.mp h
      obtain ⟨s₁, hset, h⟩ := bind_eq_ok.mp h
      obtain ⟨-, hin, hfree, hbefore⟩ := firstFrame_least hfirst
      obtain ⟨hf0, hfle⟩ := firstFrame_bounds h0 hend hfirst
      have haddr : wrap (f * 0x1000) / 0x1000 = f % 2 ^ 20 := by
        unfold wrap
        omega
      obtain ⟨-, hmarked⟩ := change_setFrame hp hset
      rw [haddr] at hmarked
      have hchange := hmarked.write hp { s₁.page p with frame := BitVec.ofNat 20 f }
      rw [hmarked.entry] at hchange h
      by_cases hlt : f < 2 ^ 20
      · rw [Nat.mod_eq_of_lt hlt] at hchange
        cases fuel with
        | zero => cases h
        | succ fuel =>
          have hheld : ((s₁.setPage p { s.page p with frame := BitVec.ofNat 20 f }).page p).frame ≠ 0 := by
            rw [page_setPage]
            exact frame_ne_zero hf0 hlt
          rw [allocFrameLoop, if_pos hheld, page_setPage] at h
          cases h
          exact .inr ⟨hz', f, hf0, hlt, hin, hfree, hchange.write hp _⟩
      · -- the address wraps to frame 0, the entry still holds none, and the next call goes on the same way
        have hlast : f = 2 ^ 20 := by omega
        have hzero : f % 2 ^ 20 = 0 := by omega
        rw [hzero] at hchange
        have hbits (g : Nat) (hg : s.inFrames (g / 32)) := hchange.bits g hg
        have hnext := ih (hchange.vars.entryWord hp) (fun h => by
          rw [hbits 0 (hchange.vars.inFrames.mp h)]
          rfl) (fun h => by
          rw [hbits _ (hchange.vars.inFrames.mp h), hend (hchange.vars.inFrames.mp h)]
          rfl) h
        rw [FrameDrawn, page_setPage] at hnext
        rcases hnext with ⟨hne, -⟩ | ⟨-, f', hf0', hlt', hin', hfree', -⟩
        · rw [hlast] at hne
          exact absurd rfl hne
        · rw [hbits f' (hchange.vars.inFrames.mp hin'), hbefore f' (by omega), Bool.or_true] at hfree'
          cases hfree'

theorem allocFrame_drawn (hp : EntryWord s p) (h0 : s.inFrames (0 / 32) → s.used 0 = true)
    (hend : s.inFrames (2 ^ 20 / 32) → s.used (2 ^ 20) = false) (h : allocFrame s p k w = .ok s') :
    FrameDrawn s s' p k w := by
  rw [allocFrame, if_neg hp.1] at h
  exact allocFrameLoop_drawn _ hp h0 hend h

/-- A call of `free_frame` that returns clears the bit and the frame of the entry, and leaves its flags. -/
theorem freeFrame_change (hp : EntryWord s p) (h : freeFrame s p = .ok s') :
    (s.page p).frame ≠ 0 ∧ EntryChange s s' p { s.page p with frame := 0 }
      fun g => !decide (g = (s.page p).frame.toNat) && s.used g := by
  rw [freeFrame] at h
  split_ifs at h with hz
  obtain ⟨s₁, hclear, hret⟩ := bind_eq_ok.mp h
  cases hret
  have hmarked := change_clearFrame hp hclear
  have haddr : wrap ((s.page p).frame.toNat * 0x1000) / 0x1000 = (s.page p).frame.toNat := by
    have hlt := (s.page p).frame.isLt
    unfold wrap
    omega
  rw [haddr] at hmarked
  refine ⟨hz, ?_⟩
  rw [hmarked.entry]
  exact hmarked.write hp _

end Drawn

/-- A call on a page entry. -/
inductive EntryCall
  | alloc (p : Nat) (k w : Bool)
  | free (p : Nat)

def EntryCall.run (s : Mm) : EntryCall → Except Fault Mm
  | .alloc p k w => allocFrame s p k w
  | .free p => freeFrame s p

def EntryCall.entry : EntryCall → Nat
  | .alloc p _ _ => p
  | .free p => p

/-- One call, on one of the entries `ps`. -/
def EntryCalls (ps : List Nat) (s : Mm) (c : EntryCall) (s' : Mm) : Prop := c.entry ∈ ps ∧ c.run s = .ok s'

/-- The entries are empty, and only frame 0 is marked. -/
structure Reserved (ps : List Nat) (s : Mm) : Prop where
  entries : ∀ p ∈ ps, EntryWord s p
  empty : ∀ p ∈ ps, s.page p = Page.ofWord 0
  marked : ∀ g, s.inFrames (g / 32) → (s.used g = true ↔ g = 0)

/-- What the bitmap, the frame fields and the present bits say of the entries `ps` after some calls: every
present entry has a frame of its own that is marked, nothing else but frame 0 is marked, and an entry
that was freed last is not present. -/
structure OwnersRight (ps : List Nat) (calls : List EntryCall) (s : Mm) : Prop where
  present : ∀ p ∈ ps, (s.page p).present = true →
    (s.page p).frame ≠ 0 ∧ s.inFrames ((s.page p).frame.toNat / 32) ∧ s.used (s.page p).frame.toNat = true
  apart : ∀ p ∈ ps, ∀ q ∈ ps, (s.page p).present = true → (s.page q).present = true →
    (s.page p).frame = (s.page q).frame → p = q
  marked : ∀ g, s.inFrames (g / 32) →
    (s.used g = true ↔ g = 0 ∨ ∃ p ∈ ps, (s.page p).frame.toNat = g)
  freed : ∀ before p, calls = before ++ [.free p] → (s.page p).present = false

/-- The bitmap and the frame fields agree. -/
structure FramesOwned (ps : List Nat) (s : Mm) : Prop where
  entries : ∀ p ∈ ps, EntryWord s p
  marked : ∀ g, s.inFrames (g / 32) →
    (s.used g = true ↔ g = 0 ∨ ∃ p ∈ ps, (s.page p).frame.toNat = g)
  held : ∀ p ∈ ps, (s.page p).frame ≠ 0 →
    (s.page p).present = true ∧ s.inFrames ((s.page p).frame.toNat / 32)
  apart : ∀ p ∈ ps, ∀ q ∈ ps, (s.page p).frame ≠ 0 → (s.page p).frame = (s.page q).frame → p = q

section Owners

variable {s s' : Mm} {ps : List Nat} {c : EntryCall} {calls : List EntryCall} {p : Nat}

theorem Reserved.owned (h : Reserved ps s) : FramesOwned ps s := by
  have hzero (p : Nat) (hp : p ∈ ps) : (s.page p).frame = 0 := by
    rw [h.empty p hp]
    rfl
  refine ⟨h.entries, ?_, fun p hp hne => absurd (hzero p hp) hne,
    fun p hp q _ hne => absurd (hzero p hp) hne⟩
  intro g hg
  rw [h.marked g hg]
  constructor
  · exact Or.inl
  · rintro (h0 | ⟨p, hp, hframe⟩)
    · exact h0
    · rw [hzero p hp] at hframe
      exact hframe.symm

theorem FramesOwned.zero (h : FramesOwned ps s) (hin : s.inFrames (0 / 32)) : s.used 0 = true :=
  (h.marked 0 hin).mpr (.inl rfl)

/-- No frame behind the address space is marked. -/
theorem FramesOwned.end (h : FramesOwned ps s) (hin : s.inFrames (2 ^ 20 / 32)) :
    s.used (2 ^ 20) = false := by
  by_contra hused
  rcases (h.marked _ hin).mp (by simpa using hused) with h0 | ⟨p, -, hframe⟩
  · omega
  · have hlt := (s.page p).frame.isLt
    omega

/-- One of the entries is asked for first. -/
theorem exists_entry_iff {P : Nat → Prop} (hp : p ∈ ps) :
    (∃ q ∈ ps, P q) ↔ P p ∨ ∃ q ∈ ps, q ≠ p ∧ P q := by
  constructor
  · rintro ⟨q, hq, h⟩
    by_cases hqp : q = p
    · exact .inl (hqp ▸ h)
    · exact .inr ⟨q, hq, hqp, h⟩
  · rintro (h | ⟨q, hq, -, h⟩)
    · exact ⟨p, hp, h⟩
    · exact ⟨q, hq, h⟩

theorem FramesOwned.marked_iff (h : FramesOwned ps s) (hp : p ∈ ps) {g : Nat} (hg : s.inFrames (g / 32)) :
    s.used g = true ↔ g = 0 ∨ (s.page p).frame.toNat = g ∨
      ∃ q ∈ ps, q ≠ p ∧ (s.page q).frame.toNat = g := by
  rw [h.marked g hg, exists_entry_iff hp]

/-- A change of one entry that gives it a frame nothing else holds, or takes its frame away. -/
theorem FramesOwned.change {pg : Page} {used : Nat → Bool} (h : FramesOwned ps s) (hp : p ∈ ps)
    (hchange : EntryChange s s' p pg used)
    (hused : ∀ g, s.inFrames (g / 32) → (used g = true ↔ g = 0 ∨ pg.frame.toNat = g ∨
      ∃ q ∈ ps, q ≠ p ∧ (s.page q).frame.toNat = g))
    (hheld : pg.frame ≠ 0 → pg.present = true ∧ s.inFrames (pg.frame.toNat / 32))
    (hapart : pg.frame ≠ 0 → ∀ q ∈ ps, q ≠ p → (s.page q).frame ≠ pg.frame) : FramesOwned ps s' := by
  obtain ⟨hvars, hentry, hothers, hbits⟩ := hchange
  have hkept (q : Nat) (hq : q ∈ ps) (hne : q ≠ p) : s'.page q = s.page q := hothers q (h.entries q hq) hne
  refine ⟨fun q hq => hvars.entryWord (h.entries q hq), ?_, ?_, ?_⟩
  · intro g hg
    have hsplit : (∃ q ∈ ps, (s'.page q).frame.toNat = g) ↔ (s'.page p).frame.toNat = g ∨
        ∃ q ∈ ps, q ≠ p ∧ (s'.page q).frame.toNat = g := exists_entry_iff hp
    rw [hbits g (hvars.inFrames.mp hg), hused g (hvars.inFrames.mp hg), hsplit, hentry]
    have hsame (q : Nat) : q ∈ ps ∧ q ≠ p ∧ (s'.page q).frame.toNat = g ↔
        q ∈ ps ∧ q ≠ p ∧ (s.page q).frame.toNat = g :=
      and_congr_right fun hq => and_congr_right fun hne => by rw [hkept q hq hne]
    rw [exists_congr hsame]
  · intro q hq hne
    rw [hvars.inFrames]
    by_cases hqp : q = p
    · rw [hqp, hentry] at hne ⊢
      exact hheld hne
    · rw [hkept q hq hqp] at hne ⊢
      exact h.held q hq hne
  · intro q hq r hr hne heq
    by_cases hqp : q = p
    · by_cases hrp : r = p
      · rw [hqp, hrp]
      · rw [hqp, hentry] at hne heq
        rw [hkept r hr hrp] at heq
        exact absurd heq.symm (hapart hne r hr hrp)
    · rw [hkept q hq hqp] at hne heq
      by_cases hrp : r = p
      · rw [hrp, hentry] at heq
        rw [heq] at hne
        exact absurd heq (hapart hne q hq hqp)
      · rw [hkept r hr hrp] at heq
        exact h.apart q hq r hr hne heq

/-- Where the entry holds a frame only its flags change. -/
theorem FramesOwned.flags {k w : Bool} (h : FramesOwned ps s) (hp : p ∈ ps) (hne : (s.page p).frame ≠ 0)
    (hchange : EntryChange s s' p (allocatedPage (s.page p) k w) s.used) : FramesOwned ps s' := by
  apply h.change hp hchange
  · intro g hg
    exact h.marked_iff hp hg
  · intro _
    exact ⟨rfl, (h.held p hp hne).2⟩
  · intro _ q hq hqp heq
    exact hqp (h.apart p hp q hq hne heq.symm).symm

/-- Where it holds none it gets a frame that nothing held. -/
theorem FramesOwned.draw {k w : Bool} {f : Nat} (h : FramesOwned ps s) (hp : p ∈ ps)
    (hz : (s.page p).frame = 0) (hlt : f < 2 ^ 20) (hin : s.inFrames (f / 32)) (hfree : s.used f = false)
    (hchange : EntryChange s s' p (allocatedPage { s.page p with frame := BitVec.ofNat 20 f } k w)
      fun g => decide (g = f) || s.used g) : FramesOwned ps s' := by
  have hframe : (BitVec.ofNat 20 f).toNat = f := by rw [BitVec.toNat_ofNat, Nat.mod_eq_of_lt hlt]
  apply h.change hp hchange
  · intro g hg
    have hzero : (0 : BitVec 20).toNat = g ↔ g = 0 := eq_comm
    change _ ↔ g = 0 ∨ (BitVec.ofNat 20 f).toNat = g ∨ _
    rw [Bool.or_eq_true, decide_eq_true_iff, h.marked_iff hp hg, hz, hzero, hframe, or_self_left,
      or_left_comm, eq_comm (a := f)]
  · intro _
    refine ⟨rfl, ?_⟩
    change s.inFrames ((BitVec.ofNat 20 f).toNat / 32)
    rw [hframe]
    exact hin
  · intro _ q hq _ heq
    have hqf : (s.page q).frame.toNat = f := (congrArg BitVec.toNat heq).trans hframe
    rw [(h.marked f hin).mpr (.inr ⟨q, hq, hqf⟩)] at hfree
    cases hfree

/-- `free_frame` takes the frame of the entry away, and its bit. -/
theorem FramesOwned.free (h : FramesOwned ps s) (hp : p ∈ ps) (hne : (s.page p).frame ≠ 0)
    (hchange : EntryChange s s' p { s.page p with frame := 0 }
      fun g => !decide (g = (s.page p).frame.toNat) && s.used g) : FramesOwned ps s' := by
  apply h.change hp hchange _ (fun h0 => absurd rfl h0) (fun h0 => absurd rfl h0)
  intro g hg
  have hzero : (0 : BitVec 20).toNat = g ↔ g = 0 := eq_comm
  change _ ↔ g = 0 ∨ (0 : BitVec 20).toNat = g ∨ _
  rw [Bool.and_eq_true, Bool.not_eq_true', decide_eq_false_iff_not, h.marked_iff hp hg, hzero,
    or_self_left]
  constructor
  · rintro ⟨hother, h0 | hown | hothers⟩
    · exact .inl h0
    · exact absurd hown.symm hother
    · exact .inr hothers
  · rintro (h0 | ⟨q, hq, hqp, hqf⟩)
    · refine ⟨?_, .inl h0⟩
      intro hg
      exact hne (BitVec.eq_of_toNat_eq (hg.symm.trans h0))
    · refine ⟨?_, .inr (.inr ⟨q, hq, hqp, hqf⟩)⟩
      intro hg
      have hsame : (s.page p).frame = (s.page q).frame := BitVec.eq_of_toNat_eq (hg.symm.trans hqf.symm)
      exact hqp (h.apart p hp q hq hne hsame).symm

/-- `alloc_frame` keeps the bitmap and the frame fields in agreement, and so does `free_frame`. -/
theorem FramesOwned.call (h : FramesOwned ps s) (hcall : EntryCalls ps s c s') : FramesOwned ps s' := by
  obtain ⟨hp, hrun⟩ := hcall
  cases c with
  | alloc p k w =>
    cases allocFrame_drawn (h.entries p hp) h.zero h.end hrun with
    | inl hheld => exact h.flags hp hheld.1 hheld.2
    | inr hempty =>
      obtain ⟨hz, f, -, hlt, hin, hfree, hchange⟩ := hempty
      exact h.draw hp hz hlt hin hfree hchange
  | free p =>
    obtain ⟨hne, hchange⟩ := freeFrame_change (h.entries p hp) hrun
    exact h.free hp hne hchange

/-- In every run the bitmap and the frame fields agree. -/
theorem FramesOwned.of_run (hstart : Reserved ps s) (hrun : Run (EntryCalls ps) s calls s') :
    FramesOwned ps s' :=
  hrun.invariant (FramesOwned ps) (fun _ _ _ h hcall => h.call hcall) hstart.owned

/-- After `alloc_frame` the entry holds a frame, and the other entries are as they were. -/
theorem alloc_holds {k w : Bool} (h : FramesOwned ps s) (hp : p ∈ ps)
    (hrun : allocFrame s p k w = .ok s') :
    (s'.page p).frame ≠ 0 ∧ ∀ q ∈ ps, q ≠ p → s'.page q = s.page q := by
  rcases allocFrame_drawn (h.entries p hp) h.zero h.end hrun with
    ⟨hne, hchange⟩ | ⟨-, f, hf0, hlt, -, -, hchange⟩
  · refine ⟨?_, fun q hq => hchange.others q (h.entries q hq)⟩
    rw [hchange.entry]
    exact hne
  · refine ⟨?_, fun q hq => hchange.others q (h.entries q hq)⟩
    rw [hchange.entry]
    exact frame_ne_zero hf0 hlt

/-- As long as nothing is freed, present entries hold frames. -/
theorem present_of_run (hstart : Reserved ps s) (hrun : Run (EntryCalls ps) s calls s')
    (hfree : ∀ p, .free p ∉ calls) : ∀ p ∈ ps, (s'.page p).present = true → (s'.page p).frame ≠ 0 := by
  have hall := hrun.historyInvariant
    (fun calls t => FramesOwned ps t ∧ ((∀ p, .free p ∉ calls) →
      ∀ p ∈ ps, (t.page p).present = true → (t.page p).frame ≠ 0))
    (fun before t c t' ht hcall => by
      refine ⟨ht.1.call hcall, ?_⟩
      intro hnone q hq hpresent
      cases c with
      | free p =>
        exact absurd (List.mem_append_right before (List.mem_singleton.mpr rfl)) (hnone p)
      | alloc p k w =>
        obtain ⟨hheld, hothers⟩ := alloc_holds ht.1 hcall.1 hcall.2
        by_cases hqp : q = p
        · rw [hqp]
          exact hheld
        · rw [hothers q hq hqp] at hpresent ⊢
          exact ht.2 (fun r hr => hnone r (List.mem_append_left _ hr)) q hq hpresent)
    [] ⟨hstart.owned, fun _ p hp hpresent => by
      rw [hstart.empty p hp] at hpresent
      cases hpresent⟩
  exact hall.2 hfree

end Owners

/-- In a run from empty entries the three records of who owns a frame agree at every point exactly when
no frame is freed. -/
theorem owners_right_iff {ps : List Nat} {s s' : Mm} {calls : List EntryCall} (hstart : Reserved ps s)
    (hrun : Run (EntryCalls ps) s calls s') :
    AtEveryPoint (EntryCalls ps) s calls (OwnersRight ps) ↔ ∀ p, .free p ∉ calls := by
  constructor
  · intro hright p hp
    obtain ⟨before, t, t', after, hcut, hbefore, hcall, -⟩ := hrun.fired hp
    have howned := FramesOwned.of_run hstart hbefore
    obtain ⟨hne, hchange⟩ := freeFrame_change (howned.entries p hcall.1) hcall.2
    have hpresent : (t'.page p).present = true := by
      rw [hchange.entry]
      exact (howned.held p hcall.1 hne).1
    have hafter := hright (before ++ [.free p]) after t' (by simp [hcut]) (hbefore.snoc hcall)
    rw [hafter.freed before p rfl] at hpresent
    cases hpresent
  · intro hnone before after t hcut hbefore
    have hnone' : ∀ p, .free p ∉ before := by
      intro p hp
      exact hnone p (by simp [hcut, hp])
    have howned := FramesOwned.of_run hstart hbefore
    have hholds := present_of_run hstart hbefore hnone'
    refine ⟨?_, ?_, howned.marked, ?_⟩
    · intro p hp hpresent
      have hin := (howned.held p hp (hholds p hp hpresent)).2
      exact ⟨hholds p hp hpresent, hin, (howned.marked _ hin).mpr (.inr ⟨p, hp, rfl⟩)⟩
    · intro p hp q hq hpresent _
      exact howned.apart p hp q hq (hholds p hp hpresent)
    · intro first p hsplit
      exact absurd (by simp [hsplit]) (hnone' p)

/-- Two entries behind the directory. -/
def twoEntries : List Nat := [0x104000, 0x104004]

theorem reservedMemory_reserved : Reserved twoEntries reservedMemory := by
  have hwords : reservedMemory.frameWords = 4 := rfl
  refine ⟨?_, ?_, ?_⟩
  · intro p hp
    have heach : p = 0x104000 ∨ p = 0x104004 := by simpa [twoEntries] using hp
    have hbase : reservedMemory.frames = 0x100000 := rfl
    unfold EntryWord
    omega
  · decide
  · intro g hg
    have hlt : g < 128 := by
      unfold Mm.inFrames at hg
      omega
    have hall : ∀ g < 128, (reservedMemory.used g = true ↔ g = 0) := by decide +kernel
    exact hall g hlt

/-- An entry that is given a frame and freed stays present. -/
theorem reservedMemory_freed :
    ∃ s₁ s₂, allocFrame reservedMemory 0x104000 true false = .ok s₁ ∧ freeFrame s₁ 0x104000 = .ok s₂ ∧
      (s₂.page 0x104000).present = true := by
  have hobs : (do
        let s ← allocFrame reservedMemory 0x104000 true false
        let s ← freeFrame s 0x104000
        return (s.page 0x104000).present) = .ok true := by decide +kernel
  obtain ⟨s₁, halloc, hobs⟩ := bind_eq_ok.mp hobs
  obtain ⟨s₂, hfree, hret⟩ := bind_eq_ok.mp hobs
  exact ⟨s₁, s₂, halloc, hfree, Except.ok.inj hret⟩

theorem freed_entry_present :
    ∃ s, Reserved twoEntries reservedMemory ∧
      Run (EntryCalls twoEntries) reservedMemory [.alloc 0x104000 true false, .free 0x104000] s ∧
      ¬AtEveryPoint (EntryCalls twoEntries) reservedMemory [.alloc 0x104000 true false, .free 0x104000]
        (OwnersRight twoEntries) := by
  obtain ⟨s₁, s₂, halloc, hfree, hpresent⟩ := reservedMemory_freed
  have hrun : Run (EntryCalls twoEntries) reservedMemory [.alloc 0x104000 true false, .free 0x104000] s₂ :=
    .cons ⟨by decide, halloc⟩ (.single ⟨by decide, hfree⟩)
  refine ⟨s₂, reservedMemory_reserved, hrun, ?_⟩
  intro hright
  have hafter := (hright _ [] s₂ rfl hrun).freed [.alloc 0x104000 true false] 0x104000 rfl
  rw [hafter] at hpresent
  cases hpresent

/-- Both entries are given frames. -/
theorem both_entries_owned :
    ∃ s, Run (EntryCalls twoEntries) reservedMemory
        [.alloc 0x104000 true false, .alloc 0x104004 true false] s ∧
      AtEveryPoint (EntryCalls twoEntries) reservedMemory
        [.alloc 0x104000 true false, .alloc 0x104004 true false] (OwnersRight twoEntries) := by
  have hobs : (do
        let s ← allocFrame reservedMemory 0x104000 true false
        let s ← allocFrame s 0x104004 true false
        return s.plp) = .ok reservedMemory.plp := by decide +kernel
  obtain ⟨s₁, hfirst, hobs⟩ := bind_eq_ok.mp hobs
  obtain ⟨s₂, hsecond, -⟩ := bind_eq_ok.mp hobs
  have hrun : Run (EntryCalls twoEntries) reservedMemory
      [.alloc 0x104000 true false, .alloc 0x104004 true false] s₂ :=
    .cons ⟨by decide, hfirst⟩ (.single ⟨by decide, hsecond⟩)
  exact ⟨s₂, hrun, (owners_right_iff reservedMemory_reserved hrun).mpr (by simp)⟩

end Levos.Memory
