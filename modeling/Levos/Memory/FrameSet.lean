import Levos.Memory.Frame
import Mathlib.Data.Set.Insert

namespace Levos.Memory

open Levos.Framework

/-- `INDEX_BIT`, of an `int`. -/
def indexBit (x : BitVec 32) : BitVec 32 := x.sdiv 32

/-- `OFFSET_BIT`, of an `int`. -/
def offsetBit (x : BitVec 32) : BitVec 32 := x.srem 32

/-- `frames[i]` becomes what `u` makes of it. -/
def Mm.updateFrames (s : Mm) (i : BitVec 32) (u : BitVec 32 → BitVec 32) : Except Fault Mm :=
  if 0 ≤ i.toInt ∧ s.inFrames i.toInt.toNat then
    .ok { s with mem := s.mem.updateWord s.frames i.toInt.toNat u }
  else .error .outOfBounds

/-- `1 << o`. -/
def maskOf (f : BitVec 32) : BitVec 32 := 1#32 <<< offsetBit f

/-- `set_frame`, with its `int`s. -/
def setFrameInt (s : Mm) (a : BitVec 32) : Except Fault Mm :=
  let f := a / 0x1000
  s.updateFrames (indexBit f) fun w => w ||| maskOf f

/-- `clear_frame`. -/
def clearFrameInt (s : Mm) (a : BitVec 32) : Except Fault Mm :=
  let f := a / 0x1000
  s.updateFrames (indexBit f) fun w => w &&& ~~~maskOf f

/-- `test_frame`, which answers the bit where it stands in its word. -/
def testFrameInt (s : Mm) (a : BitVec 32) : Except Fault (BitVec 32) :=
  let f := a / 0x1000
  let i := indexBit f
  if 0 ≤ i.toInt ∧ s.inFrames i.toInt.toNat then
    .ok (s.mem.word (s.frames + 4 * i.toInt.toNat) &&& maskOf f)
  else .error .outOfBounds

inductive FrameCall
  | set
  | clear

def FrameCall.run (s : Mm) (a : BitVec 32) : FrameCall → Except Fault Mm
  | .set => setFrameInt s a
  | .clear => clearFrameInt s a

/-- The number of the frame that an address lies in. -/
def frameOf (a : BitVec 32) : Nat := a.toNat / 0x1000

/-- What a call makes of a set of frame numbers. -/
def FrameCall.apply (a : BitVec 32) : FrameCall → Set Nat → Set Nat
  | .set, F => insert (frameOf a) F
  | .clear, F => F \ {frameOf a}

/-- The array has a bit for every frame. -/
def Covers (s : Mm) : Prop := ∀ f < s.nframes, s.inFrames (f / 32)

/-- An address below `nframes * 0x1000`. -/
def Mm.Managed (s : Mm) (a : BitVec 32) : Prop := a.toNat < s.nframes * 0x1000

/-- `test_frame` answers a number other than 0. -/
def Tests (s : Mm) (a : BitVec 32) : Prop := ∃ w, testFrameInt s a = .ok w ∧ w ≠ 0

/-- The frames that are marked. -/
def marked (s : Mm) : Set Nat := {f | f < s.nframes ∧ s.used f = true}

section Words

variable {s : Mm} {a b : BitVec 32}

theorem frameOf_lt (a : BitVec 32) : frameOf a < 2 ^ 20 := by
  have ha := a.isLt
  rw [frameOf]
  omega

theorem toNat_frame (a : BitVec 32) : (a / 0x1000).toNat = frameOf a := by
  rw [BitVec.toNat_udiv]
  rfl

/-- Frame numbers are no negative `int`s. -/
theorem msb_frame (a : BitVec 32) : (a / 0x1000).msb = false := by
  have hlt := frameOf_lt a
  rw [BitVec.msb_eq_decide, decide_eq_false_iff_not, toNat_frame]
  omega

theorem toNat_indexBit (a : BitVec 32) : (indexBit (a / 0x1000)).toNat = frameOf a / 32 := by
  have h32 : (32 : BitVec 32).msb = false := rfl
  rw [indexBit, BitVec.sdiv_eq, msb_frame, h32]
  exact (BitVec.toNat_udiv ..).trans (by rw [toNat_frame]; rfl)

theorem toNat_offsetBit (a : BitVec 32) : (offsetBit (a / 0x1000)).toNat = frameOf a % 32 := by
  have h32 : (32 : BitVec 32).msb = false := rfl
  rw [offsetBit, BitVec.srem_eq, msb_frame, h32]
  exact (BitVec.toNat_umod ..).trans (by rw [toNat_frame]; rfl)

theorem toInt_indexBit (a : BitVec 32) : (indexBit (a / 0x1000)).toInt = (frameOf a / 32 : Nat) := by
  have hlt := frameOf_lt a
  have hnat := toNat_indexBit a
  rw [BitVec.toInt_eq_toNat_of_lt (by omega), hnat]

theorem maskOf_frame (a : BitVec 32) : maskOf (a / 0x1000) = 1#32 <<< (frameOf a % 32) := by
  rw [maskOf, BitVec.shiftLeft_eq', toNat_offsetBit]

theorem updateFrames_frame (u : BitVec 32 → BitVec 32) : s.updateFrames (indexBit (a / 0x1000)) u =
    if s.inFrames (frameOf a / 32) then .ok { s with mem := s.mem.updateWord s.frames (frameOf a / 32) u }
    else .error .outOfBounds := by
  rw [Mm.updateFrames, toInt_indexBit, Int.toNat_natCast]
  by_cases hin : s.inFrames (frameOf a / 32)
  · rw [if_pos ⟨Int.natCast_nonneg _, hin⟩, if_pos hin]
  · rw [if_neg (fun h => hin h.2), if_neg hin]

/-- With their `int`s the three functions do what they do on numbers. -/
theorem setFrameInt_eq (s : Mm) (a : BitVec 32) : setFrameInt s a = setFrame s a.toNat := by
  rw [setFrameInt, updateFrames_frame, maskOf_frame]
  rfl

theorem clearFrameInt_eq (s : Mm) (a : BitVec 32) : clearFrameInt s a = clearFrame s a.toNat := by
  rw [clearFrameInt, updateFrames_frame, maskOf_frame]
  rfl

theorem testFrameInt_frame : testFrameInt s a = if s.inFrames (frameOf a / 32) then
    .ok (s.mem.word (s.frames + 4 * (frameOf a / 32)) &&& 1#32 <<< (frameOf a % 32))
    else .error .outOfBounds := by
  rw [testFrameInt]
  simp only [toInt_indexBit, Int.toNat_natCast, maskOf_frame]
  by_cases hin : s.inFrames (frameOf a / 32)
  · rw [if_pos ⟨Int.natCast_nonneg _, hin⟩, if_pos hin]
  · rw [if_neg (fun h => hin h.2), if_neg hin]

/-- One bit of a word, the sign bit too, is other than 0 where it stands exactly when it is set. -/
theorem and_mask_ne_zero (w : BitVec 32) {o : Nat} (ho : o < 32) :
    w &&& 1#32 <<< o ≠ 0 ↔ w.getLsbD o = true := by
  have hbit (j : Nat) (hj : j < 32) : (w &&& 1#32 <<< o).getLsbD j = (w.getLsbD j && decide (j = o)) := by
    rw [BitVec.getLsbD_and, Memory.getLsbD_one_shiftLeft o j hj]
  constructor
  · intro hne
    by_contra hclear
    apply hne
    apply BitVec.eq_of_getLsbD_eq
    intro j hj
    rw [hbit j hj]
    by_cases hjo : j = o
    · rw [hjo]
      simpa using hclear
    · simp [hjo]
  · intro hset hzero
    have hone := hbit o ho
    rw [hzero, hset] at hone
    simp at hone

theorem testFrameInt_eq (s : Mm) (a : BitVec 32) :
    testFrame s a.toNat = (testFrameInt s a).map fun w => decide (w ≠ 0) := by
  rw [testFrameInt_frame]
  have hframe : a.toNat / 0x1000 = frameOf a := rfl
  by_cases hin : s.inFrames (frameOf a / 32)
  · rw [testFrame, hframe, if_pos hin, if_pos hin]
    simp only [Except.map, and_mask_ne_zero _ (Nat.mod_lt _ (by decide : 32 > 0))]
    simp [Mm.used, Memory.bit]
  · rw [testFrame, hframe, if_neg hin, if_neg hin]
    rfl

end Words

section Calls

variable {s s' : Mm} {a b : BitVec 32} {c d : FrameCall}

/-- What a call makes of a word. -/
def FrameCall.change (o : Nat) : FrameCall → BitVec 32 → BitVec 32
  | .set, w => w ||| 1#32 <<< o
  | .clear, w => w &&& ~~~(1#32 <<< o)

/-- The state after a call. -/
def Mm.after (s : Mm) (a : BitVec 32) (c : FrameCall) : Mm :=
  { s with mem := s.mem.updateWord s.frames (frameOf a / 32) (c.change (frameOf a % 32)) }

theorem run_eq (c : FrameCall) :
    c.run s a = if s.inFrames (frameOf a / 32) then .ok (s.after a c) else .error .outOfBounds := by
  cases c with
  | set => rw [FrameCall.run, setFrameInt, updateFrames_frame, maskOf_frame]; rfl
  | clear => rw [FrameCall.run, clearFrameInt, updateFrames_frame, maskOf_frame]; rfl

/-- A call marks its own frame, or clears it, and leaves the others as they were. -/
theorem used_run (h : c.run s a = .ok s') (f : Nat) :
    s'.used f = true ↔ f ∈ c.apply a {f | s.used f = true} := by
  rw [run_eq] at h
  split at h
  · cases h
    cases c with
    | set =>
      have hbit : ((s.mem.setBit s.frames (frameOf a)).bit s.frames f) = true ↔
          f = frameOf a ∨ s.mem.bit s.frames f = true := by simp
      exact hbit
    | clear =>
      have hbit : ((s.mem.clearBit s.frames (frameOf a)).bit s.frames f) = true ↔
          s.mem.bit s.frames f = true ∧ f ≠ frameOf a := by simp [and_comm]
      exact hbit
  · cases h

theorem run_keeps (h : c.run s a = .ok s') : s'.nframes = s.nframes ∧ s'.frames = s.frames := by
  rw [run_eq] at h
  split at h
  · cases h
    exact ⟨rfl, rfl⟩
  · cases h

/-- The value that a call gives its bit. -/
def FrameCall.value : FrameCall → Bool
  | .set => true
  | .clear => false

theorem getLsbD_change (c : FrameCall) {o j : Nat} (hj : j < 32) (w : BitVec 32) :
    (c.change o w).getLsbD j = if j = o then c.value else w.getLsbD j := by
  cases c with
  | set =>
    rw [FrameCall.change, BitVec.getLsbD_or, Memory.getLsbD_one_shiftLeft o j hj]
    by_cases hjo : j = o <;> simp [hjo, FrameCall.value]
  | clear =>
    rw [FrameCall.change, BitVec.getLsbD_and, BitVec.getLsbD_not, Memory.getLsbD_one_shiftLeft o j hj]
    by_cases hjo : j = o <;> simp [hjo, hj, FrameCall.value]

theorem change_comm {o o' : Nat} (hne : o ≠ o') (w : BitVec 32) :
    d.change o' (c.change o w) = c.change o (d.change o' w) := by
  apply BitVec.eq_of_getLsbD_eq
  intro j hj
  rw [getLsbD_change d hj, getLsbD_change c hj, getLsbD_change c hj, getLsbD_change d hj]
  by_cases hjo : j = o
  · rw [if_pos hjo, if_pos hjo, if_neg (fun h => hne (hjo.symm.trans h))]
  · rw [if_neg hjo, if_neg hjo]

theorem change_idem (o : Nat) (w : BitVec 32) : c.change o (c.change o w) = c.change o w := by
  apply BitVec.eq_of_getLsbD_eq
  intro j hj
  rw [getLsbD_change c hj, getLsbD_change c hj]
  split <;> rfl

theorem after_comm (s : Mm) (hne : frameOf a ≠ frameOf b) :
    (s.after a c).after b d = (s.after b d).after a c := by
  have hmem : (s.after a c).mem.updateWord s.frames (frameOf b / 32) (d.change (frameOf b % 32)) =
      (s.after b d).mem.updateWord s.frames (frameOf a / 32) (c.change (frameOf a % 32)) := by
    apply Memory.updateWord_comm
    intro hword w
    exact change_comm (by omega) w
  exact congrArg (fun m => { s with mem := m }) hmem

theorem after_idem (s : Mm) (hsame : frameOf b = frameOf a) : (s.after a c).after b c = s.after a c := by
  have hmem : (s.after a c).mem.updateWord s.frames (frameOf b / 32) (c.change (frameOf b % 32)) =
      (s.after a c).mem := by
    rw [hsame]
    exact Memory.updateWord_idem _ _ fun w => change_idem _ w
  exact congrArg (fun m => { s with mem := m }) hmem

/-- A call asks the same of the array after another one. -/
theorem run_after (s : Mm) (a b : BitVec 32) (c d : FrameCall) : d.run (s.after a c) b =
    if s.inFrames (frameOf b / 32) then .ok ((s.after a c).after b d) else .error .outOfBounds :=
  run_eq d

/-- Calls on different frames commute. -/
theorem run_comm (s : Mm) (hne : frameOf a ≠ frameOf b) :
    (c.run s a >>= fun t => d.run t b) = (d.run s b >>= fun t => c.run t a) := by
  rw [run_eq c, run_eq d]
  by_cases ha : s.inFrames (frameOf a / 32)
  · by_cases hb : s.inFrames (frameOf b / 32)
    · rw [if_pos ha, if_pos hb, ok_bind, ok_bind, run_after, run_after, if_pos hb, if_pos ha,
        after_comm s hne]
    · rw [if_pos ha, if_neg hb, ok_bind, run_after, if_neg hb, error_bind]
  · by_cases hb : s.inFrames (frameOf b / 32)
    · rw [if_neg ha, if_pos hb, ok_bind, run_after, if_neg ha, error_bind]
    · rw [if_neg ha, if_neg hb, error_bind, error_bind]

/-- A call that is repeated does nothing more. -/
theorem run_idem (s : Mm) (hsame : frameOf b = frameOf a) :
    (c.run s a >>= fun t => c.run t b) = c.run s a := by
  rw [run_eq c]
  by_cases ha : s.inFrames (frameOf a / 32)
  · rw [if_pos ha, ok_bind, run_after, hsame, if_pos ha, after_idem s hsame]
  · rw [if_neg ha, error_bind]

theorem managed_lt (h : s.Managed a) : frameOf a < s.nframes := by
  rw [frameOf]
  rw [Mm.Managed] at h
  omega

theorem Covers.run (h : Covers s) (hrun : c.run s a = .ok s') : Covers s' := by
  obtain ⟨hn, hframes⟩ := run_keeps hrun
  intro f hf
  rw [Mm.inFrames, Mm.frameWords, hn]
  exact h f (hn ▸ hf)

/-- A call on a managed address comes back. -/
theorem Covers.run_ok (h : Covers s) (ha : s.Managed a) (c : FrameCall) : ∃ s', c.run s a = .ok s' := by
  rw [run_eq, if_pos (h _ (managed_lt ha))]
  exact ⟨_, rfl⟩

theorem Covers.test_ok (h : Covers s) (ha : s.Managed a) : ∃ w, testFrameInt s a = .ok w := by
  rw [testFrameInt_frame, if_pos (h _ (managed_lt ha))]
  exact ⟨_, rfl⟩

theorem Covers.tests_iff (h : Covers s) (ha : s.Managed a) : Tests s a ↔ s.used (frameOf a) = true := by
  rw [Tests, testFrameInt_frame, if_pos (h _ (managed_lt ha)), Mm.used, Memory.bit,
    ← and_mask_ne_zero _ (Nat.mod_lt _ (by decide : 32 > 0))]
  constructor
  · intro hne
    obtain ⟨w, hw, hne⟩ := hne
    cases hw
    exact hne
  · intro hne
    exact ⟨_, rfl, hne⟩

/-- What a call does to the set of the marked frames. -/
theorem marked_run (ha : s.Managed a) (h : c.run s a = .ok s') : marked s' = c.apply a (marked s) := by
  have hn := (run_keeps h).1
  have hlt := managed_lt ha
  ext f
  rw [marked, Set.mem_ofPred_eq, hn, used_run h]
  cases c with
  | set =>
    rw [FrameCall.apply, FrameCall.apply, Set.mem_insert_iff, Set.mem_insert_iff]
    constructor
    · intro hf
      exact hf.2.imp id fun hused => ⟨hf.1, hused⟩
    · intro hf
      cases hf with
      | inl heq => exact ⟨heq ▸ hlt, .inl heq⟩
      | inr hmarked => exact ⟨hmarked.1, .inr hmarked.2⟩
  | clear =>
    rw [FrameCall.apply, FrameCall.apply, Set.mem_sdiff, Set.mem_sdiff]
    exact and_assoc.symm

/-- A sequence of calls does to the marked frames what it does to a set. -/
theorem marked_runs (h : Covers s) (calls : List (FrameCall × BitVec 32))
    (hcalls : ∀ k ∈ calls, s.Managed k.2) :
    ∃ s', calls.foldlM (fun t k => k.1.run t k.2) s = .ok s' ∧ Covers s' ∧ s'.nframes = s.nframes ∧
      marked s' = calls.foldl (fun F k => k.1.apply k.2 F) (marked s) := by
  induction calls generalizing s with
  | nil => exact ⟨s, rfl, h, rfl, rfl⟩
  | cons k calls ih =>
    have hk := hcalls k List.mem_cons_self
    obtain ⟨s₁, hrun⟩ := h.run_ok hk k.1
    have hn := (run_keeps hrun).1
    obtain ⟨s', hrest, hcovers, hn', hmarked⟩ := ih (h.run hrun) (by
      intro k' hk'
      rw [Mm.Managed, hn]
      exact hcalls k' (List.mem_cons_of_mem _ hk'))
    refine ⟨s', ?_, hcovers, hn'.trans hn, ?_⟩
    · rw [List.foldlM_cons, hrun, ok_bind, hrest]
    · rw [hmarked, marked_run hk hrun]
      rfl

end Calls

/-- The bitmap is a set of frame numbers: each call answers for a managed address, `set_frame` inserts the
frame, `clear_frame` takes it out, and `test_frame` asks for it; so do sequences of calls; calls on
different frames commute, and a repeated call does nothing more. -/
structure FramesRight (s : Mm) : Prop where
  answers : ∀ a, s.Managed a → ∃ w, testFrameInt s a = .ok w
  set : ∀ a, s.Managed a → ∃ s', setFrameInt s a = .ok s' ∧
    ∀ b, s.Managed b → (Tests s' b ↔ frameOf b = frameOf a ∨ Tests s b)
  clear : ∀ a, s.Managed a → ∃ s', clearFrameInt s a = .ok s' ∧
    ∀ b, s.Managed b → (Tests s' b ↔ frameOf b ≠ frameOf a ∧ Tests s b)
  runs : ∀ calls : List (FrameCall × BitVec 32), (∀ k ∈ calls, s.Managed k.2) →
    ∃ s', calls.foldlM (fun t k => k.1.run t k.2) s = .ok s' ∧ Covers s' ∧
      marked s' = calls.foldl (fun F k => k.1.apply k.2 F) (marked s)
  tests : ∀ a, s.Managed a → (Tests s a ↔ frameOf a ∈ marked s)
  commute : ∀ (c d : FrameCall) (a b : BitVec 32), frameOf a ≠ frameOf b →
    (c.run s a >>= fun t => d.run t b) = (d.run s b >>= fun t => c.run t a)
  idempotent : ∀ (c : FrameCall) (a b : BitVec 32), frameOf b = frameOf a →
    (c.run s a >>= fun t => c.run t b) = c.run s a

/-- Every bitmap that covers the frames is right, for every managed address. -/
theorem frames_right {s : Mm} (h : Covers s) : FramesRight s := by
  have hmanaged {s' : Mm} {c : FrameCall} {a b : BitVec 32} (hrun : c.run s a = .ok s')
      (hb : s.Managed b) :
      s'.Managed b := by
    rw [Mm.Managed, (run_keeps hrun).1]
    exact hb
  refine ⟨fun a ha => h.test_ok ha, ?_, ?_, ?_, ?_, fun _ _ _ _ hne => run_comm s hne,
    fun _ _ _ hsame => run_idem s hsame⟩
  · intro a ha
    obtain ⟨s', hrun⟩ := h.run_ok ha .set
    refine ⟨s', hrun, ?_⟩
    intro b hb
    rw [(h.run hrun).tests_iff (hmanaged hrun hb), used_run hrun, h.tests_iff hb]
    exact Set.mem_insert_iff
  · intro a ha
    obtain ⟨s', hrun⟩ := h.run_ok ha .clear
    refine ⟨s', hrun, ?_⟩
    intro b hb
    rw [(h.run hrun).tests_iff (hmanaged hrun hb), used_run hrun, h.tests_iff hb]
    exact (Set.mem_sdiff _).trans and_comm
  · intro calls hcalls
    obtain ⟨s', hrun, hcovers, -, hmarked⟩ := marked_runs h calls hcalls
    exact ⟨s', hrun, hcovers, hmarked⟩
  · intro a ha
    rw [h.tests_iff ha, marked, Set.mem_ofPred_eq, and_iff_right (managed_lt ha)]

/-- A bitmap of 32 frames at `0x1000`. -/
def smallBitmap : Mm where
  mem := fun _ => 0
  nframes := 32
  frames := 0x1000
  kernelDir := 0
  currentDirectory := 0
  plp := 0
  heapOnline := false

theorem smallBitmap_right : FramesRight smallBitmap := frames_right (by rw [Covers]; decide)

end Levos.Memory
