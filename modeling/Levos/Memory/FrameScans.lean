import Levos.Memory.PageRun

namespace Levos.Memory

open Levos.Framework

/-- The bits of a word that are set. -/
def bitsSet (w : BitVec 32) : Nat := (List.range 32).countP fun j => w.getLsbD j

/-- The word loop of `mem_used`. -/
def memUsedFrom (s : Mm) : List Nat → Nat → Except Fault Nat
  | [], ret => .ok ret
  | i :: is, ret =>
    if s.inFrames i then memUsedFrom s is (wrap (ret + bitsSet (s.mem.word (s.frames + 4 * i))))
    else .error .outOfBounds

def memUsed (s : Mm) : Except Fault Nat := do
  let ret ← memUsedFrom s (List.range (s.nframes / 32)) 0
  return wrap (ret * 4)

def memTotal (s : Mm) : Nat := wrap (s.nframes * 4)

def outOfMemory : Fault := .panic "%s: Out of memory"

/-- How many of the first `n` frames are in use. -/
def Mm.usedBelow (s : Mm) (n : Nat) : Nat := (List.range n).countP fun f => s.used f

/-- Frame `f` is the lowest free one. -/
def LowestFree (s : Mm) (f : Nat) : Prop :=
  f < s.nframes ∧ s.used f = false ∧ ∀ g < f, s.used g = true

/-- The scans agree on the frames below `nframes`: the lowest free one is what both searches return,
`first_frame` panics when there is none, and `mem_used` counts the others. -/
def ScansAgree (s : Mm) : Prop :=
  (∀ f, LowestFree s f → firstFrame s = .ok f ∧ firstNFrames s 1 = .ok f) ∧
    (firstFrame s = .error outOfMemory → ∀ f < s.nframes, s.used f = true) ∧
    memUsed s = .ok (4 * s.usedBelow s.nframes) ∧
    (memUsed s = .ok (memTotal s) ↔ firstFrame s = .error outOfMemory)

/-- The array has all the whole words; the frames behind them, if there are any, are free, and so is one
before them; and the lowest free frame is one that `first_n_frames` goes over, below the 2 GiB from where
its `int` is negative. -/
structure ScansMeet (s : Mm) : Prop where
  inside : s.nframes / 32 ≤ s.frameWords
  tail : s.nframes % 32 = 0 ∨
    (∀ f, 32 * (s.nframes / 32) ≤ f → f < s.nframes → s.used f = false) ∧
      ∃ f < 32 * (s.nframes / 32), s.used f = false
  reached : ∀ f, LowestFree s f → f < s.nframes % 2 ^ 20 ∧ f < 2 ^ 19

section Scans

variable {s : Mm} {f : Nat}

theorem usedBelow_add (s : Mm) (m n : Nat) :
    s.usedBelow (m + n) = s.usedBelow m + (List.range n).countP fun j => s.used (m + j) := by
  rw [Mm.usedBelow, Mm.usedBelow, List.range_add, List.countP_append, List.countP_map]
  rfl

theorem usedBelow_le (s : Mm) (n : Nat) : s.usedBelow n ≤ n := by
  have hle := List.countP_le_length (p := fun f => s.used f) (l := List.range n)
  rw [List.length_range] at hle
  exact hle

/-- A word of the array holds the bits of 32 frames. -/
theorem usedBelow_word (s : Mm) (i : Nat) :
    s.usedBelow (32 * (i + 1)) = s.usedBelow (32 * i) + bitsSet (s.mem.word (s.frames + 4 * i)) := by
  rw [Nat.mul_succ, usedBelow_add, bitsSet]
  congr 1
  apply List.countP_congr
  intro j hj
  have hword := used_word (s := s) i (List.mem_range.mp hj)
  rw [Nat.mul_comm 32 i, hword]

/-- The words from `i` on, with the frames before them counted. -/
theorem memUsedFrom_ok (k i : Nat) (hin : ∀ j < i + k, s.inFrames j) (hsmall : 32 * (i + k) < 2 ^ 32) :
    memUsedFrom s (List.range' i k) (s.usedBelow (32 * i)) = .ok (s.usedBelow (32 * (i + k))) := by
  induction k generalizing i with
  | zero => rfl
  | succ k ih =>
    have hle := usedBelow_le s (32 * (i + 1))
    rw [List.range'_succ, memUsedFrom, if_pos (hin i (by omega)), ← usedBelow_word,
      wrap_of_lt (by omega), ih (i + 1) (fun j hj => hin j (by omega)) (by omega)]
    congr 3
    omega

theorem memUsedFrom_error {is : List Nat} {ret r i : Nat} (h : memUsedFrom s is ret = .ok r)
    (hi : i ∈ is) :
    s.inFrames i := by
  induction is generalizing ret with
  | nil => cases hi
  | cons j js ih =>
    rw [memUsedFrom] at h
    split_ifs at h with hin
    rcases List.mem_cons.mp hi with rfl | hi
    · exact hin
    · exact ih h hi

/-- `mem_used` counts the used frames of whole words. -/
theorem memUsed_eq (hn : s.nframes < 2 ^ 32) (hin : s.nframes / 32 ≤ s.frameWords) :
    memUsed s = .ok (wrap (4 * s.usedBelow (32 * (s.nframes / 32)))) := by
  have hwords : ∀ j < 0 + s.nframes / 32, s.inFrames j := by
    intro j hj
    exact Nat.lt_of_lt_of_le (by omega) hin
  have hloop := memUsedFrom_ok (s.nframes / 32) 0 hwords (by omega)
  rw [Nat.zero_add] at hloop
  rw [memUsed, List.range_eq_range']
  change (memUsedFrom s _ (s.usedBelow (32 * 0)) >>= _) = _
  rw [hloop, ok_bind, Nat.mul_comm 4]
  rfl

theorem memUsed_inside {u : Nat} (h : memUsed s = .ok u) : s.nframes / 32 ≤ s.frameWords := by
  obtain ⟨r, hr, -⟩ := bind_eq_ok.mp h
  by_contra hlt
  have hin : s.inFrames s.frameWords := by
    apply memUsedFrom_error hr
    rw [List.mem_range]
    omega
  exact Nat.lt_irrefl _ hin

/-- With every frame of the whole words in use, `first_frame` panics. -/
theorem firstFrame_full (hin : s.nframes / 32 ≤ s.frameWords)
    (hall : ∀ f < 32 * (s.nframes / 32), s.used f = true) : firstFrame s = .error outOfMemory := by
  rcases firstFrame_total (fun i hi => Nat.lt_of_lt_of_le hi hin) with ⟨f, hfirst⟩ | ⟨hpanic, -⟩
  · obtain ⟨hlt, -, hfree, -⟩ := firstFrame_least hfirst
    rw [hall f hlt] at hfree
    cases hfree
  · exact hpanic

theorem exists_lowestFree (h : ∃ f < s.nframes, s.used f = false) : ∃ f, LowestFree s f := by
  classical
  obtain ⟨hlt, hfree⟩ := Nat.find_spec h
  refine ⟨Nat.find h, hlt, hfree, ?_⟩
  intro g hg
  have hmin := Nat.find_min h hg
  by_contra hused
  exact hmin ⟨by omega, by simpa using hused⟩

/-- All `n` frames are counted exactly when all are in use. -/
theorem usedBelow_eq_iff (n : Nat) : s.usedBelow n = n ↔ ∀ f < n, s.used f = true := by
  have hlength : (List.range n).length = n := List.length_range
  constructor
  · intro h f hf
    have hall := List.countP_eq_length.mp (h.trans hlength.symm)
    exact hall f (List.mem_range.mpr hf)
  · intro h
    rw [Mm.usedBelow, List.countP_eq_length.mpr, hlength]
    intro f hf
    exact h f (List.mem_range.mp hf)

/-- The frames behind the whole words are not counted, which is right when they are all free. -/
theorem usedBelow_tail_iff :
    s.usedBelow s.nframes = s.usedBelow (32 * (s.nframes / 32)) ↔
      ∀ f, 32 * (s.nframes / 32) ≤ f → f < s.nframes → s.used f = false := by
  have hsplit : s.nframes = 32 * (s.nframes / 32) + s.nframes % 32 := (Nat.div_add_mod _ _).symm
  have hcount : s.usedBelow s.nframes = s.usedBelow (32 * (s.nframes / 32)) +
      (List.range (s.nframes % 32)).countP fun j => s.used (32 * (s.nframes / 32) + j) := by
    rw [← usedBelow_add, ← hsplit]
  rw [hcount, Nat.add_eq_left, List.countP_eq_zero]
  constructor
  · intro h f hlow hhigh
    have hf := h (f - 32 * (s.nframes / 32)) (List.mem_range.mpr (by omega))
    rw [Nat.add_sub_cancel' hlow] at hf
    simpa using hf
  · intro h j hj
    have hj' := List.mem_range.mp hj
    rw [h (32 * (s.nframes / 32) + j) (by omega) (by omega)]
    simp

end Scans

section Agree

variable {s : Mm} {f : Nat}

/-- The array is large enough for the whole words only where 4 times the frames fit into 32 bits. -/
theorem nframes_of_inside (hn : s.nframes < 2 ^ 32) (hin : s.nframes / 32 ≤ s.frameWords) :
    s.nframes < 2 ^ 30 := by
  unfold Mm.frameWords wrap at hin
  omega

theorem LowestFree.unique {g : Nat} (hf : LowestFree s f) (hg : LowestFree s g) : f = g := by
  rcases Nat.lt_trichotomy f g with hlt | heq | hlt
  · exact absurd (hg.2.2 f hlt) (by simp [hf.2.1])
  · exact heq
  · exact absurd (hf.2.2 g hlt) (by simp [hg.2.1])

theorem ScansAgree.meets (hn : s.nframes < 2 ^ 32) (h : ScansAgree s) : ScansMeet s := by
  obtain ⟨hlowest, -, hcount, -⟩ := h
  have hin := memUsed_inside hcount
  have htail : ∀ f, 32 * (s.nframes / 32) ≤ f → f < s.nframes → s.used f = false := by
    rw [← usedBelow_tail_iff]
    have heq := (memUsed_eq hn hin).symm.trans hcount
    have hsplit : s.nframes = 32 * (s.nframes / 32) + s.nframes % 32 := (Nat.div_add_mod _ _).symm
    have hle : s.usedBelow (32 * (s.nframes / 32)) ≤ s.usedBelow s.nframes := by
      conv => rhs; rw [hsplit]
      rw [usedBelow_add]
      exact Nat.le_add_right _ _
    have hsame : wrap (4 * s.usedBelow (32 * (s.nframes / 32))) = 4 * s.usedBelow s.nframes :=
      Except.ok.inj heq
    unfold wrap at hsame
    omega
  refine ⟨hin, ?_, ?_⟩
  · by_cases hwhole : s.nframes % 32 = 0
    · exact .inl hwhole
    · have hfree := htail (32 * (s.nframes / 32)) (Nat.le_refl _) (by omega)
      obtain ⟨f, hf⟩ := exists_lowestFree ⟨32 * (s.nframes / 32), by omega, hfree⟩
      exact .inr ⟨htail, f, (firstFrame_least (hlowest f hf).1).1, hf.2.1⟩
  · intro f hf
    have hlt := hf.1
    have hfew := nframes_of_inside hn hin
    obtain ⟨g, hg, hsigned, -⟩ := firstNFrames_found (hlowest f hf).2 (by omega)
    -- a frame from 2^19 on comes back as a negative number, which no frame of the array is
    unfold signedFrame at hsigned
    split_ifs at hsigned <;> omega

/-- The lowest free frame is in a whole word. -/
theorem ScansMeet.lowest_lt (h : ScansMeet s) (hf : LowestFree s f) : f < 32 * (s.nframes / 32) := by
  rcases h.tail with hwhole | ⟨-, g, hg, hfree⟩
  · have hlt := hf.1
    omega
  · by_contra hge
    rw [hf.2.2 g (by omega)] at hfree
    cases hfree

/-- Where the whole words are all in use, so is every frame. -/
theorem ScansMeet.all_used (h : ScansMeet s) (hpanic : firstFrame s = .error outOfMemory) :
    ∀ f < s.nframes, s.used f = true := by
  intro f hf
  by_contra hfree
  obtain ⟨g, hg⟩ := exists_lowestFree ⟨f, hf, by simpa using hfree⟩
  obtain ⟨f₀, -, hfirst, -⟩ :=
    firstFrame_search (fun i hi => Nat.lt_of_lt_of_le hi h.inside) (h.lowest_lt hg) hg.2.1
  cases hfirst.symm.trans hpanic

theorem ScansMeet.firstFrame (h : ScansMeet s) (hf : LowestFree s f) : firstFrame s = .ok f := by
  obtain ⟨f₀, hle, hfirst, hfree, hbefore⟩ :=
    firstFrame_search (fun i hi => Nat.lt_of_lt_of_le hi h.inside) (h.lowest_lt hf) hf.2.1
  have hlt := hf.1
  have hsame : f₀ = f := LowestFree.unique ⟨by omega, hfree, hbefore⟩ hf
  rw [hfirst, hsame]

theorem ScansMeet.firstNFrames (h : ScansMeet s) (hf : LowestFree s f) : firstNFrames s 1 = .ok f := by
  have hlt := hf.1
  have hword := h.lowest_lt hf
  obtain ⟨hreach, hlow⟩ := h.reached f hf
  have hmod (g : Nat) (hg : g ≤ f) : (g + 0) % 2 ^ 20 = g := Nat.mod_eq_of_lt (by omega)
  obtain ⟨f₀, hle, hfirst, hfree, -⟩ := firstNFrames_search (n := 1) hreach
    (fun g hg j hj => by
      obtain rfl : j = 0 := by omega
      rw [hmod g hg]
      exact Nat.lt_of_lt_of_le (by omega) h.inside)
    (fun j hj => by
      obtain rfl : j = 0 := by omega
      rw [hmod f (Nat.le_refl f)]
      exact hf.2.1)
  have hfree₀ := hfree 0 (by omega)
  rw [hmod f₀ hle] at hfree₀
  have hsame : f₀ = f := by
    by_contra hne
    rw [hf.2.2 f₀ (by omega)] at hfree₀
    cases hfree₀
  rw [hfirst, hsame, signedFrame_low hlow]

theorem ScansMeet.memUsed (hn : s.nframes < 2 ^ 32) (h : ScansMeet s) :
    memUsed s = .ok (4 * s.usedBelow s.nframes) := by
  have hsmall := nframes_of_inside hn h.inside
  have hle := usedBelow_le s (32 * (s.nframes / 32))
  have htail : s.usedBelow s.nframes = s.usedBelow (32 * (s.nframes / 32)) := by
    rw [usedBelow_tail_iff]
    rcases h.tail with hwhole | ⟨htail, -⟩
    · intro f hlow hhigh
      omega
    · exact htail
  rw [memUsed_eq hn h.inside, htail, wrap_of_lt (by omega)]

end Agree

/-- The scans agree exactly when the bitmap meets the condition. -/
theorem scansAgree_iff {s : Mm} (hn : s.nframes < 2 ^ 32) : ScansAgree s ↔ ScansMeet s := by
  constructor
  · intro h
    exact h.meets hn
  · intro h
    have hsmall := nframes_of_inside hn h.inside
    have htotal : memTotal s = 4 * s.nframes := by
      rw [memTotal, wrap_of_lt (by omega), Nat.mul_comm]
    refine ⟨fun f hf => ⟨h.firstFrame hf, h.firstNFrames hf⟩, h.all_used, h.memUsed hn, ?_⟩
    rw [h.memUsed hn, htotal]
    constructor
    · intro heq
      have hcount : s.usedBelow s.nframes = s.nframes := by
        have hfour := Except.ok.inj heq
        omega
      apply firstFrame_full h.inside
      intro f hf
      exact (usedBelow_eq_iff _).mp hcount f (by omega)
    · intro hpanic
      rw [(usedBelow_eq_iff _).mpr (h.all_used hpanic)]

/-- 48 frames, of which the first 32 are in use. -/
def tailMemory : Mm := { fullMemory with nframes := 48 }

/-- `first_frame` panics, `first_n_frames` finds frame 32. -/
theorem tailMemory_scans :
    tailMemory.nframes < 2 ^ 32 ∧ firstFrame tailMemory = .error outOfMemory ∧
      firstNFrames tailMemory 1 = .ok 32 ∧ ¬ScansAgree tailMemory := by
  have hpanic : firstFrame tailMemory = .error outOfMemory := by decide +kernel
  refine ⟨by decide, hpanic, by decide +kernel, ?_⟩
  intro h
  have hused := h.2.1 hpanic 32 (by decide)
  exact absurd hused (by decide)

/-- With all of 32 frames in use the scans agree. -/
theorem fullMemory_scans : ScansAgree fullMemory := by
  have hcount : fullMemory.nframes = 32 := rfl
  apply (scansAgree_iff (by decide)).mpr
  refine ⟨by decide, .inl rfl, ?_⟩
  intro f hf
  have hlt := hf.1
  rw [hcount] at hlt ⊢
  omega

end Levos.Memory
