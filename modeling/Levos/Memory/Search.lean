import Levos.Memory.Layout
import Mathlib.Data.List.Range

namespace Levos.Memory

open Levos.Framework

/-- No frame of the run is marked; a run goes on at frame 0 behind the end of the address space. -/
def Mm.runFree (s : Mm) (f n : Nat) : Prop := ∀ j < n, s.used ((f + j) % 2 ^ 20) = false

/-- Every frame of the run has its word in the array. -/
def Mm.runInside (s : Mm) (f n : Nat) : Prop := ∀ j < n, s.inFrames ((f + j) % 2 ^ 20 / 32)

variable {s : Mm} {n : Nat}

theorem testFrame_ok {a : Nat} (h : s.inFrames (a / 0x1000 / 32)) :
    testFrame s a = .ok (s.used (a / 0x1000)) := if_pos h

theorem lastUsed_ok {f : Nat} (hin : s.runInside f n) :
    ∃ b, lastUsed s (0x1000 * f) n = .ok b ∧ (b = 0 ↔ s.runFree f n) := by
  induction n with
  | zero => exact ⟨0, rfl, by simp [Mm.runFree]⟩
  | succ n ih =>
    obtain ⟨b, hb, hiff⟩ := ih fun j hj => hin j (by omega)
    have haddr : wrap (0x1000 * f + 0x1000 * n) / 0x1000 = (f + n) % 2 ^ 20 := by
      unfold wrap
      omega
    have htest : testFrame s (wrap (0x1000 * f + 0x1000 * n)) = .ok (s.used ((f + n) % 2 ^ 20)) := by
      rw [testFrame_ok (by rw [haddr]; exact hin n (by omega)), haddr]
    have hsplit : s.runFree f (n + 1) ↔ s.runFree f n ∧ s.used ((f + n) % 2 ^ 20) = false := by
      constructor
      · exact fun h => ⟨fun j hj => h j (by omega), h n (by omega)⟩
      · rintro ⟨h1, h2⟩ j hj
        by_cases hjn : j = n
        · rwa [hjn]
        · exact h1 j (by omega)
    cases hu : s.used ((f + n) % 2 ^ 20) with
    | true =>
      rw [hu] at htest hsplit
      refine ⟨n + 1, by simp [lastUsed, hb, htest], ?_⟩
      simp [hsplit]
    | false =>
      rw [hu] at htest hsplit
      refine ⟨b, by simp [lastUsed, hb, htest], ?_⟩
      simp [hsplit, hiff]

/-- Up to 2 GiB the number that is returned is that of the frame. -/
theorem signedFrame_low {f : Nat} (hf : f < 2 ^ 19) : signedFrame (0x1000 * f) = f := by
  rw [signedFrame, if_pos (by omega)]
  omega

theorem signedFrame_mod {f : Nat} (hf : f < 2 ^ 20) : signedFrame (0x1000 * f) % 2 ^ 20 = f := by
  unfold signedFrame
  split_ifs <;> omega

/-- Times the size of a page it is the address again, behind 2 GiB too. -/
theorem wrap_signedFrame {f : Nat} (hf : f < 2 ^ 20) :
    wrap (signedFrame (0x1000 * f) * 0x1000) = 0x1000 * f := by
  have hmod := signedFrame_mod hf
  unfold wrap
  omega

/-- The search of `first_n_frames` is over as many frames as `nframes` leaves modulo the address space. -/
theorem firstNFrames_eq (s : Mm) (n : Nat) :
    firstNFrames s n = firstRun s n (List.range (s.nframes % 2 ^ 20)) := by
  have hcount : wrap (s.nframes * 0x1000) / 0x1000 = s.nframes % 2 ^ 20 := by
    unfold wrap
    omega
  rw [firstNFrames, hcount]

/-- Among these `first_n_frames` finds the first frame from which the run is free. -/
theorem firstNFrames_search {f : Nat} (hf : f < s.nframes % 2 ^ 20)
    (hin : ∀ g ≤ f, s.runInside g n) (hfree : s.runFree f n) :
    ∃ f₀ ≤ f, firstNFrames s n = .ok (signedFrame (0x1000 * f₀)) ∧ s.runFree f₀ n ∧
      ∀ g < f₀, ¬s.runFree g n := by
  have search (k : Nat) : ∀ g, g ≤ f → f < g + k → (∀ h < g, ¬s.runFree h n) →
      ∃ f₀ ≤ f, firstRun s n (List.range' g k) = .ok (signedFrame (0x1000 * f₀)) ∧
        s.runFree f₀ n ∧ ∀ h < f₀, ¬s.runFree h n := by
    induction k with
    | zero =>
      intro g h1 h2
      omega
    | succ k ih =>
      intro g hg hk hbefore
      obtain ⟨b, hb, hiff⟩ := lastUsed_ok (hin g hg)
      rw [List.range'_succ, firstRun, hb, ok_bind]
      by_cases h0 : b = 0
      · rw [if_pos h0]
        exact ⟨g, hg, rfl, hiff.mp h0, hbefore⟩
      · rw [if_neg h0]
        have hgf : g ≠ f := fun e => h0 (hiff.mpr (e ▸ hfree))
        refine ih (g + 1) (by omega) (by omega) ?_
        intro h hh
        by_cases hhg : h = g
        · exact hhg ▸ fun hr => h0 (hiff.mpr hr)
        · exact hbefore h (by omega)
  rw [firstNFrames_eq, List.range_eq_range']
  exact search (s.nframes % 2 ^ 20) 0 (by omega) (by omega) fun h hh => absurd hh (by omega)

/-- `first_n_frames` finds the first frame from which the run is free. -/
theorem firstNFrames_ok {f : Nat} (hn : s.nframes < 2 ^ 20) (hf : f < s.nframes)
    (hin : ∀ g ≤ f, s.runInside g n) (hfree : s.runFree f n) :
    ∃ f₀ ≤ f, firstNFrames s n = .ok (signedFrame (0x1000 * f₀)) ∧ s.runFree f₀ n ∧
      ∀ g < f₀, ¬s.runFree g n := by
  apply firstNFrames_search _ hin hfree
  rw [Nat.mod_eq_of_lt hn]
  exact hf

/-- Whatever `lastUsed` says of a run, a run without used frames is free. -/
theorem lastUsed_zero {f : Nat} (h : lastUsed s (0x1000 * f) n = .ok 0) : s.runFree f n := by
  induction n with
  | zero =>
    intro j hj
    omega
  | succ n ih =>
    rw [lastUsed] at h
    obtain ⟨b, hb, h⟩ := bind_eq_ok.mp h
    obtain ⟨u, hu, h⟩ := bind_eq_ok.mp h
    cases u with
    | true => cases h
    | false =>
      cases h
      have haddr : wrap (0x1000 * f + 0x1000 * n) / 0x1000 = (f + n) % 2 ^ 20 := by
        unfold wrap
        omega
      simp only [testFrame, haddr] at hu
      split_ifs at hu with hin
      have hfree := Except.ok.inj hu
      intro j hj
      by_cases hjn : j = n
      · rwa [hjn]
      · exact ih hb j (by omega)

/-- The run that was looked through has all its bits in the array. -/
theorem lastUsed_inside {f b : Nat} (h : lastUsed s (0x1000 * f) n = .ok b) : s.runInside f n := by
  induction n generalizing b with
  | zero =>
    intro j hj
    omega
  | succ n ih =>
    rw [lastUsed] at h
    obtain ⟨b', hb, h⟩ := bind_eq_ok.mp h
    obtain ⟨u, hu, -⟩ := bind_eq_ok.mp h
    have haddr : wrap (0x1000 * f + 0x1000 * n) / 0x1000 = (f + n) % 2 ^ 20 := by
      unfold wrap
      omega
    simp only [testFrame, haddr] at hu
    split_ifs at hu with hin
    intro j hj
    by_cases hjn : j = n
    · rw [hjn]
      exact hin
    · exact ih hb j (by omega)

/-- What `first_n_frames` finds is free; it starts at one of the frames it goes over, and the array
has it. -/
theorem firstNFrames_found {f : Nat} (h : firstNFrames s n = .ok f) (hne : f ≠ 0xFFFFFFFF) :
    ∃ g < s.nframes % 2 ^ 20, f = signedFrame (0x1000 * g) ∧ s.runFree g n ∧ s.runInside g n := by
  have search (fs : List Nat) (hfs : ∀ g ∈ fs, g < s.nframes % 2 ^ 20) (h : firstRun s n fs = .ok f) :
      ∃ g < s.nframes % 2 ^ 20, f = signedFrame (0x1000 * g) ∧ s.runFree g n ∧ s.runInside g n := by
    induction fs with
    | nil =>
      cases h
      exact absurd rfl hne
    | cons g gs ih =>
      rw [firstRun] at h
      obtain ⟨b, hb, h⟩ := bind_eq_ok.mp h
      split_ifs at h with h0
      · exact ⟨g, hfs g (by simp), (Except.ok.inj h).symm, lastUsed_zero (h0 ▸ hb), lastUsed_inside hb⟩
      · exact ih (fun g hg => hfs g (by simp [hg])) h
  rw [firstNFrames_eq] at h
  exact search _ (fun g hg => List.mem_range.mp hg) h

theorem firstNFrames_free {f : Nat} (h : firstNFrames s n = .ok f) (hne : f ≠ 0xFFFFFFFF) :
    s.runFree f n := by
  obtain ⟨g, hg, rfl, hfree, -⟩ := firstNFrames_found h hne
  have hmod := signedFrame_mod (f := g) (by omega)
  intro j hj
  rw [← Nat.mod_add_mod, hmod]
  exact hfree j hj

/-- The bits of a word. -/
theorem used_word (i : Nat) {j : Nat} (hj : j < 32) :
    s.used (i * 32 + j) = (s.mem.word (s.frames + 4 * i)).getLsbD j := by
  have hdiv : (i * 32 + j) / 32 = i := by omega
  have hmod : (i * 32 + j) % 32 = j := by omega
  rw [Mm.used, Memory.bit, hdiv, hmod]

/-- The bit loop of `first_frame` stops at the first frame of the word that is free. -/
theorem word_some {i j : Nat}
    (h : ((List.range 32).find? fun j => !(s.mem.word (s.frames + 4 * i)).getLsbD j) = some j) :
    j < 32 ∧ s.used (i * 32 + j) = false ∧ ∀ g, i * 32 ≤ g → g < i * 32 + j → s.used g = true := by
  obtain ⟨hj, hmem, hmin⟩ := List.find?_range_eq_some.mp h
  have hlt : j < 32 := by simpa using hmem
  refine ⟨hlt, ?_, ?_⟩
  · rw [used_word i hlt]
    simpa using hj
  · intro g hlow hhigh
    have hg : g = i * 32 + (g - i * 32) := by omega
    have hused := hmin (g - i * 32) (by omega)
    rw [hg, used_word i (by omega)]
    simpa using hused

/-- It finds none where the word is all ones. -/
theorem word_none {i : Nat}
    (h : ((List.range 32).find? fun j => !(s.mem.word (s.frames + 4 * i)).getLsbD j) = none) :
    ∀ g, i * 32 ≤ g → g < i * 32 + 32 → s.used g = true := by
  intro g hlow hhigh
  have hg : g = i * 32 + (g - i * 32) := by omega
  have hused := List.find?_range_eq_none.mp h (g - i * 32) (by omega)
  rw [hg, used_word i (by omega)]
  simpa using hused

/-- What the word loop finds is the first free frame, and in a word of the array. -/
theorem firstFrameFrom_least {f : Nat} (k i : Nat) (h : firstFrameFrom s (List.range' i k) = .ok f)
    (hbefore : ∀ g < i * 32, s.used g = true) :
    f < (i + k) * 32 ∧ s.inFrames (f / 32) ∧ s.used f = false ∧ ∀ g < f, s.used g = true := by
  induction k generalizing i with
  | zero => cases h
  | succ k ih =>
    rw [List.range'_succ, firstFrameFrom] at h
    split_ifs at h with hin
    cases hfind : (List.range 32).find? fun j => !(s.mem.word (s.frames + 4 * i)).getLsbD j with
    | some j =>
      rw [hfind] at h
      cases h
      obtain ⟨hj, hfree, hword⟩ := word_some hfind
      have hdiv : (i * 32 + j) / 32 = i := by omega
      refine ⟨by omega, by rw [hdiv]; exact hin, hfree, ?_⟩
      intro g hg
      by_cases hgi : g < i * 32
      · exact hbefore g hgi
      · exact hword g (by omega) hg
    | none =>
      rw [hfind] at h
      obtain ⟨hlt, hrest⟩ := ih (i + 1) h (fun g hg => by
        by_cases hgi : g < i * 32
        · exact hbefore g hgi
        · exact word_none hfind g (by omega) (by omega))
      exact ⟨by omega, hrest⟩

/-- Where the array has the words, the word loop finds a frame unless all of them are in use. -/
theorem firstFrameFrom_total (k i : Nat) (hin : ∀ j < i + k, s.inFrames j) :
    (∃ f, firstFrameFrom s (List.range' i k) = .ok f) ∨
      firstFrameFrom s (List.range' i k) = .error (.panic "%s: Out of memory") ∧
        ∀ g, i * 32 ≤ g → g < (i + k) * 32 → s.used g = true := by
  induction k generalizing i with
  | zero =>
    refine .inr ⟨rfl, ?_⟩
    intro g hlow hhigh
    omega
  | succ k ih =>
    rw [List.range'_succ, firstFrameFrom, if_pos (hin i (by omega))]
    cases hfind : (List.range 32).find? fun j => !(s.mem.word (s.frames + 4 * i)).getLsbD j with
    | some j => exact .inl ⟨_, rfl⟩
    | none =>
      rcases ih (i + 1) (fun j hj => hin j (by omega)) with hfound | ⟨hpanic, hfull⟩
      · exact .inl hfound
      · refine .inr ⟨hpanic, ?_⟩
        intro g hlow hhigh
        by_cases hgi : g < i * 32 + 32
        · exact word_none hfind g hlow hgi
        · exact hfull g (by omega) (by omega)

/-- What `first_frame` returns is the first free frame. -/
theorem firstFrame_least {f : Nat} (h : firstFrame s = .ok f) :
    f < 32 * (s.nframes / 32) ∧ s.inFrames (f / 32) ∧ s.used f = false ∧ ∀ g < f, s.used g = true := by
  rw [firstFrame, List.range_eq_range'] at h
  obtain ⟨hlt, hrest⟩ := firstFrameFrom_least _ 0 h (fun g hg => absurd hg (by omega))
  exact ⟨by omega, hrest⟩

theorem firstFrame_free {f : Nat} (h : firstFrame s = .ok f) : s.used f = false :=
  (firstFrame_least h).2.2.1

/-- `first_frame` finds a frame unless all of the whole words are in use. -/
theorem firstFrame_total (hin : ∀ i < s.nframes / 32, s.inFrames i) :
    (∃ f, firstFrame s = .ok f) ∨ firstFrame s = .error (.panic "%s: Out of memory") ∧
      ∀ g < 32 * (s.nframes / 32), s.used g = true := by
  rw [firstFrame, List.range_eq_range']
  rcases firstFrameFrom_total (s.nframes / 32) 0 (fun j hj => hin j (by omega)) with
    hfound | ⟨hpanic, hfull⟩
  · exact .inl hfound
  · exact .inr ⟨hpanic, fun g hg => hfull g (by omega) (by omega)⟩

/-- `first_frame` returns the first frame that is not marked, among those of whole words. -/
theorem firstFrame_search {f : Nat} (hin : ∀ i < s.nframes / 32, s.inFrames i)
    (hf : f < 32 * (s.nframes / 32)) (hfree : s.used f = false) :
    ∃ f₀ ≤ f, firstFrame s = .ok f₀ ∧ s.used f₀ = false ∧ ∀ g < f₀, s.used g = true := by
  rcases firstFrame_total hin with ⟨f₀, hfirst⟩ | ⟨-, hfull⟩
  · obtain ⟨-, -, hfree₀, hbefore⟩ := firstFrame_least hfirst
    refine ⟨f₀, ?_, hfirst, hfree₀, hbefore⟩
    by_contra hlt
    rw [hbefore f (by omega)] at hfree
    cases hfree
  · rw [hfull f hf] at hfree
    cases hfree

theorem firstFrame_ok {f : Nat} (hn : s.nframes < 2 ^ 20) (hf : f < 32 * (s.nframes / 32))
    (hfree : s.used f = false) :
    ∃ f₀ ≤ f, firstFrame s = .ok f₀ ∧ s.used f₀ = false ∧ ∀ g < f₀, s.used g = true := by
  apply firstFrame_search _ hf hfree
  intro i hi
  rw [Mm.inFrames_iff (by omega)]
  omega

end Levos.Memory
