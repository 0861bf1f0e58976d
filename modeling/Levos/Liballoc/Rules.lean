import Levos.Liballoc.Placement

namespace Levos.Liballoc

open Levos.Framework Levos.Memory

/-- What holds of the blocks and the memory of a heap, and goes on to hold when a new block joins it for
want of room. -/
structure Grows (size : Nat) (P : State → Prop) : Prop where
  same : ∀ s t : State, t.mm = s.mm → t.majors = s.majors → P s → P t
  block : ∀ (s s₁ : State) (N : Major), s.Sound → P s → s.Full size → FreeRun s.mm (pagesFor size) →
    allocateNewPage s size = .ok (some N, s₁) → P (s₁.push N)

variable {P : State → Prop} {s t : State} {size n p : Nat}

theorem Grows.better (hP : Grows size P) (M : Major) (k : Nat) (h : P s) : P (s.better M k) :=
  hP.same s _ (s.better_mm M k) (s.better_majors M k) h

/-- The loop over the blocks makes new ones at most. -/
theorem Grows.search {fuel i bestSize : Nat} {startedBet : Bool} {r : Option (Nat × Place)}
    (hP : Grows size P) (hs : s.Sound) (hsize : size + majorHeader + minorHeader < 2 ^ 32)
    (hmem : s.Full size → FreeRun s.mm (pagesFor size)) (hi : i < s.majors.length)
    (hseen : startedBet = false → s.Passed size i) (h0 : P s)
    (h : Liballoc.search size fuel i startedBet bestSize s = .ok (r, t)) : P t := by
  induction fuel generalizing i startedBet bestSize s with
  | zero => cases h
  | succ fuel ih =>
    obtain ⟨M, hM⟩ : ∃ M, s.majors[i]? = some M := ⟨_, List.getElem?_eq_getElem hi⟩
    have hsound := (better_grown hs M bestSize).sound
    have hmajors := s.better_majors M bestSize
    have hmm := s.better_mm M bestSize
    have h1 := hP.better M bestSize h0
    rw [Liballoc.search] at h
    simp only [hM, hmajors] at h
    generalize s.better M bestSize = s₁ at h hsound hmajors hmm h1
    have hmem₁ : s₁.Full size → FreeRun s₁.mm (pagesFor size) := by
      rw [State.Full, hmajors, hmm]
      exact hmem
    cases hroom : M.room size with
    | some pl =>
      simp only [hroom] at h
      cases h
      exact h1
    | none =>
      have hseen₁ (hbet : startedBet = false) : s₁.Passed size (i + 1) := by
        rw [State.Passed, hmajors]
        exact (hseen hbet).next hM hroom
      simp only [hroom] at h
      split_ifs at h with hnext hbet
      · exact ih hsound hmem₁ (by rw [hmajors]; exact hnext) hseen₁ h1 h
      · exact ih hsound hmem₁ (by rw [hmajors]; omega) (fun _ k hk => absurd hk (by omega)) h1 h
      all_goals
        have hfull : s₁.Full size :=
          (hseen₁ (by simpa using hbet)).full (by rw [hmajors]; omega)
        obtain ⟨⟨N', s₂⟩, hnew, h⟩ := bind_eq_ok.mp h
        obtain ⟨N, rfl, hbrand, hpush, -⟩ := allocateNewPage_spec hsound hsize (hmem₁ hfull) hnew
        have h2 : P (s₂.push N) := hP.block s₁ s₂ N hsound h1 hfull (hmem₁ hfull) hnew
      · cases h
        exact h2
      · have hlen : s₁.majors.length = i + 1 := by
          rw [hmajors]
          omega
        have hN : (s₂.push N).majors[i + 1]? = some N := by
          rw [hpush, ← hlen]
          simp
        obtain ⟨-, rfl⟩ := search_hit hN hbrand.room h
        exact hP.better N _ h2

theorem Grows.findPlace {r : Option (Nat × Place)} (hP : Grows size P) (hs : s.Sound)
    (hsize : size + majorHeader + minorHeader < 2 ^ 32) (hne : s.majors ≠ [])
    (hmem : s.Full size → FreeRun s.mm (pagesFor size)) (h0 : P s)
    (h : Liballoc.findPlace s size = .ok (r, t)) : P t := by
  unfold Liballoc.findPlace at h
  obtain ⟨i, b, k, hstart⟩ : ∃ i b k, startAt s size = (i, b, k) := ⟨_, _, _, rfl⟩
  obtain ⟨hi, hb⟩ := startAt_spec hne hstart
  rw [hstart] at h
  apply hP.search hs hsize hmem hi ?_ h0 h
  intro hbet j hj
  have := hb hbet
  omega

theorem Grows.ensureRoot (hP : Grows size P) (hs : s.Sound)
    (hsize : size + majorHeader + minorHeader < 2 ^ 32)
    (hmem : s.Full size → FreeRun s.mm (pagesFor size)) (h0 : P s)
    (h : Liballoc.ensureRoot s size = .ok t) : P t := by
  unfold Liballoc.ensureRoot at h
  cases hms : s.majors with
  | cons M Ms =>
    simp only [hms] at h
    cases h
    exact h0
  | nil =>
    simp only [hms, List.isEmpty_nil, if_true] at h
    have hfull : s.Full size := by
      intro M hM
      rw [hms] at hM
      cases hM
    obtain ⟨⟨root, s₁⟩, hnew, h⟩ := bind_eq_ok.mp h
    obtain ⟨N, rfl, -⟩ := allocateNewPage_spec hs hsize (hmem hfull) hnew
    cases h
    exact hP.block s s₁ N hs h0 hfull (hmem hfull) hnew

/-- `new_malloc` is new blocks, which keep `P`, and the end of a placement, which makes `Q` of it. -/
theorem newMalloc_rule {Q : Nat → State → Prop} (hP : Grows (n + 32) P)
    (hQ : ∀ (p : Nat) (s t : State), t.mm = s.mm → t.majors = s.majors → Q p s → Q p t)
    (hoccupy : ∀ (s t : State) (i p : Nat) (M : Major) (pl : Place), s.Sound → P s →
      s.majors[i]? = some M → M.room (n + 32) = some pl → occupy s i M pl (n + 32) n = .ok (p, t) →
      Q p t) (hs : s.Sound) (hfit : Fits s n) (h : newMalloc s n = .ok (p, t)) (h0 : P s) : Q p t := by
  have hsize : n + 32 + majorHeader + minorHeader < 2 ^ 32 := by
    have hsize := hfit.size
    unfold majorHeader minorHeader
    omega
  obtain ⟨u, hmalloc, rfl⟩ := newMalloc_ok hfit.size h
  have hlocked : s.locked.Sound := hs.of_eq rfl rfl
  have h1 : P s.locked := hP.same s _ rfl rfl h0
  obtain ⟨s₁, hroot, hmalloc⟩ := bind_eq_ok.mp hmalloc
  have h2 : P s₁ := hP.ensureRoot hlocked hsize hfit.memory h1 hroot
  obtain ⟨hgrown, hne, hmem₁⟩ := ensureRoot_ready hlocked hsize hfit.memory hroot
  rw [if_neg (by simpa using hne)] at hmalloc
  obtain ⟨⟨place, s₂⟩, hfind, hmalloc⟩ := bind_eq_ok.mp hmalloc
  have h3 : P s₂ := hP.findPlace hgrown.sound hsize hne hmem₁ h2 hfind
  obtain ⟨j, M, pl, rfl, hplaced⟩ := findPlace_spec hgrown.sound hsize hne hmem₁ hfind
  simp only [hplaced.block] at hmalloc
  have h4 : Q p u := hoccupy s₂ u j p M pl hplaced.grown.sound h3 hplaced.block hplaced.room hmalloc
  exact hQ p u _ rfl rfl h4

/-- The heap in which minor `k` of block `i` was given back, and others of the block were not. -/
def State.vacated (s : State) (i k : Nat) (M : Major) (m : Minor) : State :=
  { s with
    mm := { s.mm with mem := vacateMem s.mm.mem M k m.addr }
    majors := s.majors.set i (M.vacated k) }

/-- `new_free` of a pointer, where no block loses its last minor: it takes out the minor that the pointer
stands for, if there is one. -/
theorem newFree_cases {ptr : Nat} (hkeep : ¬Empties s ptr) (h : newFree s ptr = .ok t) :
    (t.mm = s.mm ∧ t.majors = s.majors ∧
      (ptr = 0 ∨ s.mm.mem.word (minorOf s ptr + 12) ≠ liballocMagic)) ∨
    ∃ i k M m, s.mm.mem.word (minorOf s ptr + 12) = liballocMagic ∧ s.majors[i]? = some M ∧
      M.minors[k]? = some m ∧ m.addr = minorOf s ptr ∧ (M.vacated k).minors ≠ [] ∧
      t.mm = (s.vacated i k M m).mm ∧ t.majors = (s.vacated i k M m).majors := by
  rcases newFree_ok h with ⟨h0, rfl⟩ | ⟨h0, u, hfree, rfl⟩
  · exact .inl ⟨rfl, rfl, .inl h0⟩
  · unfold freeLocked at hfree
    have hmm : s.locked.mm = s.mm := rfl
    rw [hmm] at hfree
    split_ifs at hfree with hmagic
    · cases hfree
      exact .inl ⟨rfl, rfl, .inr hmagic⟩
    · cases hfind : findMinor s.locked (minorOf s ptr) with
      | none =>
        rw [hfind] at hfree
        cases hfree
      | some r =>
        obtain ⟨i, k⟩ := r
        obtain ⟨M, m, hM, hm, haddr⟩ := findMinor_spec hfind
        have hne : (M.vacated k).minors ≠ [] := by
          intro hnil
          have hall := split_at hm
          have hpre : M.minors.take k = [] := (List.append_eq_nil_iff.mp hnil).1
          have hpost : M.minors.drop (k + 1) = [] := (List.append_eq_nil_iff.mp hnil).2
          rw [hpre, hpost, List.nil_append] at hall
          exact hkeep ⟨h0, not_not.mp hmagic, M, List.mem_of_getElem? hM, m, hall.symm, haddr⟩
        simp only [hfind, hM] at hfree
        rw [if_neg (by simpa using hne)] at hfree
        cases hfree
        refine .inr ⟨i, k, M, m, not_not.mp hmagic, hM, hm, haddr, hne, ?_, rfl⟩
        unfold State.vacated
        rw [haddr]

end Levos.Liballoc
