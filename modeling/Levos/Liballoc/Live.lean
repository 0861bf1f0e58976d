import Levos.Liballoc.Granted

namespace Levos.Liballoc

open Levos.Framework Levos.Memory

/-- The blocks that liballoc has given away and not got back. -/
def State.live (s : State) : List Minor := s.majors.flatMap Major.minors

section Live

variable {ms : List Major} {M N : Major} {i : Nat}

theorem live_set (hM : ms[i]? = some M) :
    ((ms.set i N).flatMap Major.minors).length + M.minors.length =
      (ms.flatMap Major.minors).length + N.minors.length := by
  induction ms generalizing i with
  | nil => cases hM
  | cons L ms ih =>
    cases i with
    | zero =>
      obtain rfl : L = M := by simpa using hM
      simp only [List.set_cons_zero, List.flatMap_cons, List.length_append]
      omega
    | succ i =>
      have hrest := ih (i := i) (by simpa using hM)
      simp only [List.set_cons_succ, List.flatMap_cons, List.length_append]
      omega

theorem live_erase (hM : ms[i]? = some M) (hempty : M.minors = []) :
    (ms.eraseIdx i).flatMap Major.minors = ms.flatMap Major.minors := by
  induction ms generalizing i with
  | nil => cases hM
  | cons L ms ih =>
    cases i with
    | zero =>
      obtain rfl : L = M := by simpa using hM
      simp [hempty]
    | succ i =>
      have hrest := ih (i := i) (by simpa using hM)
      simp only [List.eraseIdx_cons_succ, List.flatMap_cons, hrest]

variable {s t : State} {size reqSize fuel bestSize n p : Nat}

theorem allocateNewPage_live {O : Option Major} (h : allocateNewPage s size = .ok (O, t)) :
    t.live = s.live ∧ ∀ L, O = some L → (t.push L).live = s.live := by
  obtain ⟨⟨q, mm⟩, -, h⟩ := bind_eq_ok.mp h
  simp only at h
  split_ifs at h with h0
  · cases h
    exact ⟨rfl, by simp⟩
  · cases h
    refine ⟨rfl, ?_⟩
    intro L hL
    obtain rfl := Option.some.inj hL
    change (s.majors ++ [_]).flatMap Major.minors = s.majors.flatMap Major.minors
    simp

theorem search_live {startedBet : Bool} {r : Option (Nat × Place)}
    (h : search size fuel i startedBet bestSize s = .ok (r, t)) : t.live = s.live := by
  induction fuel generalizing i startedBet bestSize s with
  | zero => cases h
  | succ fuel ih =>
    rw [search] at h
    cases hL : s.majors[i]? with
    | none =>
      simp only [hL] at h
      cases h
      rfl
    | some L =>
      have hbetter : (s.better L bestSize).live = s.live := by rw [State.live, State.better_majors]; rfl
      simp only [hL] at h
      cases hroom : L.room size with
      | some pl =>
        simp only [hroom] at h
        cases h
        exact hbetter
      | none =>
        simp only [hroom] at h
        split_ifs at h
        · exact (ih h).trans hbetter
        · exact (ih h).trans hbetter
        all_goals
          obtain ⟨⟨O, s₁⟩, hnew, h⟩ := bind_eq_ok.mp h
          obtain ⟨hkept, hpush⟩ := allocateNewPage_live hnew
          cases O with
          | none =>
            cases h
            exact hkept.trans hbetter
          | some O =>
            simp only at h
            first
              | cases h
                exact (hpush O rfl).trans hbetter
              | exact ((ih h).trans (hpush O rfl)).trans hbetter

theorem mallocLocked_live (h : mallocLocked s size reqSize = .ok (p, t)) :
    (p = 0 ∧ t.live.length = s.live.length) ∨ t.live.length = s.live.length + 1 := by
  obtain ⟨s₁, hroot, h⟩ := bind_eq_ok.mp h
  have hfirst : s₁.live = s.live := by
    rw [ensureRoot] at hroot
    split_ifs at hroot
    · obtain ⟨⟨O, s₂⟩, hnew, hroot⟩ := bind_eq_ok.mp hroot
      obtain ⟨hkept, hpush⟩ := allocateNewPage_live hnew
      cases O with
      | none =>
        cases hroot
        exact hkept
      | some O =>
        cases hroot
        exact hpush O rfl
    · cases hroot
      rfl
  split_ifs at h
  · cases h
    exact .inl ⟨rfl, by rw [hfirst]⟩
  · obtain ⟨⟨place, s₂⟩, hfind, h⟩ := bind_eq_ok.mp h
    have hsearch : s₂.live = s₁.live := search_live hfind
    cases place with
    | none =>
      cases h
      exact .inl ⟨rfl, by rw [hsearch, hfirst]⟩
    | some place =>
      obtain ⟨j, pl⟩ := place
      cases hL : s₂.majors[j]? with
      | none =>
        simp only [hL] at h
        cases h
      | some L =>
        simp only [hL] at h
        obtain ⟨-, hmajors, -⟩ := occupy_ptr h
        have hset := live_set (N := L.occupied pl size reqSize) hL
        have hmore : (L.occupied pl size reqSize).minors.length = L.minors.length + 1 := by
          rw [← Major.Sound.pre_post L pl]
          simp only [Major.occupied, List.length_append, List.length_cons]
          omega
        rw [hmore, ← hmajors] at hset
        apply Or.inr
        rw [← hfirst, ← hsearch]
        unfold State.live
        omega

/-- `kmalloc` gives one block away, if it returns any. -/
theorem kmalloc_live (hsize : n + 80 < 2 ^ 32) (h : s.kmalloc n = .ok (p, t)) :
    s.live.length ≤ t.live.length ∧
      (s.mm.heapOnline = true → p ≠ 0 → t.live.length = s.live.length + 1) := by
  unfold State.kmalloc at h
  split_ifs at h with hon
  · obtain ⟨u, hmalloc, rfl⟩ := newMalloc_ok hsize h
    have hcount := mallocLocked_live hmalloc
    have hlocked : s.locked.live = s.live := rfl
    have hunlocked : State.live { u with lock := 0 } = u.live := rfl
    rw [hlocked] at hcount
    rw [hunlocked]
    refine ⟨by omega, ?_⟩
    intro _ h0
    exact hcount.resolve_left fun hzero => h0 hzero.1
  · obtain ⟨⟨addr, phys, mm⟩, -, h⟩ := bind_eq_ok.mp h
    cases h
    exact ⟨Nat.le_refl _, fun hon' => absurd hon' hon⟩

/-- `new_free` takes one block back at most. -/
theorem newFree_live (h : newFree s p = .ok t) : s.live.length ≤ t.live.length + 1 := by
  rcases newFree_ok h with ⟨-, rfl⟩ | ⟨-, u, hfree, rfl⟩
  · omega
  · change s.locked.live.length ≤ u.live.length + 1
    rw [freeLocked] at hfree
    split_ifs at hfree
    · cases hfree
      omega
    · cases hfind : findMinor s.locked (minorOf s p) with
      | none =>
        simp only [hfind] at hfree
        cases hfree
      | some r =>
        obtain ⟨j, k⟩ := r
        obtain ⟨L, m, hL, hm, -⟩ := findMinor_spec hfind
        have hset := live_set (N := L.vacated k) hL
        have hless : L.minors.length ≤ (L.vacated k).minors.length + 1 := by
          have hall := congrArg List.length (split_at hm)
          simp only [List.length_append, List.length_cons] at hall
          simp only [Major.vacated, List.length_append]
          omega
        have hlt := (List.getElem?_eq_some_iff.mp hL).1
        have hthere : (s.locked.majors.set j (L.vacated k))[j]? = some (L.vacated k) := by
          rw [List.getElem?_set_self hlt]
        simp only [hfind, hL] at hfree
        split_ifs at hfree with hempty
        · obtain ⟨mm, -, hdrop⟩ := bind_eq_ok.mp hfree
          cases hdrop
          have herase := live_erase hthere (List.isEmpty_iff.mp hempty)
          unfold State.live at hset ⊢
          rw [herase]
          omega
        · cases hfree
          change (s.majors.flatMap Major.minors).length ≤
            ((s.locked.majors.set j (L.vacated k)).flatMap Major.minors).length + 1
          change _ = (s.majors.flatMap Major.minors).length + _ at hset
          omega

end Live

end Levos.Liballoc
