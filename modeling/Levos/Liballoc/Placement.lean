import Levos.Liballoc.Chunks

namespace Levos.Liballoc

open Levos.Framework Levos.Memory

/-- No block has room for a request of `size` bytes. -/
def State.Full (s : State) (size : Nat) : Prop := ∀ M ∈ s.majors, M.room size = none

/-- No block in front of block `i` has room. -/
def State.Passed (s : State) (size i : Nat) : Prop :=
  ∀ k < i, ∀ M, s.majors[k]? = some M → M.room size = none

theorem State.Passed.next {s : State} {size i : Nat} {M : Major} (h : s.Passed size i)
    (hM : s.majors[i]? = some M) (hroom : M.room size = none) : s.Passed size (i + 1) := by
  intro k hk L hL
  by_cases hki : k = i
  · subst hki
    obtain rfl := Option.some.inj (hM.symm.trans hL)
    exact hroom
  · exact h k (by omega) L hL

theorem State.Passed.full {s : State} {size i : Nat} (h : s.Passed size i) (hi : s.majors.length ≤ i) :
    s.Full size := by
  intro L hL
  obtain ⟨k, hk⟩ := List.getElem?_of_mem hL
  have hlt := (List.getElem?_eq_some_iff.mp hk).1
  exact h k (by omega) L hk

/-- Where a request for `size` bytes goes: a block of `t` with room for it. Nothing but new, empty
blocks lies between `s` and `t`, and nothing at all in front of case 4.1. -/
structure Placed (s t : State) (size i : Nat) (M : Major) (pl : Place) : Prop where
  grown : Grown s t
  block : t.majors[i]? = some M
  room : M.room size = some pl
  tail : pl = .case4₁ → t.mm = s.mm ∧ t.majors = s.majors

theorem Placed.of_grown {s s₁ t : State} {size i : Nat} {M : Major} {pl : Place}
    (hg : Grown s s₁) (hmm : s₁.mm = s.mm) (hmajors : s₁.majors = s.majors)
    (h : Placed s₁ t size i M pl) : Placed s t size i M pl := by
  refine ⟨hg.trans h.grown, h.block, h.room, ?_⟩
  intro hpl
  rw [← hmm, ← hmajors]
  exact h.tail hpl

/-- The loop stops at a block with room. -/
theorem search_hit {size fuel i bestSize : Nat} {startedBet : Bool} {s t : State} {M : Major}
    {pl : Place} {r : Option (Nat × Place)} (hM : s.majors[i]? = some M) (hroom : M.room size = some pl)
    (h : search size fuel i startedBet bestSize s = .ok (r, t)) :
    r = some (i, pl) ∧ t = s.better M bestSize := by
  cases fuel with
  | zero => cases h
  | succ fuel =>
    rw [search] at h
    simp only [hM, hroom] at h
    cases h
    exact ⟨rfl, rfl⟩

/-- The loop over the blocks ends at a place for the request. -/
theorem search_spec {size fuel i bestSize : Nat} {startedBet : Bool} {s t : State}
    {r : Option (Nat × Place)} (hs : s.Sound) (hsize : size + majorHeader + minorHeader < 2 ^ 32)
    (hmem : s.Full size → FreeRun s.mm (pagesFor size)) (hi : i < s.majors.length)
    (hseen : startedBet = false → s.Passed size i)
    (h : search size fuel i startedBet bestSize s = .ok (r, t)) :
    ∃ j M pl, r = some (j, pl) ∧ Placed s t size j M pl := by
  induction fuel generalizing i startedBet bestSize s with
  | zero => cases h
  | succ fuel ih =>
    obtain ⟨M, hM⟩ : ∃ M, s.majors[i]? = some M := ⟨_, List.getElem?_eq_getElem hi⟩
    have hgrown := better_grown hs M bestSize
    have hmajors := s.better_majors M bestSize
    have hmm := s.better_mm M bestSize
    rw [search] at h
    simp only [hM, hmajors] at h
    generalize s.better M bestSize = s₁ at h hgrown hmajors hmm
    have hseen' (hroom : M.room size = none) (hbet : startedBet = false) : s₁.Passed size (i + 1) := by
      rw [State.Passed, hmajors]
      exact (hseen hbet).next hM hroom
    have hmem' : s₁.Full size → FreeRun s₁.mm (pagesFor size) := by
      rw [State.Full, hmajors, hmm]
      exact hmem
    cases hroom : M.room size with
    | some pl =>
      simp only [hroom] at h
      cases h
      exact ⟨i, M, pl, rfl, hgrown, by rw [hmajors]; exact hM, hroom, fun _ => ⟨hmm, hmajors⟩⟩
    | none =>
      simp only [hroom] at h
      split_ifs at h with hnext hbet
      · obtain ⟨j, N, pl, hr, hp⟩ := ih hgrown.sound hmem' (by rw [hmajors]; exact hnext)
          (hseen' hroom) h
        exact ⟨j, N, pl, hr, hp.of_grown hgrown hmm hmajors⟩
      · obtain ⟨j, N, pl, hr, hp⟩ := ih hgrown.sound hmem' (by rw [hmajors]; omega)
          (fun _ k hk => absurd hk (by omega)) h
        exact ⟨j, N, pl, hr, hp.of_grown hgrown hmm hmajors⟩
      all_goals
        -- all blocks were looked at: a new one serves the request
        have hfull : s₁.Full size :=
          (hseen' hroom (by simpa using hbet)).full (by rw [hmajors]; omega)
        obtain ⟨⟨N', s₂⟩, hnew, h⟩ := bind_eq_ok.mp h
        obtain ⟨N, rfl, hbrand, hpush, hgrown'⟩ :=
          allocateNewPage_spec hgrown.sound hsize (hmem' hfull) hnew
        have hlen : s₁.majors.length = i + 1 := by
          rw [hmajors]
          omega
        have hN : (s₂.push N).majors[i + 1]? = some N := by
          rw [hpush, ← hlen]
          simp
        refine ⟨i + 1, N, .case2, ?_⟩
      · cases h
        exact ⟨rfl, hgrown.trans hgrown', hN, hbrand.room, by simp⟩
      · obtain ⟨rfl, rfl⟩ := search_hit hN hbrand.room h
        have hbest := better_grown hgrown'.sound N (max bestSize (sub32 M.size M.usage))
        exact ⟨rfl, (hgrown.trans hgrown').trans hbest, by simpa using hN, hbrand.room, by simp⟩

/-- Where the loop begins there is a block, and no block in front of it is left out. -/
theorem startAt_spec {s : State} {size i n : Nat} {b : Bool} (hne : s.majors ≠ [])
    (h : startAt s size = (i, b, n)) : i < s.majors.length ∧ (b = false → i = 0) := by
  have hpos := List.length_pos_iff.mpr hne
  unfold startAt at h
  cases hbet : s.bestBet.bind fun b => s.majors.findIdx? fun M => M.addr = b with
  | none =>
    simp only [hbet] at h
    cases h
    exact ⟨hpos, fun _ => rfl⟩
  | some j =>
    simp only [hbet] at h
    cases hM : s.majors[j]? with
    | none =>
      simp only [hM] at h
      cases h
      exact ⟨hpos, fun _ => rfl⟩
    | some M =>
      simp only [hM] at h
      split_ifs at h
      · cases h
        exact ⟨(List.getElem?_eq_some_iff.mp hM).1, by simp⟩
      · cases h
        exact ⟨hpos, fun _ => rfl⟩

theorem findPlace_spec {size : Nat} {s t : State} {r : Option (Nat × Place)} (hs : s.Sound)
    (hsize : size + majorHeader + minorHeader < 2 ^ 32) (hne : s.majors ≠ [])
    (hmem : s.Full size → FreeRun s.mm (pagesFor size)) (h : findPlace s size = .ok (r, t)) :
    ∃ j M pl, r = some (j, pl) ∧ Placed s t size j M pl := by
  unfold findPlace at h
  obtain ⟨i, b, n, hstart⟩ : ∃ i b n, startAt s size = (i, b, n) := ⟨_, _, _, rfl⟩
  obtain ⟨hi, hb⟩ := startAt_spec hne hstart
  rw [hstart] at h
  apply search_spec hs hsize hmem hi ?_ h
  intro hbet k hk
  have := hb hbet
  omega

section Gap

variable {s : State} {M : Major} {z : Nat}

/-- A gap of a block has no header in it. -/
theorem gap_off (pl : Place) (hM : M.Sound) (h1 : M.gapStart pl ≤ z) (h2 : z < M.gapEnd pl) :
    M.Off z := by
  have hb := hM.gap_bounds pl
  refine ⟨by omega, ?_⟩
  intro m hm
  rw [← Major.Sound.pre_post M pl] at hm
  have hgap := (hM.packed_split pl).gap hm
  unfold Major.gapStart Major.gapEnd Minor.stop at *
  omega

/-- Nobody owns anything in a gap. -/
theorem gap_unowned (pl : Place) (hs : s.Sound) (hM : M ∈ s.majors)
    (h1 : M.gapStart pl ≤ z) (h2 : z < M.gapEnd pl) : ¬s.Owned z := by
  rintro ⟨L, hL, m, hm, hz⟩
  have hb := (hs.blocks M hM).gap_bounds pl
  have hh := hs.holds_bounds hL hm hz
  by_cases hLM : L = M
  · subst hLM
    rw [← Major.Sound.pre_post L pl] at hm
    have hgap := ((hs.blocks L hL).packed_split pl).gap hm
    unfold Major.gapStart Major.gapEnd at *
    omega
  · have := hs.disjoint hL hM hLM
    omega

end Gap

/-- From `s` to `t` liballoc gave `n` bytes at `p` away, which nobody owned, and nothing else that
is owned changed. -/
structure Serves (s t : State) (p n : Nat) : Prop where
  sound : t.Sound
  vars : SameVars s.mm t.mm
  plp : t.mm.plp = s.mm.plp
  positive : 0 < p
  bound : p + n < 2 ^ 32
  owned : ∀ z, t.Owned z ↔ s.Owned z ∨ p ≤ z ∧ z < p + n
  unowned : ∀ z, p ≤ z → z < p + n → ¬s.Owned z
  mem : ∀ z, s.Owned z → t.mm.mem z = s.mm.mem z

theorem Serves.of_grown {s s₁ t : State} {p n : Nat} (hg : Grown s s₁) (h : Serves s₁ t p n) :
    Serves s t p n := by
  refine ⟨h.sound, hg.vars.trans h.vars, h.plp.trans hg.plp, h.positive, h.bound,
    ?_, ?_, ?_⟩
  · intro z
    rw [h.owned z, hg.owned]
  · intro z h1 h2 hz
    exact h.unowned z h1 h2 (hg.owned.mpr hz)
  · intro z hz
    rw [h.mem z (hg.owned.mpr hz), hg.mem z hz]

/-- What belongs to the owners of a block when a minor joins it. -/
theorem owned_set {s : State} {M : Major} {i size reqSize : Nat} {pl : Place}
    (hM : s.majors[i]? = some M) (mm : Mm) (z : Nat) :
    State.Owned { s with mm := mm, majors := s.majors.set i (M.occupied pl size reqSize) } z ↔
      s.Owned z ∨ (M.newMinor pl size reqSize).Holds z := by
  have hmem (m : Minor) : m ∈ (M.occupied pl size reqSize).minors ↔
      m ∈ M.minors ∨ m = M.newMinor pl size reqSize := by
    rw [← Major.Sound.pre_post M pl]
    simp only [Major.occupied, List.mem_append, List.mem_cons]
    tauto
  have hlt := (List.getElem?_eq_some_iff.mp hM).1
  have hnew : M.occupied pl size reqSize ∈ s.majors.set i (M.occupied pl size reqSize) :=
    List.mem_set hlt _
  constructor
  · rintro ⟨L, hL, m, hm, hz⟩
    rcases List.mem_or_eq_of_mem_set hL with hL | rfl
    · exact .inl ⟨L, hL, m, hm, hz⟩
    · rcases (hmem m).mp hm with hm | rfl
      · exact .inl ⟨M, List.mem_of_getElem? hM, m, hm, hz⟩
      · exact .inr hz
  · rintro (⟨L, hL, m, hm, hz⟩ | hz)
    · obtain ⟨k, hk⟩ := List.getElem?_of_mem hL
      by_cases hki : i = k
      · subst hki
        obtain rfl := Option.some.inj (hM.symm.trans hk)
        exact ⟨_, hnew, m, (hmem m).mpr (.inl hm), hz⟩
      · have hset : (s.majors.set i (M.occupied pl size reqSize))[k]? = some L := by
          rw [List.getElem?_set_ne hki, hk]
        exact ⟨L, List.mem_of_getElem? hset, m, hm, hz⟩
    · exact ⟨_, hnew, _, (hmem _).mpr (.inr rfl), hz⟩

section Occupy

variable {s t : State} {M : Major} {i reqSize p : Nat} {pl : Place}

/-- Where the new minor and its pointer lie. -/
theorem newMinor_bounds (hM : M.Sound) (hroom : M.room (reqSize + 32) = some pl)
    (hsize : reqSize + 32 + minorHeader < 2 ^ 32) :
    M.gapStart pl + minorHeader + 16 ≤ (M.newMinor pl (reqSize + 32) reqSize).ptr ∧
      (M.newMinor pl (reqSize + 32) reqSize).ptr + reqSize < M.gapEnd pl := by
  have hgap := hM.room_gap hsize hroom
  have hb := hM.gap_bounds pl
  have hhigh := hM.high
  have haddr := hM.newMinor_addr pl (reqSize + 32) reqSize
  have hstop : (M.newMinor pl (reqSize + 32) reqSize).stop ≤ M.gapEnd pl := by
    unfold Minor.stop
    rw [haddr]
    exact hgap
  have hptr := Minor.ptr_bounds (m := M.newMinor pl (reqSize + 32) reqSize) rfl (by omega)
  have hreq : (M.newMinor pl (reqSize + 32) reqSize).reqSize = reqSize := rfl
  rw [haddr, hreq] at hptr
  omega

/-- A minor joins its block, and the memory changes in headers of the block and in the gap only. -/
theorem serves_of_gap {mem : Memory} (hs : s.Sound) (hM : s.majors[i]? = some M)
    (hroom : M.room (reqSize + 32) = some pl) (hsize : reqSize + 32 + minorHeader < 2 ^ 32)
    (hkeep : ∀ z, (z < M.gapStart pl ∨ M.gapEnd pl ≤ z) → M.Off z → mem z = s.mm.mem z) :
    Serves s { s with
      mm := { s.mm with mem := mem }
      majors := s.majors.set i (M.occupied pl (reqSize + 32) reqSize) }
      (M.newMinor pl (reqSize + 32) reqSize).ptr reqSize := by
  have hmem := List.mem_of_getElem? hM
  have hsound := hs.blocks M hmem
  have hgap := hsound.room_gap hsize hroom
  have hb := hsound.gap_bounds pl
  have hbehind := (hs.chunks M hmem).behind
  have hhigh := hsound.high
  have hptr := newMinor_bounds hsound hroom hsize
  have hagree : Memory.Agree 0 s.mm.plp s.mm.mem mem := by
    intro z _ hz
    apply hkeep z (by omega)
    refine ⟨by omega, ?_⟩
    intro m hm
    have := hsound.bounds hm
    omega
  refine ⟨?_, rfl, rfl, by omega, by omega, fun z => owned_set hM _ z, ?_, ?_⟩
  · exact (hs.replace hM (hsound.occupied rfl hgap) rfl rfl).write hagree
  · intro z h1 h2
    exact gap_unowned pl hs hmem (by omega) (by omega)
  · intro z hz
    apply hkeep z ?_ (hs.owned_off hz hmem)
    by_contra hin
    exact gap_unowned pl hs hmem (by omega) (by omega) hz

/-- The end of a placement: the bytes are given away, clean unless it is case 4.1, which leaves
them as they are. -/
theorem occupy_spec (hs : s.Sound) (hM : s.majors[i]? = some M)
    (hroom : M.room (reqSize + 32) = some pl) (hsize : reqSize + 32 + minorHeader < 2 ^ 32)
    (h : occupy s i M pl (reqSize + 32) reqSize = .ok (p, t)) :
    Serves s t p reqSize ∧ p = (M.newMinor pl (reqSize + 32) reqSize).ptr ∧
      ∀ z, p ≤ z → z < p + reqSize → t.mm.mem z = if pl = .case4₁ then s.mm.mem z else 0 := by
  have hsound := hs.blocks M (List.mem_of_getElem? hM)
  have hgap := hsound.room_gap hsize hroom
  have hb := hsound.gap_bounds pl
  have hhigh := hsound.high
  have haddr := hsound.newMinor_addr pl (reqSize + 32) reqSize
  have hptr := newMinor_bounds hsound hroom hsize
  have hstop : (M.newMinor pl (reqSize + 32) reqSize).stop < 2 ^ 32 := by
    unfold Minor.stop
    rw [haddr]
    change M.gapStart pl + minorHeader + (reqSize + 32) < 2 ^ 32
    omega
  have hheads (z : Nat) (hoff : M.Off z)
      (hz : z < M.gapStart pl ∨ (M.newMinor pl (reqSize + 32) reqSize).ptr ≤ z) :
      occupyMem s.mm.mem M pl (reqSize + 32) reqSize z = s.mm.mem z :=
    occupyMem_apply hstop rfl hoff (by rw [haddr]; exact hz)
  simp only [occupy] at h
  split_ifs at h with hpl
  · cases h
    refine ⟨serves_of_gap hs hM hroom hsize ?_, rfl, ?_⟩
    · intro z hz hoff
      exact hheads z hoff (by omega)
    · intro z h1 h2
      rw [if_pos hpl]
      exact hheads z (gap_off pl hsound (by omega) (by omega)) (.inr h1)
  · cases h
    refine ⟨serves_of_gap hs hM hroom hsize ?_, rfl, ?_⟩
    · intro z hz hoff
      exact (Memory.fill_apply (by omega)).trans (hheads z hoff (by omega))
    · intro z h1 h2
      rw [if_neg hpl]
      exact if_pos ⟨h1, h2⟩

end Occupy

/-- Case 4.1 serves a request of `reqSize` bytes, with the pointer `p`. -/
def TailServes (s : State) (reqSize p : Nat) : Prop :=
  ∃ i M t, findPlace s (reqSize + 32) = .ok (some (i, .case4₁), t) ∧ s.majors[i]? = some M ∧
    p = (M.newMinor .case4₁ (reqSize + 32) reqSize).ptr

/-- The requests that a heap in state `s` can meet: their size does not wrap, and if no block has
room for them memory has the pages for a new one. -/
structure Fits (s : State) (reqSize : Nat) : Prop where
  size : reqSize + 80 < 2 ^ 32
  memory : s.Full (reqSize + 32) → FreeRun s.mm (pagesFor (reqSize + 32))

/-- The heap always has a first block when the search for a place begins. -/
theorem ensureRoot_spec {s t : State} {size : Nat} (hs : s.Sound)
    (hsize : size + majorHeader + minorHeader < 2 ^ 32)
    (hmem : s.Full size → FreeRun s.mm (pagesFor size)) (h : ensureRoot s size = .ok t) :
    (s.majors ≠ [] ∧ t = s) ∨
      (s.majors = [] ∧ Grown s t ∧ ∃ N : Major, t.majors = [N] ∧ N.Brand size) := by
  unfold ensureRoot at h
  cases hms : s.majors with
  | cons M Ms =>
    simp only [hms] at h
    cases h
    exact .inl ⟨by simp, rfl⟩
  | nil =>
    simp only [hms, List.isEmpty_nil, if_true] at h
    obtain ⟨⟨root, s₁⟩, hnew, h⟩ := bind_eq_ok.mp h
    have hfull : s.Full size := by
      intro M hM
      rw [hms] at hM
      cases hM
    obtain ⟨N, rfl, hbrand, hpush, hgrown⟩ := allocateNewPage_spec hs hsize (hmem hfull) hnew
    cases h
    exact .inr ⟨rfl, hgrown, N, by rw [hpush, hms]; rfl, hbrand⟩

/-- When the search begins there is a block, and pages for another one where none has room. -/
theorem ensureRoot_ready {s t : State} {size : Nat} (hs : s.Sound)
    (hsize : size + majorHeader + minorHeader < 2 ^ 32)
    (hmem : s.Full size → FreeRun s.mm (pagesFor size)) (h : ensureRoot s size = .ok t) :
    Grown s t ∧ t.majors ≠ [] ∧ (t.Full size → FreeRun t.mm (pagesFor size)) := by
  rcases ensureRoot_spec hs hsize hmem h with ⟨hne, rfl⟩ | ⟨-, hgrown, N, hN, hbrand⟩
  · exact ⟨.refl hs, hne, hmem⟩
  · refine ⟨hgrown, by simp [hN], ?_⟩
    intro hfull
    have hnone := hfull N (by simp [hN])
    rw [hbrand.room] at hnone
    cases hnone

/-- Case 4.1 is the case of the code exactly when it is the case of the state before. -/
theorem tailServes_iff {s s₁ s₂ : State} {reqSize j p : Nat} {M : Major} {pl : Place}
    (hs : s.Sound) (hfit : Fits s reqSize) (hsize : reqSize + 32 + majorHeader + minorHeader < 2 ^ 32)
    (hroot : ensureRoot s (reqSize + 32) = .ok s₁)
    (hfind : findPlace s₁ (reqSize + 32) = .ok (some (j, pl), s₂))
    (hplaced : Placed s₁ s₂ (reqSize + 32) j M pl)
    (hp : p = (M.newMinor pl (reqSize + 32) reqSize).ptr) :
    (TailServes s reqSize p ↔ pl = .case4₁) ∧ (pl = .case4₁ → s₁ = s) := by
  rcases ensureRoot_spec hs hsize hfit.memory hroot with ⟨-, rfl⟩ | ⟨hnil, -, N, hN, hbrand⟩
  · refine ⟨⟨?_, ?_⟩, fun _ => rfl⟩
    · rintro ⟨i, L, u, hfind', -, -⟩
      have heq := Except.ok.inj (hfind.symm.trans hfind')
      simp only [Prod.mk.injEq, Option.some.injEq] at heq
      exact heq.1.2
    · rintro rfl
      exact ⟨j, M, s₂, hfind, (hplaced.tail rfl).2 ▸ hplaced.block, hp⟩
  · -- a new block has room in front of its end
    have hnot : pl ≠ .case4₁ := by
      intro hpl
      have hblock := hplaced.block
      rw [(hplaced.tail hpl).2, hN] at hblock
      obtain rfl := List.mem_singleton.mp (List.mem_of_getElem? hblock)
      have hroom := hplaced.room
      rw [hbrand.room, hpl] at hroom
      cases hroom
    refine ⟨⟨?_, fun hpl => absurd hpl hnot⟩, fun hpl => absurd hpl hnot⟩
    rintro ⟨i, L, u, -, hL, -⟩
    simp [hnil] at hL

/-- What `new_malloc` does while it holds the lock. -/
theorem mallocLocked_spec {s t : State} {reqSize p : Nat} (hs : s.Sound) (hfit : Fits s reqSize)
    (h : mallocLocked s (reqSize + 32) reqSize = .ok (p, t)) :
    Serves s t p reqSize ∧
      (TailServes s reqSize p → ∀ z, p ≤ z → z < p + reqSize → t.mm.mem z = s.mm.mem z) ∧
      (¬TailServes s reqSize p → ∀ z, p ≤ z → z < p + reqSize → t.mm.mem z = 0) := by
  have hsize' : reqSize + 32 + majorHeader + minorHeader < 2 ^ 32 := by
    have hsize := hfit.size
    unfold majorHeader minorHeader
    omega
  obtain ⟨s₁, hroot, h⟩ := bind_eq_ok.mp h
  obtain ⟨hgrown, hne, hmem₁⟩ := ensureRoot_ready hs hsize' hfit.memory hroot
  rw [if_neg (by simpa using hne)] at h
  obtain ⟨⟨place, s₂⟩, hfind, h⟩ := bind_eq_ok.mp h
  obtain ⟨j, M, pl, rfl, hplaced⟩ := findPlace_spec hgrown.sound hsize' hne hmem₁ hfind
  simp only [hplaced.block] at h
  obtain ⟨hserves, hp, hbytes⟩ := occupy_spec hplaced.grown.sound hplaced.block hplaced.room
    (by unfold majorHeader at hsize'; omega) h
  obtain ⟨htail, hkept⟩ := tailServes_iff hs hfit hsize' hroot hfind hplaced hp
  refine ⟨(hserves.of_grown hplaced.grown).of_grown hgrown, ?_, ?_⟩
  · intro ht z h1 h2
    have hpl := htail.mp ht
    rw [hbytes z h1 h2, if_pos hpl, (hplaced.tail hpl).1, hkept hpl]
  · intro ht z h1 h2
    rw [hbytes z h1 h2, if_neg (htail.not.mp ht)]

/-- The heap behind `liballoc_lock`. -/
def State.locked (s : State) : State := { s with lock := 1 }

theorem liballocLock_ok {s t : State} (h : liballocLock s = .ok t) : t = s.locked := by
  unfold liballocLock at h
  split_ifs at h
  cases h
  rfl

theorem liballocUnlock_ok {s t : State} (h : liballocUnlock s = .ok t) : t = { s with lock := 0 } := by
  unfold liballocUnlock at h
  split_ifs at h
  cases h
  rfl

/-- `new_malloc` for a size that does not wrap. -/
theorem newMalloc_ok {s t : State} {n p : Nat} (hsize : n + 80 < 2 ^ 32)
    (h : newMalloc s n = .ok (p, t)) :
    ∃ u, mallocLocked s.locked (n + 32) n = .ok (p, u) ∧ t = { u with lock := 0 } := by
  have hwrap : wrap (n + 32) = n + 32 := wrap_of_lt (by omega)
  simp only [newMalloc, hwrap] at h
  obtain ⟨s₁, hlock, h⟩ := bind_eq_ok.mp h
  rw [if_neg (by omega)] at h
  obtain ⟨⟨q, u⟩, hmalloc, h⟩ := bind_eq_ok.mp h
  obtain ⟨s₂, hunlock, h⟩ := bind_eq_ok.mp h
  cases h
  obtain rfl := liballocLock_ok hlock
  exact ⟨u, hmalloc, liballocUnlock_ok hunlock⟩

/-- `new_malloc` from a sound heap, for a request that it can meet. -/
theorem newMalloc_spec {s t : State} {reqSize p : Nat} (hs : s.Sound) (hfit : Fits s reqSize)
    (h : newMalloc s reqSize = .ok (p, t)) :
    Serves s t p reqSize ∧
      (TailServes s.locked reqSize p → ∀ z, p ≤ z → z < p + reqSize → t.mm.mem z = s.mm.mem z) ∧
      (¬TailServes s.locked reqSize p → ∀ z, p ≤ z → z < p + reqSize → t.mm.mem z = 0) := by
  obtain ⟨u, hmalloc, rfl⟩ := newMalloc_ok hfit.size h
  have hlocked : s.locked.Sound := hs.of_eq rfl rfl
  obtain ⟨hserves, htail, hclean⟩ := mallocLocked_spec hlocked ⟨hfit.size, hfit.memory⟩ hmalloc
  obtain ⟨hsound, hv, hplp, hpos, hbound, howned, hunowned, hmem⟩ := hserves
  exact ⟨⟨hsound.of_eq rfl rfl, hv, hplp, hpos, hbound, howned, hunowned, hmem⟩, htail, hclean⟩

/-- What `find_minor` finds lies at the address it was asked for. -/
theorem findMinor_spec {s : State} {a i k : Nat} (h : findMinor s a = some (i, k)) :
    ∃ M m, s.majors[i]? = some M ∧ M.minors[k]? = some m ∧ m.addr = a := by
  obtain ⟨j, hj, h⟩ := Option.bind_eq_some_iff.mp h
  obtain ⟨k', hk, h⟩ := Option.map_eq_some_iff.mp h
  cases h
  obtain ⟨M, hM, hk⟩ := Option.bind_eq_some_iff.mp hk
  obtain ⟨hlt, heq, -⟩ := List.findIdx?_eq_some_iff_getElem.mp hk
  exact ⟨M, M.minors[k], hM, List.getElem?_eq_getElem hlt, by simpa using heq⟩

/-- The minor that a pointer stands for, as `new_free` reads it off the pointer. -/
def minorOf (s : State) (ptr : Nat) : Nat := sub32 (unalign s.mm.mem ptr) minorHeader

/-- `new_free` of `ptr` takes the last minor of some block. -/
def Empties (s : State) (ptr : Nat) : Prop :=
  ptr ≠ 0 ∧ s.mm.mem.word (minorOf s ptr + 12) = liballocMagic ∧
    ∃ M ∈ s.majors, ∃ m, M.minors = [m] ∧ m.addr = minorOf s ptr

/-- From `s` to `t` liballoc took bytes back, and nothing that is still owned changed. -/
structure Releases (s t : State) : Prop where
  sound : t.Sound
  owned : ∀ z, t.Owned z → s.Owned z
  mem : ∀ z, t.Owned z → t.mm.mem z = s.mm.mem z

/-- Freeing a minor writes headers of its block. -/
theorem vacateMem_apply {mem : Memory} {M : Major} {m : Minor} {k z : Nat} (hm : M.minors[k]? = some m)
    (hz : M.Off z) : vacateMem mem M k m.addr z = mem z := by
  obtain ⟨hM, hall⟩ := hz
  have hself := hall m (List.mem_of_getElem? hm)
  unfold majorHeader at hM
  unfold minorHeader at hself hall
  unfold vacateMem
  have hnext (n : Minor) (h : (M.minors.drop (k + 1)).head? = some n) :=
    hall n (List.mem_of_mem_drop (List.mem_of_head? h))
  have hprev (y : Minor) (h : (M.minors.take k).getLast? = some y) :=
    hall y (List.mem_of_mem_take (List.mem_of_getLast? h))
  have hfirst (w : BitVec 32) :
      ((mem.setWord (M.addr + 16) w).setWord (m.addr + 12) liballocDead) z = mem z :=
    (Memory.setWord_apply (by omega)).trans (Memory.setWord_apply (by omega))
  cases hp : (M.minors.take k).getLast? with
  | none =>
    apply (Memory.setWord_apply (by omega)).trans
    cases hn : (M.minors.drop (k + 1)).head? with
    | none => exact hfirst _
    | some n =>
      have := hnext n hn
      exact (Memory.setWord_apply (by omega)).trans (hfirst _)
  | some y =>
    have := hprev y hp
    apply (Memory.setWord_apply (by omega)).trans
    cases hn : (M.minors.drop (k + 1)).head? with
    | none => exact hfirst _
    | some n =>
      have := hnext n hn
      exact (Memory.setWord_apply (by omega)).trans (hfirst _)

theorem split_at {α : Type} {xs : List α} {x : α} {k : Nat} (h : xs[k]? = some x) :
    xs.take k ++ x :: xs.drop (k + 1) = xs := by
  obtain ⟨hlt, rfl⟩ := List.getElem?_eq_some_iff.mp h
  rw [← List.drop_eq_getElem_cons hlt, List.take_append_drop]

/-- A block that loses one of its minors. -/
theorem Major.Sound.vacated {M : Major} {m : Minor} {k : Nat} (hM : M.Sound)
    (hm : M.minors[k]? = some m) (hne : (M.vacated k).minors ≠ []) : (M.vacated k).Sound := by
  refine ⟨hM.low, hM.high, ?_, ?_, fun hnil => absurd hnil hne⟩
  · have hp := hM.packed
    rw [← split_at hm] at hp
    exact hp.remove
  · intro y hy
    apply hM.sizes y
    rcases List.mem_append.mp hy with hy | hy
    · exact List.mem_of_mem_take hy
    · exact List.mem_of_mem_drop hy

/-- `new_free` while it holds the lock, where the block keeps other minors. -/
theorem freeLocked_spec {s t : State} {a : Nat} (hs : s.Sound)
    (hkeep : s.mm.mem.word (a + 12) = liballocMagic →
      ∀ M ∈ s.majors, ∀ m, M.minors = [m] → m.addr ≠ a)
    (h : freeLocked s a = .ok t) : Releases s t := by
  unfold freeLocked at h
  split_ifs at h with hmagic
  · cases h
    exact ⟨hs, fun _ hz => hz, fun _ _ => rfl⟩
  · cases hfind : findMinor s a with
    | none => simp [hfind] at h
    | some r =>
      obtain ⟨i, k⟩ := r
      obtain ⟨M, m, hM, hm, rfl⟩ := findMinor_spec hfind
      have hmem := List.mem_of_getElem? hM
      have hsound := hs.blocks M hmem
      have hne : (M.vacated k).minors ≠ [] := by
        intro hnil
        have hone : M.minors = [m] := by
          have hall := split_at hm
          have hpre : M.minors.take k = [] := (List.append_eq_nil_iff.mp hnil).1
          have hpost : M.minors.drop (k + 1) = [] := (List.append_eq_nil_iff.mp hnil).2
          rw [← hall, hpre, hpost]
          rfl
        exact hkeep (not_not.mp hmagic) M hmem m hone rfl
      simp only [hfind, hM] at h
      rw [if_neg (by simpa using hne)] at h
      cases h
      have hbehind := (hs.chunks M hmem).behind
      have hoff (z : Nat) (hz : z < s.mm.plp) : M.Off z := by
        refine ⟨by omega, ?_⟩
        intro y hy
        have := hsound.bounds hy
        omega
      have hagree : Memory.Agree 0 s.mm.plp s.mm.mem (vacateMem s.mm.mem M k m.addr) :=
        fun z _ hz => vacateMem_apply hm (hoff z hz)
      have hreplace := (hs.replace hM (hsound.vacated hm hne) rfl rfl).write hagree
      have howned (z : Nat) (hz : State.Owned { s with
          mm := { s.mm with mem := vacateMem s.mm.mem M k m.addr }
          majors := s.majors.set i (M.vacated k) } z) : s.Owned z := by
        obtain ⟨L, hL, y, hy, hz⟩ := hz
        rcases List.mem_or_eq_of_mem_set hL with hL | rfl
        · exact ⟨L, hL, y, hy, hz⟩
        · refine ⟨M, hmem, y, ?_, hz⟩
          rcases List.mem_append.mp hy with hy | hy
          · exact List.mem_of_mem_take hy
          · exact List.mem_of_mem_drop hy
      refine ⟨hreplace.of_eq rfl rfl, howned, ?_⟩
      intro z hz
      exact vacateMem_apply hm (hs.owned_off (howned z hz) hmem)

theorem newFree_ok {s t : State} {ptr : Nat} (h : newFree s ptr = .ok t) :
    (ptr = 0 ∧ t = s) ∨ ptr ≠ 0 ∧
      ∃ u, freeLocked s.locked (minorOf s ptr) = .ok u ∧ t = { u with lock := 0 } := by
  unfold newFree at h
  split_ifs at h with h0
  · cases h
    exact .inl ⟨h0, rfl⟩
  · obtain ⟨s₁, hlock, h⟩ := bind_eq_ok.mp h
    obtain ⟨u, hfree, hunlock⟩ := bind_eq_ok.mp h
    obtain rfl := liballocLock_ok hlock
    exact .inr ⟨h0, u, hfree, liballocUnlock_ok hunlock⟩

/-- `new_free` of a pointer, where no block loses its last minor. -/
theorem newFree_spec {s t : State} {ptr : Nat} (hs : s.Sound) (hkeep : ¬Empties s ptr)
    (h : newFree s ptr = .ok t) : Releases s t := by
  rcases newFree_ok h with ⟨-, rfl⟩ | ⟨h0, u, hfree, rfl⟩
  · exact ⟨hs, fun _ hz => hz, fun _ _ => rfl⟩
  · have hlocked : s.locked.Sound := hs.of_eq rfl rfl
    obtain ⟨hsound, howned, hmem⟩ := freeLocked_spec hlocked
      (fun hmagic M hM m hm ha => hkeep ⟨h0, hmagic, M, hM, m, hm, ha⟩) hfree
    exact ⟨hsound.of_eq rfl rfl, howned, hmem⟩

end Levos.Liballoc
