import Levos.Scheduler.Safety

namespace Levos.Scheduler

open Levos.Framework

/-- A queued thread that `sched_select` may return. -/
def Eligible (s : Kernel) (t : Nat) : Prop := Queued s t ∧ s.mayRun t

/-- The eligible threads in slot order. -/
def Kernel.eligibleThreads (s : Kernel) : List Nat :=
  ((List.range threadQueueSize).filter s.eligible).filterMap s.slot

theorem eligible_slot {s : Kernel} {t : Nat} :
    Eligible s t ↔ ∃ i, s.slot i = some t ∧ s.eligible i = true := by
  constructor
  · rintro ⟨hq, hm⟩
    obtain ⟨i, hi⟩ := queued_slot.mp hq
    exact ⟨i, hi, eligible_iff.mpr ⟨t, hi, hm⟩⟩
  · rintro ⟨i, hi, he⟩
    obtain ⟨u, hu, hm⟩ := eligible_iff.mp he
    obtain rfl : t = u := Option.some.inj (hi.symm.trans hu)
    exact ⟨queued_slot.mpr ⟨i, hi⟩, hm⟩

namespace Consistent

variable {added added' : List Nat} {s s' : Kernel} {l : Label}

theorem slot_inj (h : Consistent added s) {i j t : Nat} (hi : s.slot i = some t)
    (hj : s.slot j = some t) : i = j := by
  obtain ⟨hil, hi'⟩ := slot_eq_some.mp hi
  obtain ⟨hjl, hj'⟩ := slot_eq_some.mp hj
  exact congrArg Fin.val (h.once ⟨i, hil⟩ ⟨j, hjl⟩ t hi' hj')

theorem slot_stable (h : Consistent added s) (hset : Settled s) (hstep : Step s l s') {i t : Nat}
    (ht : s.slot i = some t) : s'.slot i = some t := by
  obtain ⟨hi, ht'⟩ := slot_eq_some.mp ht
  exact slot_eq_some.mpr ⟨hi, h.slot_step hset hstep ht'⟩

/-- The idle thread can be returned only while it is alone in the queue. -/
theorem mayRun_idle (h : Consistent added s) {t u : Nat} (ht : Queued s t) (hm : s.mayRun t)
    (hp : s.pidOf t = 0) (hu : Queued s u) : u = t := by
  by_contra hne
  obtain ⟨i, hi⟩ := ht
  obtain ⟨j, hj⟩ := hu
  have hij : i ≠ j := fun e => hne (Option.some.inj (hj.symm.trans (e ▸ hi)))
  have hcard : 1 < occupied s.threadQueue :=
    Finset.one_lt_card.mpr ⟨i, by simp [hi], j, by simp [hj], hij⟩
  have hcount := h.count
  exact hm.2 ⟨hp, by omega⟩

/-- A call in a consistent state comes back with an eligible thread. -/
theorem schedSelect_returns (h : Consistent added s) :
    ∃ t s', schedSelect s = .ok (t, s') ∧ Queued s t ∧ (s.thread t).state ≠ .zombie ∧
      (s.pidOf t = 0 → ∀ u, Queued s u → u = t) := by
  obtain ⟨i, t, hi, ht, hm⟩ := h.scan_some
  have hq : Queued s t := queued_slot.mpr ⟨i, ht⟩
  exact ⟨t, _, schedSelect_some hi ht, hq, hm.1, fun hp u hu => h.mayRun_idle hq hm hp hu⟩

/-- What a step that calls `sched_select` does to the cursor. A thread that is eligible before and
after was eligible for the call as well, although the call ran in between. -/
theorem select_step (h : Consistent added s) (hset : Settled s) (hstep : Step s l s') :
    (selectedBy l = none ∧ s'.cursor = s.cursor) ∨
    (∃ i t, selectedBy l = some t ∧ s.slot i = some t ∧
      Cyclic.scan s'.eligible threadQueueSize s.cursor = some i ∧
      s'.cursor = Cyclic.next threadQueueSize i) := by
  rcases h.step_cases hset hstep with ⟨rfl, rfl⟩ | ⟨g, rc, rfl, hs⟩ |
    ⟨hq, u, th, -, -, -, rfl, -⟩ | ⟨c, th, i, t, -, -, -, -, -, hi, ht, hm, hsel, rfl⟩
  · exact .inl ⟨rfl, rfl⟩
  · refine .inl ⟨rfl, ?_⟩
    have hnext : s'.schedNext = s.schedNext := (create_fields g hs).2.2
    rw [Kernel.cursor, Kernel.cursor, hnext]
  · obtain ⟨e, o⟩ := l
    obtain rfl : o = .quiet := hq
    exact .inl ⟨rfl, rfl⟩
  · obtain ⟨e, o⟩ := l
    obtain rfl : o = .selected t := hsel
    refine .inr ⟨i, t, rfl, ht, ?_, dispatch_cursor _ i t⟩
    rw [dispatch_eligible hm]
    exact hi

/-- What a selecting step returned was queued, alive and, unless alone, not the idle thread. -/
theorem selected_step (h : Consistent added s) (hset : Settled s) (hstep : Step s l s') {t : Nat}
    (hl : selectedBy l = some t) :
    Queued s t ∧ (s.thread t).state ≠ .zombie ∧ (l.1 = .exit → s.current ≠ some t) ∧
      (s.pidOf t = 0 → ∀ u, Queued s u → u = t) := by
  rcases h.step_cases hset hstep with ⟨rfl, -⟩ | ⟨g, rc, rfl, -⟩ |
    ⟨hq, -⟩ | ⟨c, th, i, u, hc, ho, -, hz, -, -, ht, hm, hsel, -⟩
  · cases hl
  · cases hl
  · obtain ⟨e, o⟩ := l
    obtain rfl : o = .quiet := hq
    cases hl
  · obtain ⟨e, o⟩ := l
    obtain rfl : o = .selected u := hsel
    obtain rfl : u = t := Option.some.inj hl
    have hqu : Queued s u := queued_slot.mpr ⟨i, ht⟩
    have hmid : (s.thread u).state ≠ .zombie := by
      by_cases huc : u = c
      · exact huc ▸ hset c hc
      · have := hm.1
        rwa [setThread_thread_ne s th huc] at this
    have hpid : s.mayRun u :=
      ⟨hmid, by rw [← setThread_pidOf s c u th ho]; exact hm.2⟩
    refine ⟨hqu, hmid, ?_, fun hp v hv => h.mayRun_idle hqu hpid hp hv⟩
    intro he hcu
    obtain rfl : c = u := Option.some.inj (hc.symm.trans hcu)
    have := hm.1
    rw [setThread_thread] at this
    exact this (hz.1.mpr he)

/-- An eligible thread that a call passes over comes nearer to the cursor. -/
theorem dist_step (h : Consistent added s) (hset : Settled s) (hstep : Step s l s') {i t : Nat}
    (hi : s.slot i = some t) (he : Eligible s' t) (hne : selectedBy l ≠ some t) :
    s'.slot i = some t ∧ Cyclic.dist threadQueueSize s'.cursor i + (selectedBy l).toList.length ≤
      Cyclic.dist threadQueueSize s.cursor i := by
  have hi' := h.slot_stable hset hstep hi
  refine ⟨hi', ?_⟩
  rcases h.select_step hset hstep with ⟨hl, hcur⟩ | ⟨j, u, hl, hj, hscan, hcur⟩
  · simp [hl, hcur]
  · have hij : i ≠ j := by
      rintro rfl
      exact hne (hl.trans (hj.symm.trans hi))
    have hei : s'.eligible i = true := eligible_iff.mpr ⟨t, hi', he.2⟩
    have hlt := Cyclic.dist_scan_lt (cursor_lt s) hscan (eligible_lt hei) hei hij
    rw [hcur, hl]
    exact hlt

/-- Where the eligible threads stay the same, so do the eligible slots. -/
theorem eligible_const (h : Consistent added s) (h' : Consistent added' s') (hset : Settled s)
    (hstep : Step s l s') (hsame : ∀ t, Eligible s t ↔ Eligible s' t) :
    s'.eligible = s.eligible := by
  funext i
  rw [Bool.eq_iff_iff, eligible_iff, eligible_iff]
  constructor
  · rintro ⟨t, ht, hm⟩
    obtain ⟨j, hj, he⟩ := eligible_slot.mp ((hsame t).mpr ⟨queued_slot.mpr ⟨i, ht⟩, hm⟩)
    obtain rfl := h'.slot_inj ht (h.slot_stable hset hstep hj)
    exact eligible_iff.mp he
  · rintro ⟨t, ht, hm⟩
    exact ⟨t, h.slot_stable hset hstep ht, ((hsame t).mp ⟨queued_slot.mpr ⟨i, ht⟩, hm⟩).2⟩

end Consistent

theorem selectedIn_cons (l : Label) (ms : List Label) :
    selectedIn (l :: ms) = (selectedBy l).toList ++ selectedIn ms := by
  cases h : selectedBy l <;> simp [selectedIn, h]

/-- The calls that a run can make without returning an eligible thread are at most as many as the
cursor has slots to pass before it. -/
theorem dist_run {added : List Nat} {ms : List Label} {s s' : Kernel} {i t : Nat}
    (h : Consistent added s) (hset : Settled s)
    (hrun : Run (fun s l s' => Eligible s t ∧ Step s l s' ∧ Eligible s' t) s ms s')
    (hi : s.slot i = some t) (hnot : t ∉ selectedIn ms) :
    Cyclic.dist threadQueueSize s'.cursor i + (selectedIn ms).length ≤
      Cyclic.dist threadQueueSize s.cursor i := by
  induction hrun generalizing added with
  | nil s => simp [selectedIn]
  | @cons s s₁ s' l ms hst _ ih =>
    obtain ⟨-, hst, he⟩ := hst
    rw [selectedIn_cons] at hnot ⊢
    obtain ⟨hnl, hnms⟩ : t ∉ (selectedBy l).toList ∧ t ∉ selectedIn ms := by
      simpa [not_or] using hnot
    obtain ⟨hi₁, hle⟩ := h.dist_step hset hst hi he (by simpa using hnl)
    obtain ⟨h1, h2⟩ := h.step hset hst
    have hrest := ih h1 h2 hi₁ hnms
    rw [List.length_append]
    omega

/-- While the eligible threads stay the same, the calls return the next turns of the cursor. -/
theorem turns_run {added : List Nat} {ms : List Label} {s s' : Kernel} {E : Nat → Prop}
    (h : Consistent added s) (hset : Settled s)
    (hrun : Run (fun s l s' => (∀ t, Eligible s t ↔ E t) ∧ Step s l s' ∧
      ∀ t, Eligible s' t ↔ E t) s ms s')
    (hle : (selectedIn ms).length ≤ (Cyclic.turns s.eligible threadQueueSize s.cursor).length) :
    (selectedIn ms).map some =
      ((Cyclic.turns s.eligible threadQueueSize s.cursor).take (selectedIn ms).length).map
        s.slot := by
  induction hrun generalizing added with
  | nil s => rfl
  | @cons s s₁ s' l ms hst _ ih =>
    obtain ⟨hE, hst, hE₁⟩ := hst
    obtain ⟨h1, h2⟩ := h.step hset hst
    have hel : s₁.eligible = s.eligible :=
      h.eligible_const h1 hset hst fun t => (hE t).trans (hE₁ t).symm
    have stable (L : List Nat) (hL : ∀ i ∈ L, s.eligible i = true) : L.map s₁.slot = L.map s.slot := by
      refine List.map_congr_left fun i hi => ?_
      obtain ⟨t, ht, -⟩ := eligible_iff.mp (hL i hi)
      rw [ht, h.slot_stable hset hst ht]
    rw [selectedIn_cons] at hle ⊢
    rcases h.select_step hset hst with ⟨hl, hcur⟩ | ⟨i, t, hl, hi, hscan, hcur⟩
    · simp only [hl, Option.toList_none, List.nil_append] at hle ⊢
      have hrest := ih h1 h2 (by rwa [hel, hcur])
      rw [hrest, hel, hcur]
      exact stable _ fun j hj => List.of_mem_filter (List.mem_of_mem_take hj)
    · rw [hel] at hscan
      obtain ⟨rest, hturns, hnext⟩ := Cyclic.turns_scan (cursor_lt s) hscan
      simp only [hl, Option.toList_some, List.singleton_append, List.length_cons, hturns] at hle ⊢
      have hlen : (selectedIn ms).length ≤ rest.length := by omega
      have hrest := ih h1 h2 (by rw [hel, hcur, hnext, List.length_append]; omega)
      rw [hel, hcur, hnext, List.take_append_of_le_length hlen] at hrest
      rw [List.take_succ_cons, List.map_cons, List.map_cons, hi, hrest]
      refine congrArg _ (stable _ fun j hj => ?_)
      have hmem : j ∈ Cyclic.turns s.eligible threadQueueSize s.cursor := by
        rw [hturns]
        exact List.mem_cons_of_mem _ (List.mem_of_mem_take hj)
      exact List.of_mem_filter hmem

theorem mem_eligibleThreads {s : Kernel} {t : Nat} : t ∈ s.eligibleThreads ↔ Eligible s t := by
  simp only [Kernel.eligibleThreads, List.mem_filterMap, List.mem_filter, List.mem_range,
    eligible_slot]
  constructor
  · rintro ⟨i, ⟨-, he⟩, hi⟩
    exact ⟨i, hi, he⟩
  · rintro ⟨i, hi, he⟩
    exact ⟨i, ⟨eligible_lt he, he⟩, hi⟩

theorem Consistent.eligibleThreads_nodup {added : List Nat} {s : Kernel} (h : Consistent added s) :
    s.eligibleThreads.Nodup :=
  (List.nodup_range.filter _).filterMap fun _ _ _ hi hj => h.slot_inj hi hj

/-- The slots of the cursor's turns hold the eligible threads, from the cursor on. -/
theorem turns_slot (s : Kernel) : ∃ us, us ~r s.eligibleThreads ∧
    (Cyclic.turns s.eligible threadQueueSize s.cursor).map s.slot = us.map some := by
  have occupant {L : List Nat} (hL : ∀ i ∈ L, s.eligible i = true) :
      L.map s.slot = (L.map fun i => (s.slot i).getD 0).map some := by
    rw [List.map_map]
    refine List.map_congr_left fun i hi => ?_
    obtain ⟨t, ht, -⟩ := eligible_iff.mp (hL i hi)
    simp [ht]
  have hthreads : s.eligibleThreads =
      ((List.range threadQueueSize).filter s.eligible).map fun i => (s.slot i).getD 0 := by
    refine List.map_injective_iff.mpr (Option.some_injective Nat) ?_
    rw [← occupant fun i hi => List.of_mem_filter hi, Kernel.eligibleThreads]
    rw [List.map_filterMap_some_eq_filter_map_isSome, List.filter_eq_self]
    intro o ho
    obtain ⟨i, hi, rfl⟩ := List.mem_map.mp ho
    obtain ⟨t, ht, -⟩ := eligible_iff.mp (List.of_mem_filter hi)
    simp [ht]
  refine ⟨_, ?_, occupant fun i hi => List.of_mem_filter hi⟩
  rw [hthreads]
  exact (Cyclic.turns_isRotated s.eligible (cursor_lt s).le).map _

/-- In every reachable state `sched_select` comes back, with a thread that may run; in every window
of `THREAD_QUEUE_SIZE` calls it returns each thread that is eligible throughout; and while the
eligible threads stay the same it returns them in turn. -/
theorem select_fair {ls : List Label} {s : Kernel} (h : Reached ls s) :
    (∃ t s', schedSelect s = .ok (t, s') ∧ Queued s t ∧ (s.thread t).state ≠ .zombie ∧
      (s.pidOf t = 0 → ∀ u, Queued s u → u = t)) ∧
    (∀ e, Allowed s e → ∃ o s', Step s (e, o) s') ∧
    (∀ l s' t, Step s l s' → selectedBy l = some t → Queued s t ∧ (s.thread t).state ≠ .zombie ∧
      (l.1 = .exit → s.current ≠ some t) ∧ (s.pidOf t = 0 → ∀ u, Queued s u → u = t)) ∧
    (∀ ms s' t, Run (fun u l u' => Eligible u t ∧ Step u l u' ∧ Eligible u' t) s ms s' →
      threadQueueSize ≤ (selectedIn ms).length → t ∈ selectedIn ms) ∧
    (∀ ms s', Run (fun u l u' => (∀ t, Eligible u t ↔ Eligible s t) ∧ Step u l u' ∧
        ∀ t, Eligible u' t ↔ Eligible s t) s ms s' →
      (selectedIn ms).length = s.eligibleThreads.length →
      (selectedIn ms).Nodup ∧ (∀ t, t ∈ selectedIn ms ↔ Eligible s t) ∧
        selectedIn ms ~r s.eligibleThreads) := by
  obtain ⟨hinv, hset⟩ := h.consistent
  refine ⟨hinv.schedSelect_returns, fun e he => hinv.step_progress hset he,
    fun l s' t hst hl => hinv.selected_step hset hst hl, ?_, ?_⟩
  · intro ms s' t hrun hlen
    by_contra hnot
    cases hrun with
    | nil => simp [selectedIn, threadQueueSize] at hlen
    | @cons _ s₁ _ l ms hst hrest =>
      obtain ⟨i, hi, he⟩ := eligible_slot.mp hst.1
      have hdist := dist_run hinv hset (.cons hst hrest) hi hnot
      have hlt := Cyclic.dist_lt (cursor_lt s) (eligible_lt he)
      omega
  · intro ms s' hrun hlen
    obtain ⟨us, hrot, hus⟩ := turns_slot s
    have hturns : (Cyclic.turns s.eligible threadQueueSize s.cursor).length = us.length := by
      simpa using congrArg List.length hus
    have hsel := turns_run hinv hset hrun (by rw [hturns, hrot.perm.length_eq, hlen])
    rw [List.take_of_length_le (by rw [hturns, hrot.perm.length_eq, hlen]), hus] at hsel
    obtain rfl := List.map_injective_iff.mpr (Option.some_injective Nat) hsel
    exact ⟨hrot.nodup_iff.mpr hinv.eligibleThreads_nodup,
      fun t => hrot.mem_iff.trans mem_eligibleThreads, hrot⟩

/-- Behind the new process the yields go to init and to the new process again: every eligible thread once. -/
theorem select_fair_started : ∃ ms s', Run Step started ms s' ∧ selectedIn ms = [3, 5] ∧
    ∀ t, t ∈ selectedIn ms ↔ Eligible started t := by
  let s₁ := after started .yield
  let s₂ := after s₁ .yield
  have hfirst : Step started (.yield, .selected 3) s₁ := ⟨trivial, step_after (by decide +kernel)⟩
  have hsecond : Step s₁ (.yield, .selected 5) s₂ := ⟨trivial, step_after (by decide +kernel)⟩
  have hsame {s : Kernel} (h : s.eligibleThreads = started.eligibleThreads) (t : Nat) :
      Eligible s t ↔ Eligible started t := by
    rw [← mem_eligibleThreads, h, mem_eligibleThreads]
  have hsame₁ := hsame (s := s₁) (by decide +kernel)
  have hsame₂ := hsame (s := s₂) (by decide +kernel)
  obtain ⟨-, -, -, -, hturns⟩ := select_fair reached_started
  obtain ⟨-, hall, -⟩ := hturns [(.yield, .selected 3), (.yield, .selected 5)] s₂
    (.cons ⟨fun _ => Iff.rfl, hfirst, hsame₁⟩ (.single ⟨hsame₁, hsecond, hsame₂⟩)) (by decide +kernel)
  exact ⟨_, s₂, .cons hfirst (.single hsecond), rfl, hall⟩

end Levos.Scheduler
