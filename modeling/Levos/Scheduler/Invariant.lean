import Levos.Scheduler.Step

namespace Levos.Scheduler

open Levos.Framework

/-- The queue, the counters and the thread states agree. `added` lists the processes accepted so
far; the clause `alive` keeps one thread that the selection can always fall back on. -/
structure Consistent (added : List Nat) (s : Kernel) : Prop where
  count : s.schedCurrentThreads = occupied s.threadQueue
  room : s.schedCurrentThreads < threadQueueSize
  once : ∀ i j t, s.threadQueue i = some t → s.threadQueue j = some t → i = j
  placed : ∀ p ∈ added, p < s.heap ∧ ∀ t ∈ (s.process p).threads, Queued s t
  sole : ∀ t, Queued s t → t < s.heap ∧ (s.thread t).owner < s.heap ∧
    (s.process (s.thread t).owner).threads = [t]
  alive : ∃ t, Queued s t ∧ s.pidOf t = 1 ∧ (s.thread t).state ≠ .zombie
  current : ∃ t, s.current = some t ∧ Queued s t
  running : ∀ t, (s.thread t).state = .running → s.current = some t
  dead : ∀ t, (s.thread t).state = .zombie → Queued s t
  offline : s.canSchedule = false → ∃ t, s.current = some t ∧ s.pidOf t = 0

/-- Between two events the current thread is no zombie. -/
def Settled (s : Kernel) : Prop := ∀ t, s.current = some t → (s.thread t).state ≠ .zombie

theorem queued_slot {s : Kernel} {t : Nat} : Queued s t ↔ ∃ i, s.slot i = some t := by
  constructor
  · rintro ⟨i, hi⟩
    exact ⟨i, slot_eq_some.mpr ⟨i.isLt, hi⟩⟩
  · rintro ⟨i, hi⟩
    obtain ⟨h, ht⟩ := slot_eq_some.mp hi
    exact ⟨⟨i, h⟩, ht⟩

namespace Consistent

variable {added : List Nat} {s : Kernel}

/-- A thread may change its state and its time, as long as the states stay in step with
`current` and init is not killed. -/
theorem setThread (h : Consistent added s) (t : Nat) (th : Thread)
    (ho : th.owner = (s.thread t).owner) (hr : th.state = .running → s.current = some t)
    (hz : th.state = .zombie → Queued s t ∧ s.pidOf t ≠ 1) :
    Consistent added (s.setThread t th) := by
  have hp := fun u => setThread_pidOf s t u th ho
  refine ⟨h.count, h.room, h.once, h.placed, ?_, ?_, h.current, ?_, ?_, ?_⟩
  · intro u hu
    rw [setThread_owner s t u th ho]
    exact h.sole u hu
  · obtain ⟨u, hu, hpid, hst⟩ := h.alive
    refine ⟨u, hu, (hp u).trans hpid, ?_⟩
    by_cases hut : u = t
    · subst hut
      rw [setThread_thread]
      exact fun hzu => (hz hzu).2 hpid
    · rwa [setThread_thread_ne s th hut]
  · intro u hu
    by_cases hut : u = t
    · subst hut
      rw [setThread_thread] at hu
      exact hr hu
    · rw [setThread_thread_ne s th hut] at hu
      exact h.running u hu
  · intro u hu
    by_cases hut : u = t
    · subst hut
      rw [setThread_thread] at hu
      exact (hz hu).1
    · rw [setThread_thread_ne s th hut] at hu
      exact h.dead u hu
  · intro hc
    obtain ⟨u, hu, hpid⟩ := h.offline hc
    exact ⟨u, hu, (hp u).trans hpid⟩

/-- init is always there to be found. -/
theorem scan_some (h : Consistent added s) :
    ∃ i t, Cyclic.scan s.eligible threadQueueSize s.cursor = some i ∧ s.slot i = some t ∧
      s.mayRun t := by
  obtain ⟨t, hq, hpid, hst⟩ := h.alive
  obtain ⟨i, hi⟩ := queued_slot.mp hq
  have he : s.eligible i = true := eligible_iff.mpr ⟨t, hi, hst, by simp [hpid]⟩
  obtain ⟨j, hj⟩ := Cyclic.scan_isSome (cursor_lt s).le (eligible_lt he) he
  obtain ⟨u, hu, hm⟩ := eligible_iff.mp (Cyclic.scan_mem (cursor_lt s).le hj).1
  exact ⟨j, u, hj, hu, hm⟩

theorem dispatch (h : Consistent added s) (hnone : ∀ t, (s.thread t).state ≠ .running)
    {i t : Nat} (ht : s.slot i = some t) (hm : s.mayRun t) (hon : s.canSchedule = true) :
    Consistent added (s.dispatch i t) ∧ Settled (s.dispatch i t) := by
  have hq : Queued s t := queued_slot.mpr ⟨i, ht⟩
  have hp := dispatch_pidOf s i t
  refine ⟨⟨h.count, h.room, h.once, h.placed, ?_, ?_, ⟨t, rfl, hq⟩, ?_, ?_, ?_⟩, ?_⟩
  · intro u hu
    have howner : ((s.dispatch i t).thread u).owner = (s.thread u).owner :=
      setThread_owner s t u _ rfl
    rw [howner]
    exact h.sole u hu
  · obtain ⟨u, hu, hpid, hst⟩ := h.alive
    refine ⟨u, hu, (hp u).trans hpid, ?_⟩
    by_cases hut : u = t
    · subst hut
      simp [dispatch_thread]
    · rwa [dispatch_thread_ne s i hut]
  · intro u hu
    by_cases hut : u = t
    · rw [hut]
      rfl
    · rw [dispatch_thread_ne s i hut] at hu
      exact absurd hu (hnone u)
  · intro u hu
    by_cases hut : u = t
    · rw [hut]
      exact hq
    · rw [dispatch_thread_ne s i hut] at hu
      exact h.dead u hu
  · intro hc
    exact absurd (hon.symm.trans hc) (by decide)
  · intro u hu
    obtain rfl : t = u := Option.some.inj hu
    simp [dispatch_thread]

end Consistent

theorem setStates_singleton (m : Nat → Thread) (t : Nat) (st : ThreadState) :
    setStates m [t] st = Function.update m t { m t with state := st } := rfl

theorem occupied_update {q : ThreadQueue} {i : Fin threadQueueSize} {t : Nat} (hi : q i = none) :
    occupied (Function.update q i (some t)) = occupied q + 1 := by
  have hset : (Finset.univ.filter fun j => ((Function.update q i (some t)) j).isSome) =
      insert i (Finset.univ.filter fun j => (q j).isSome) := by
    ext j
    by_cases hj : j = i
    · subst hj
      simp
    · simp [hj]
  rw [occupied, hset, Finset.card_insert_of_notMem (by simp [hi]), occupied]

/-- With a thread in an empty slot the queue holds it besides the others. -/
theorem exists_update_iff {q : ThreadQueue} {i : Fin threadQueueSize} {t : Nat} (hi : q i = none)
    (u : Nat) : (∃ j, Function.update q i (some t) j = some u) ↔ u = t ∨ ∃ j, q j = some u := by
  constructor
  · intro h
    obtain ⟨j, hj⟩ := h
    by_cases hji : j = i
    · subst hji
      rw [Function.update_self] at hj
      exact .inl (Option.some.inj hj).symm
    · rw [Function.update_of_ne hji] at hj
      exact .inr ⟨j, hj⟩
  · intro h
    cases h with
    | inl heq => exact ⟨i, by rw [Function.update_self, heq]⟩
    | inr hold =>
      obtain ⟨j, hj⟩ := hold
      have hji : j ≠ i := fun hji => by simp [← hji, hj] at hi
      exact ⟨j, by rw [Function.update_of_ne hji, hj]⟩

/-- A thread that was in no slot is in one slot now. -/
theorem update_once {q : ThreadQueue} {i : Fin threadQueueSize} {t : Nat}
    (honce : ∀ j k u, q j = some u → q k = some u → j = k) (hq : ¬∃ j, q j = some t)
    {j k : Fin threadQueueSize} {u : Nat} (hj : Function.update q i (some t) j = some u)
    (hk : Function.update q i (some t) k = some u) : j = k := by
  by_cases hji : j = i <;> by_cases hki : k = i
  · rw [hji, hki]
  · subst hji
    simp only [Function.update_self, Option.some.injEq] at hj
    rw [Function.update_of_ne hki] at hk
    exact absurd ⟨k, hj ▸ hk⟩ hq
  · subst hki
    simp only [Function.update_self, Option.some.injEq] at hk
    rw [Function.update_of_ne hji] at hj
    exact absurd ⟨j, hk ▸ hj⟩ hq
  · rw [Function.update_of_ne hji] at hj
    rw [Function.update_of_ne hki] at hk
    exact honce j k u hj hk

/-- While a slot is empty, `sched_add_process` finds the first empty one. -/
theorem place_eq {q : ThreadQueue} (t : Nat) (h : occupied q < threadQueueSize) :
    ∃ i, q i = none ∧ (∀ j < i, q j ≠ none) ∧ place q t = Function.update q i (some t) := by
  unfold place freeSlot
  cases hf : (List.finRange threadQueueSize).find? fun i => (q i).isNone with
  | none =>
    have hall : (Finset.univ.filter fun i => (q i).isSome) = Finset.univ := by
      rw [Finset.filter_true_of_mem]
      intro i _
      have := List.find?_eq_none.mp hf i (List.mem_finRange i)
      cases hq : q i <;> simp_all
    rw [occupied, hall, Finset.card_univ, Fintype.card_fin] at h
    exact absurd h (lt_irrefl _)
  | some i =>
    obtain ⟨hi, as, bs, heq, has⟩ := List.find?_eq_some_iff_append.mp hf
    refine ⟨i, by simpa using hi, ?_, rfl⟩
    intro j hj hn
    have hmem : j ∈ as := by
      have hsorted : (List.finRange threadQueueSize).Pairwise (· < ·) := List.pairwise_lt_finRange _
      rw [heq, List.pairwise_append, List.pairwise_cons] at hsorted
      have hin : j ∈ as ++ i :: bs := heq ▸ List.mem_finRange j
      rcases List.mem_append.mp hin with h1 | h1
      · exact h1
      · rcases List.mem_cons.mp h1 with rfl | h2
        · exact absurd hj (lt_irrefl _)
        · exact absurd (hsorted.2.1.1 j h2) (lt_asymm hj)
    have := has j hmem
    simp [hn] at this

/-- A new process and its thread lie outside everything that is queued. -/
theorem Consistent.alloc {added : List Nat} {s : Kernel} (h : Consistent added s) (g : Grant) :
    Consistent added (schedMkProcess s g).2 := by
  cases g with
  | nothing => exact h
  | noStack =>
    exact ⟨h.count, h.room, h.once, h.placed, h.sole, h.alive, h.current, h.running, h.dead, h.offline⟩
  | all =>
    have keep (u : Nat) (hu : Queued s u) :
        (schedMkProcess s .all).2.thread u = s.thread u ∧
        (schedMkProcess s .all).2.pidOf u = s.pidOf u ∧
        (schedMkProcess s .all).2.process (s.thread u).owner = s.process (s.thread u).owner := by
      obtain ⟨h1, h2, -⟩ := h.sole u hu
      have ht : u ≠ s.heap + 1 := by omega
      have ho : (s.thread u).owner ≠ s.heap := by omega
      have e1 : (schedMkProcess s .all).2.thread u = s.thread u := Function.update_of_ne ht _ _
      have e2 : (schedMkProcess s .all).2.process (s.thread u).owner =
          s.process (s.thread u).owner := Function.update_of_ne ho _ _
      exact ⟨e1, by rw [Kernel.pidOf, e1, e2, Kernel.pidOf], e2⟩
    have new (u : Nat) : (schedMkProcess s .all).2.thread u = s.thread u ∨
        ((schedMkProcess s .all).2.thread u).state = .null := by
      by_cases hu : u = s.heap + 1
      · subst hu
        right
        simp [schedMkProcess]
      · exact .inl (Function.update_of_ne hu _ _)
    refine ⟨h.count, h.room, h.once, ?_, ?_, ?_, h.current, ?_, ?_, ?_⟩
    · intro p hp
      obtain ⟨h1, h2⟩ := h.placed p hp
      have e : (schedMkProcess s .all).2.process p = s.process p :=
        Function.update_of_ne (by omega) _ _
      refine ⟨Nat.lt_add_right 2 h1, ?_⟩
      rw [e]
      exact h2
    · intro u hu
      obtain ⟨h1, h2, h3⟩ := h.sole u hu
      obtain ⟨e1, -, e2⟩ := keep u hu
      rw [e1, e2]
      exact ⟨Nat.lt_add_right 2 h1, Nat.lt_add_right 2 h2, h3⟩
    · obtain ⟨u, hu, hpid, hst⟩ := h.alive
      obtain ⟨e1, e2, -⟩ := keep u hu
      exact ⟨u, hu, e2.trans hpid, e1.symm ▸ hst⟩
    · intro u hu
      rcases new u with e | e
      · exact h.running u (e ▸ hu)
      · rw [e] at hu
        cases hu
    · intro u hu
      rcases new u with e | e
      · exact h.dead u (e ▸ hu)
      · rw [e] at hu
        cases hu
    · intro hc
      obtain ⟨u, hu, hpid⟩ := h.offline hc
      obtain ⟨v, hv, hq⟩ := h.current
      obtain rfl : v = u := Option.some.inj (hv.symm.trans hu)
      exact ⟨v, hu, (keep v hq).2.1.trans hpid⟩

/-- `sched_add_process` on a one-thread process that is not queued yet. -/
theorem schedAddProcess_eq {s : Kernel} {p t : Nat} (hts : (s.process p).threads = [t]) :
    schedAddProcess s (some p) =
      if s.schedCurrentThreads + 1 ≥ threadQueueSize then (-ENOSPC, s)
      else (0, { s.setThread t { s.thread t with state := .ready } with
        threadQueue := place s.threadQueue t
        schedCurrentProcesses := s.schedCurrentProcesses + 1
        schedCurrentThreads := s.schedCurrentThreads + 1 }) := by
  simp [schedAddProcess, hts, setStates_singleton, Kernel.setThread]

/-- Whether or not the process is accepted, the threads that were queued stay as they were. -/
theorem schedAddProcess_keeps {s : Kernel} {p t : Nat} (hts : (s.process p).threads = [t])
    (hq : ¬Queued s t) (hlt : occupied s.threadQueue < threadQueueSize) :
    (schedAddProcess s (some p)).2.current = s.current ∧
    ∀ u, Queued s u → Queued (schedAddProcess s (some p)).2 u ∧
      (schedAddProcess s (some p)).2.thread u = s.thread u := by
  rw [schedAddProcess_eq hts]
  split_ifs
  · exact ⟨rfl, fun u hu => ⟨hu, rfl⟩⟩
  · obtain ⟨i, hi, -, hplace⟩ := place_eq t hlt
    refine ⟨rfl, fun u hu => ⟨?_, setThread_thread_ne s _ fun hut => hq (hut ▸ hu)⟩⟩
    have hheld := (exists_update_iff (t := t) hi u).mpr (.inr hu)
    rwa [← hplace] at hheld

theorem Consistent.add {added : List Nat} {s : Kernel} (h : Consistent added s) {p t : Nat}
    (hp : p < s.heap) (ht : t < s.heap) (hts : (s.process p).threads = [t])
    (ho : (s.thread t).owner = p) (hst : (s.thread t).state ≠ .running) (hq : ¬Queued s t)
    (hroom : s.schedCurrentThreads + 1 < threadQueueSize) :
    Consistent (added ++ [p]) (schedAddProcess s (some p)).2 := by
  have hlt : occupied s.threadQueue < threadQueueSize := by
    have hc := h.count
    have hr := h.room
    omega
  obtain ⟨i, hi, -, hplace⟩ := place_eq t hlt
  rw [schedAddProcess_eq hts, if_neg (by omega), hplace]
  have hr := h.setThread t { s.thread t with state := .ready } rfl
    (by intro hc; cases hc) (by intro hc; cases hc)
  have old (u : Nat) (hu : Queued s u) : ∃ j, Function.update s.threadQueue i (some t) j = some u :=
    (exists_update_iff hi u).mpr (.inr hu)
  refine ⟨?_, hroom, fun _ _ _ hj hk => update_once h.once hq hj hk, ?_, ?_, ?_, ?_, hr.running, ?_,
    hr.offline⟩
  · rw [occupied_update hi, h.count]
    rfl
  · intro p' hp'
    rcases List.mem_append.mp hp' with hm | hm
    · obtain ⟨h1, h2⟩ := h.placed p' hm
      exact ⟨h1, fun u hu => old u (h2 u hu)⟩
    · obtain rfl := List.mem_singleton.mp hm
      refine ⟨hp, ?_⟩
      intro u hu
      have hu' : u ∈ (s.process p').threads := hu
      rw [hts, List.mem_singleton] at hu'
      exact (exists_update_iff hi u).mpr (.inl hu')
  · intro u hu
    rcases (exists_update_iff hi u).mp hu with rfl | hu'
    · have howner : ((s.setThread u { s.thread u with state := .ready }).thread u).owner = p :=
        (setThread_owner s u u { s.thread u with state := .ready } rfl).trans ho
      exact ⟨ht, howner.symm ▸ hp, howner.symm ▸ hts⟩
    · exact hr.sole u hu'
  · obtain ⟨u, hu, hpid, hz⟩ := hr.alive
    exact ⟨u, old u hu, hpid, hz⟩
  · obtain ⟨u, hu, hc⟩ := hr.current
    exact ⟨u, hu, old u hc⟩
  · intro u hu
    exact old u (hr.dead u hu)

end Levos.Scheduler
