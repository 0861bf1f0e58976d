import Levos.Scheduler.Invariant

namespace Levos.Scheduler

open Levos.Framework

theorem setThread_self (s : Kernel) (t : Nat) : s.setThread t (s.thread t) = s := by
  simp [Kernel.setThread]

theorem setThread_setThread (s : Kernel) (t : Nat) (a b : Thread) :
    (s.setThread t a).setThread t b = s.setThread t b := by
  simp [Kernel.setThread]

/-- The current thread as `sched_schedule` leaves it when it goes on to select. -/
def park (th : Thread) : Thread :=
  if th.state = .zombie then th else { th with timeUsed := th.timeUsed + 1, state := .preempted }

theorem park_owner (th : Thread) : (park th).owner = th.owner := by
  unfold park
  split_ifs <;> rfl

theorem park_state (th : Thread) :
    (park th).state ≠ .running ∧ ((park th).state = .zombie ↔ th.state = .zombie) := by
  unfold park
  split_ifs with h <;> simp [h]

/-- `sched_schedule` once scheduling is on. -/
theorem schedSchedule_eq {s : Kernel} {t : Nat} (hc : s.current = some t) (hon : s.canSchedule = true) :
    ∃ prev, schedSchedule s =
      if (s.thread t).state ≠ .zombie ∧ (s.thread t).timeUsed + 1 < maxProcTime then
        .ok (.back 0, s.setThread t { s.thread t with timeUsed := (s.thread t).timeUsed + 1 })
      else schedNextThread (s.setThread t (park (s.thread t))) prev := by
  by_cases hz : (s.thread t).state = .zombie
  · refine ⟨some t, ?_⟩
    simp [schedSchedule, hon, hc, hz, park, setThread_self]
  · refine ⟨none, ?_⟩
    simp [schedSchedule, hon, hc, hz, park, setThread_setThread]

theorem schedSchedule_off {s : Kernel} (hon : s.canSchedule = false) :
    schedSchedule s = .ok (.back 0, s) := by
  simp [schedSchedule, hon]

/-- A call of the scheduler that gives no other thread the processor. -/
def Stays (s : Kernel) (l : Label) (s' : Kernel) : Prop :=
  l.2 = .quiet ∧ ∃ t th, s.current = some t ∧ th.owner = (s.thread t).owner ∧
    th.state = (s.thread t).state ∧ s' = s.setThread t th ∧
    (s.canSchedule = true → l.1 = .tick ∧ th.timeUsed = (s.thread t).timeUsed + 1 ∧
      th.timeUsed < maxProcTime)

/-- A call that does: the current thread `c` is parked and the scan's thread is dispatched. -/
def Switches (s : Kernel) (l : Label) (s' : Kernel) : Prop :=
  ∃ c th i t, s.current = some c ∧ th.owner = (s.thread c).owner ∧ th.state ≠ .running ∧
    ((th.state = .zombie ↔ l.1 = .exit) ∧ (th.state = .zombie → s.pidOf c ≠ 1)) ∧
    s.canSchedule = true ∧
    Cyclic.scan (s.setThread c th).eligible threadQueueSize s.cursor = some i ∧
    (s.setThread c th).slot i = some t ∧ (s.setThread c th).mayRun t ∧
    l.2 = .selected t ∧ s' = (s.setThread c th).dispatch i t

/-- The scheduler called with the current thread already marked as `th`. -/
theorem schedSchedule_ok {s s' : Kernel} {c : Control} {t : Nat} {th : Thread}
    (hc : s.current = some t) (hon : s.canSchedule = true)
    (h : schedSchedule (s.setThread t th) = .ok (c, s')) :
    (c = .back 0 ∧ th.state ≠ .zombie ∧ th.timeUsed + 1 < maxProcTime ∧
      s' = s.setThread t { th with timeUsed := th.timeUsed + 1 }) ∨
    (∃ i u, Cyclic.scan (s.setThread t (park th)).eligible threadQueueSize s.cursor = some i ∧
      (s.setThread t (park th)).slot i = some u ∧ (s.setThread t (park th)).mayRun u ∧
      c = .switched u ∧ s' = (s.setThread t (park th)).dispatch i u) := by
  obtain ⟨prev, heq⟩ := schedSchedule_eq (s := s.setThread t th) hc hon
  rw [heq, setThread_thread, setThread_setThread, setThread_setThread] at h
  by_cases hb : th.state ≠ .zombie ∧ th.timeUsed + 1 < maxProcTime
  · rw [if_pos hb] at h
    cases h
    exact .inl ⟨rfl, hb.1, hb.2, rfl⟩
  · rw [if_neg hb] at h
    obtain ⟨i, u, hi, hu, hm, hcu, hs'⟩ := schedNextThread_ok h
    exact .inr ⟨i, u, hi, hu, hm, hcu, hs'⟩

/-- The scheduler called for an event that has marked the current thread as `th`. -/
theorem observe_cases {s s' : Kernel} {e : Event} {o : Obs} {t : Nat} (th : Thread)
    (hc : s.current = some t) (ho : th.owner = (s.thread t).owner)
    (hst : th.state = (s.thread t).state ∧ (s.thread t).state ≠ .zombie ∧ e ≠ .exit ∨
      th.state = .zombie ∧ e = .exit ∧ s.pidOf t ≠ 1 ∧ s.canSchedule = true)
    (htime : e = .tick ∧ th.timeUsed = (s.thread t).timeUsed ∨ maxProcTime ≤ th.timeUsed)
    (h : observe (schedSchedule (s.setThread t th)) = .ok (o, s')) :
    Stays s (e, o) s' ∨ Switches s (e, o) s' := by
  obtain ⟨⟨c, s1⟩, hs, h1⟩ := bind_eq_ok.mp h
  cases h1
  cases hon : s.canSchedule with
  | false =>
    have hoff : (s.setThread t th).canSchedule = false := hon
    rw [schedSchedule_off hoff] at hs
    cases hs
    refine .inl ⟨rfl, t, th, hc, ho, ?_, rfl, fun hon' => ?_⟩
    · rcases hst with ⟨h1, -⟩ | ⟨-, -, -, hon'⟩
      · exact h1
      · exact absurd (hon.symm.trans hon') (by decide)
    · exact absurd (hon.symm.trans hon') (by decide)
  | true =>
    rcases schedSchedule_ok hc hon hs with ⟨rfl, hnz, hlt, rfl⟩ | ⟨i, u, hi, hu, hm, rfl, rfl⟩
    · refine .inl ⟨rfl, t, { th with timeUsed := th.timeUsed + 1 }, hc, ho, ?_, rfl, fun _ => ?_⟩
      · rcases hst with ⟨h1, -⟩ | ⟨h1, -⟩
        · exact h1
        · exact absurd h1 hnz
      · rcases htime with ⟨he, ht⟩ | ht
        · exact ⟨he, by simp [ht], hlt⟩
        · omega
    · refine .inr ⟨t, park th, i, u, hc, (park_owner th).trans ho, (park_state th).1, ?_, hon, hi,
        hu, hm, rfl, rfl⟩
      rcases hst with ⟨h1, h2, he⟩ | ⟨h1, he, hp, -⟩
      · have hnz : (park th).state ≠ .zombie := fun hz => h2 (h1 ▸ (park_state th).2.mp hz)
        exact ⟨⟨fun hz => absurd hz hnz, fun hx => absurd hx he⟩, fun hz => absurd hz hnz⟩
      · exact ⟨⟨fun _ => he, fun _ => (park_state th).2.mpr h1⟩, fun _ => hp⟩

namespace Consistent

variable {added : List Nat} {s s' : Kernel} {l : Label}

/-- The exiting process is killed by marking its one thread. -/
theorem schedMarkZombie_eq (h : Consistent added s) {t : Nat} (hc : s.current = some t) :
    schedMarkZombie s (s.thread t).owner = s.setThread t { s.thread t with state := .zombie } := by
  obtain ⟨u, hu, hq⟩ := h.current
  obtain rfl : u = t := Option.some.inj (hu.symm.trans hc)
  simp [schedMarkZombie, (h.sole u hq).2.2, setStates_singleton, Kernel.setThread]

theorem online (h : Consistent added s) {t : Nat} (hc : s.current = some t) (hp : s.pidOf t ≠ 0) :
    s.canSchedule = true := by
  cases hon : s.canSchedule with
  | true => rfl
  | false =>
    obtain ⟨u, hu, hpid⟩ := h.offline hon
    exact absurd hpid (Option.some.inj (hu.symm.trans hc) ▸ hp)

/-- `syscall_exit` marks the caller, uses up its time and calls the scheduler, which does not
come back to a zombie. -/
theorem syscallExit_eq (h : Consistent added s) {t : Nat} (hc : s.current = some t)
    (hp : 2 ≤ s.pidOf t) :
    syscallExit s = schedSchedule (s.setThread t ⟨.zombie, maxProcTime, (s.thread t).owner⟩) := by
  have hp1 : ¬(s.process (s.thread t).owner).pid = 1 := fun h1 => by
    rw [Kernel.pidOf, h1] at hp
    omega
  have hon := h.online hc (by omega)
  have hz := h.schedMarkZombie_eq hc
  have hcz : (s.setThread t { s.thread t with state := .zombie }).current = some t := hc
  simp only [syscallExit, hc, schedRmProcess, Kernel.pidOf, if_true, hp1, if_false, hz,
    scheduleNoirq, hcz, setThread_thread, setThread_setThread]
  cases hs : schedSchedule (s.setThread t ⟨.zombie, maxProcTime, (s.thread t).owner⟩) with
  | error e => rfl
  | ok r =>
    obtain ⟨ctl, s1⟩ := r
    rcases schedSchedule_ok hc hon hs with ⟨-, hnz, -⟩ | ⟨i, u, -, -, -, rfl, -⟩
    · exact absurd rfl hnz
    · rfl

/-- What a step can do: raise `can_schedule`, create a process, stay or switch. -/
theorem step_cases (h : Consistent added s) (hset : Settled s) (hstep : Step s l s') :
    (l = (.idle, .quiet) ∧ s' = idleTask s) ∨
    (∃ g rc, l = (.create g, .created (schedMkProcess s g).1 rc) ∧
      (rc, s') = schedAddProcess (schedMkProcess s g).2 (schedMkProcess s g).1) ∨
    Stays s l s' ∨ Switches s l s' := by
  obtain ⟨t, hc, hq⟩ := h.current
  obtain ⟨e, o⟩ := l
  obtain ⟨hallow, heq⟩ := hstep
  cases e with
  | idle =>
    cases heq
    exact .inl ⟨rfl, rfl⟩
  | create g =>
    cases heq
    exact .inr (.inl ⟨g, _, rfl, rfl⟩)
  | tick =>
    refine .inr (.inr (observe_cases (s.thread t) hc rfl (.inl ⟨rfl, hset t hc, by simp⟩)
      (.inl ⟨rfl, rfl⟩) ?_))
    rw [setThread_self]
    exact heq
  | yield =>
    refine .inr (.inr (observe_cases { s.thread t with timeUsed := maxProcTime } hc rfl
      (.inl ⟨rfl, hset t hc, by simp⟩) (.inr (le_refl _)) ?_))
    simpa [step, scheduleNoirq, hc] using heq
  | exit =>
    obtain ⟨u, hu, hp⟩ := hallow
    obtain rfl : u = t := Option.some.inj (hu.symm.trans hc)
    refine .inr (.inr (observe_cases ⟨.zombie, maxProcTime, (s.thread u).owner⟩ hc rfl
      (.inr ⟨rfl, rfl, by omega, h.online hc (by omega)⟩) (.inr (le_refl _)) ?_))
    rw [← h.syscallExit_eq hc hp]
    exact heq

/-- No event that is allowed faults: a step is always taken. -/
theorem step_progress (h : Consistent added s) (hset : Settled s) {e : Event} (he : Allowed s e) :
    ∃ o s', Step s (e, o) s' := by
  obtain ⟨t, hc, hq⟩ := h.current
  have called (th : Thread) (ho : th.owner = (s.thread t).owner)
      (hst : th.state = (s.thread t).state ∨ th.state = .zombie ∧ s.pidOf t ≠ 1) :
      ∃ r, schedSchedule (s.setThread t th) = .ok r := by
    cases hon : s.canSchedule with
    | false => exact ⟨_, schedSchedule_off (s := s.setThread t th) hon⟩
    | true =>
      obtain ⟨prev, heq⟩ := schedSchedule_eq (s := s.setThread t th) hc hon
      rw [heq]
      split_ifs
      · exact ⟨_, rfl⟩
      · rw [setThread_thread, setThread_setThread]
        have hk : Consistent added (s.setThread t (park th)) := by
          refine h.setThread t (park th) ((park_owner th).trans ho)
            (fun hr => absurd hr (park_state th).1) ?_
          intro hz
          refine ⟨hq, ?_⟩
          rcases hst with h1 | ⟨-, h1⟩
          · exact absurd (h1 ▸ (park_state th).2.mp hz) (hset t hc)
          · exact h1
        obtain ⟨i, u, hi, hu, -⟩ := hk.scan_some
        exact ⟨_, schedNextThread_eq prev hi hu⟩
  have wrap {r : Except Fault (Control × Kernel)} (hr : ∃ x, r = .ok x) :
      ∃ o s', observe r = .ok (o, s') := by
    obtain ⟨⟨c, s1⟩, rfl⟩ := hr
    exact ⟨_, _, rfl⟩
  cases e with
  | idle => exact ⟨_, _, he, rfl⟩
  | create g => exact ⟨_, _, he, rfl⟩
  | tick =>
    obtain ⟨o, s', hs⟩ := wrap (called (s.thread t) rfl (.inl rfl))
    rw [setThread_self] at hs
    exact ⟨o, s', he, hs⟩
  | yield =>
    obtain ⟨o, s', hs⟩ := wrap (called { s.thread t with timeUsed := maxProcTime } rfl (.inl rfl))
    exact ⟨o, s', he, by simpa [step, scheduleNoirq, hc] using hs⟩
  | exit =>
    obtain ⟨u, hu, hp⟩ := he
    obtain rfl : u = t := Option.some.inj (hu.symm.trans hc)
    obtain ⟨o, s', hs⟩ := wrap (called ⟨.zombie, maxProcTime, (s.thread u).owner⟩ rfl
      (.inr ⟨rfl, by omega⟩))
    rw [← h.syscallExit_eq hc hp] at hs
    exact ⟨o, s', ⟨u, hu, hp⟩, hs⟩

end Consistent

end Levos.Scheduler
