import Levos.Scheduler.StepCases

namespace Levos.Scheduler

open Levos.Framework

/-- The kernel at the moment `sched_start_idle` enters the idle thread. -/
def booted : Kernel where
  threadQueue := fun i => if i.val = 0 then some 1 else if i.val = 1 then some 3 else none
  schedNext := 0
  schedCurrentProcesses := 2
  schedCurrentThreads := 2
  canSchedule := false
  globalPid := 2
  current := some 1
  thread := fun t => if t = 1 then ⟨.ready, 0, 0⟩ else if t = 3 then ⟨.ready, 0, 2⟩ else ⟨.null, 0, 0⟩
  process := fun p => if p = 0 then ⟨0, [1]⟩ else if p = 2 then ⟨1, [3]⟩ else ⟨0, []⟩
  heap := 4

theorem schedStartIdle_eq : schedStartIdle schedInit = .ok booted := by
  have hq : place (place (fun _ => none) 1) 3 = booted.threadQueue := by
    funext i
    revert i
    decide
  have ht : (schedStartIdle schedInit).map (fun s => s.thread) = .ok booted.thread := by
    apply congrArg Except.ok
    funext t
    by_cases h1 : t = 1
    · subst h1
      rfl
    by_cases h3 : t = 3
    · subst h3
      rfl
    simp [schedAddProcess, schedInit, setStates, threadQueueSize, booted, h1, h3]
  have hp : (schedStartIdle schedInit).map (fun s => s.process) = .ok booted.process := by
    apply congrArg Except.ok
    funext p
    by_cases h0 : p = 0
    · subst h0
      rfl
    by_cases h2 : p = 2
    · subst h2
      rfl
    simp [schedAddProcess, schedInit, threadQueueSize, booted, h0, h2]
  have h (s : Kernel) (hs : schedStartIdle schedInit = .ok s) (e1 : s.threadQueue = booted.threadQueue)
      (e2 : s.schedNext = 0) (e3 : s.schedCurrentProcesses = 2) (e4 : s.schedCurrentThreads = 2)
      (e5 : s.canSchedule = false) (e6 : s.globalPid = 2) (e7 : s.current = some 1)
      (e8 : s.heap = 4) : s = booted := by
    rw [hs] at ht hp
    simp only [Except.map, Except.ok.injEq] at ht hp
    cases s
    simp only at e1 e2 e3 e4 e5 e6 e7 e8 ht hp
    subst e1 e2 e3 e4 e5 e6 e7 e8 ht hp
    rfl
  exact congrArg Except.ok (h _ rfl hq rfl rfl rfl rfl rfl rfl rfl)

theorem booted_consistent : Consistent (addedIn []) booted ∧ Settled booted := by
  have hcard : booted.schedCurrentThreads = occupied booted.threadQueue := by decide
  have queued (t : Nat) : Queued booted t ↔ t = 1 ∨ t = 3 := by
    constructor
    · rintro ⟨i, hi⟩
      simp only [booted] at hi
      split_ifs at hi <;> simp_all
    · rintro (rfl | rfl)
      · exact ⟨⟨0, by decide⟩, rfl⟩
      · exact ⟨⟨1, by decide⟩, rfl⟩
  have state (t : Nat) : (booted.thread t).state = .ready ∨ (booted.thread t).state = .null := by
    simp only [booted]
    split_ifs <;> simp
  refine ⟨⟨hcard, by decide, ?_, ?_, ?_, ⟨3, (queued 3).mpr (.inr rfl), rfl, by decide⟩,
    ⟨1, rfl, (queued 1).mpr (.inl rfl)⟩, ?_, ?_, fun _ => ⟨1, rfl, rfl⟩⟩, ?_⟩
  · intro i j t hi hj
    apply Fin.ext
    simp only [booted] at hi hj
    split_ifs at hi hj <;> simp only [Option.some.injEq] at hi hj <;> omega
  · intro p hp
    have hp' : p = 0 ∨ p = 2 := by simpa [addedIn, idleProcess, initProcess] using hp
    rcases hp' with rfl | rfl
    · exact ⟨by decide, fun t ht => (queued t).mpr (.inl (List.mem_singleton.mp ht))⟩
    · exact ⟨by decide, fun t ht => (queued t).mpr (.inr (List.mem_singleton.mp ht))⟩
  · intro t ht
    rcases (queued t).mp ht with rfl | rfl <;> decide
  · intro t ht
    rcases state t with h | h <;> rw [h] at ht <;> cases ht
  · intro t ht
    rcases state t with h | h <;> rw [h] at ht <;> cases ht
  · intro t _ hz
    rcases state t with h | h <;> rw [h] at hz <;> cases hz

namespace Consistent

variable {added : List Nat} {s s' : Kernel} {l : Label}

/-- A fresh process, before it is offered to the queue. -/
theorem alloc_all (h : Consistent added s) :
    ((schedMkProcess s .all).2.process s.heap).threads = [s.heap + 1] ∧
    ((schedMkProcess s .all).2.thread (s.heap + 1)).owner = s.heap ∧
    ((schedMkProcess s .all).2.thread (s.heap + 1)).state = .null ∧
    (schedMkProcess s .all).2.heap = s.heap + 2 ∧ ¬Queued s (s.heap + 1) ∧
    ∀ u, Queued s u → (schedMkProcess s .all).2.thread u = s.thread u := by
  refine ⟨by simp [schedMkProcess], by simp [schedMkProcess], by simp [schedMkProcess], rfl, ?_, ?_⟩
  · intro hq
    have hlt := (h.sole _ hq).1
    omega
  · intro u hu
    have hlt := (h.sole u hu).1
    exact Function.update_of_ne (by omega) _ _

/-- Creation keeps the invariant and leaves every older thread as it was. -/
theorem create (h : Consistent added s) (hset : Settled s) (g : Grant) {rc : Int}
    (hs : (rc, s') = schedAddProcess (schedMkProcess s g).2 (schedMkProcess s g).1) :
    Consistent (added ++ (if rc = 0 then (schedMkProcess s g).1 else none).toList) s' ∧ Settled s' ∧
      ∀ u, Queued s u → Queued s' u ∧ s'.thread u = s.thread u := by
  have ha := h.alloc g
  have settle (e : s'.current = s.current) (keep : ∀ u, Queued s u → s'.thread u = s.thread u) :
      Settled s' := by
    intro t ht
    obtain ⟨v, hv, hq⟩ := h.current
    obtain rfl : v = t := Option.some.inj (hv.symm.trans (e.symm.trans ht))
    rw [keep v hq]
    exact hset v hv
  cases g with
  | nothing =>
    cases hs
    exact ⟨by simpa [EINVAL, schedMkProcess] using ha, hset, fun u hu => ⟨hu, rfl⟩⟩
  | noStack =>
    cases hs
    exact ⟨by simpa [EINVAL, schedMkProcess] using ha, hset, fun u hu => ⟨hu, rfl⟩⟩
  | all =>
    obtain ⟨hts, ho, hnull, hheap, hnq, fresh⟩ := h.alloc_all
    have hp : (schedMkProcess s .all).1 = some s.heap := rfl
    have hsame : (schedMkProcess s .all).2.current = s.current := rfl
    have hqueue : ∀ u, Queued (schedMkProcess s .all).2 u ↔ Queued s u := fun u => Iff.rfl
    rw [hp] at hs ⊢
    generalize (schedMkProcess s .all).2 = s₁ at *
    have hlt : occupied s₁.threadQueue < threadQueueSize := by
      have hc := ha.count
      have hr := ha.room
      omega
    obtain ⟨hcur, hkeep⟩ := schedAddProcess_keeps hts ((hqueue _).not.mpr hnq) hlt
    obtain rfl : s' = (schedAddProcess s₁ (some s.heap)).2 := congrArg Prod.snd hs
    have hrc : rc = (schedAddProcess s₁ (some s.heap)).1 := congrArg Prod.fst hs
    have keep (u : Nat) (hu : Queued s u) := hkeep u ((hqueue u).mpr hu)
    refine ⟨?_, ?_, fun u hu => ⟨(keep u hu).1, (keep u hu).2.trans (fresh u hu)⟩⟩
    · by_cases hroom : s₁.schedCurrentThreads + 1 < threadQueueSize
      · have hzero : rc = 0 := by rw [hrc, schedAddProcess_eq hts, if_neg (by omega)]
        have hadd := ha.add (p := s.heap) (t := s.heap + 1) (by omega) (by omega) hts ho
          (by simp [hnull]) ((hqueue _).not.mpr hnq) hroom
        simpa [hzero] using hadd
      · have heq : schedAddProcess s₁ (some s.heap) = (-ENOSPC, s₁) := by
          rw [schedAddProcess_eq hts, if_pos (by omega)]
        simpa [hrc, heq, ENOSPC] using ha
    · exact settle (hcur.trans hsame) fun u hu => (keep u hu).2.trans (fresh u hu)

/-- Creation fills an empty slot only. -/
theorem create_slot (h : Consistent added s) (g : Grant) {rc : Int}
    (hs : (rc, s') = schedAddProcess (schedMkProcess s g).2 (schedMkProcess s g).1)
    {i : Fin threadQueueSize} {t : Nat} (ht : s.threadQueue i = some t) :
    s'.threadQueue i = some t := by
  cases g with
  | nothing =>
    cases hs
    exact ht
  | noStack =>
    cases hs
    exact ht
  | all =>
    obtain ⟨hts, -⟩ := h.alloc_all
    obtain rfl : s' = (schedAddProcess (schedMkProcess s .all).2 (some s.heap)).2 :=
      congrArg Prod.snd hs
    rw [schedAddProcess_eq hts]
    split_ifs
    · exact ht
    · have hlt : occupied s.threadQueue < threadQueueSize := by
        have hc := h.count
        have hr := h.room
        omega
      obtain ⟨j, hj, -, hplace⟩ := place_eq (s.heap + 1) hlt
      have hij : i ≠ j := fun e => by simp [← e, ht] at hj
      change place s.threadQueue (s.heap + 1) i = some t
      rw [hplace, Function.update_of_ne hij]
      exact ht

theorem create_fields (g : Grant) {rc : Int}
    (hs : (rc, s') = schedAddProcess (schedMkProcess s g).2 (schedMkProcess s g).1) :
    s'.current = s.current ∧ s'.canSchedule = s.canSchedule ∧ s'.schedNext = s.schedNext := by
  have add (u : Kernel) (p : Option Nat) : (schedAddProcess u p).2.current = u.current ∧
      (schedAddProcess u p).2.canSchedule = u.canSchedule ∧
      (schedAddProcess u p).2.schedNext = u.schedNext := by
    cases p with
    | none => exact ⟨rfl, rfl, rfl⟩
    | some p =>
      rw [schedAddProcess]
      split_ifs <;> exact ⟨rfl, rfl, rfl⟩
  have mk : (schedMkProcess s g).2.current = s.current ∧
      (schedMkProcess s g).2.canSchedule = s.canSchedule ∧
      (schedMkProcess s g).2.schedNext = s.schedNext := by
    cases g <;> exact ⟨rfl, rfl, rfl⟩
  obtain rfl : s' = _ := congrArg Prod.snd hs
  exact ⟨(add _ _).1.trans mk.1, (add _ _).2.1.trans mk.2.1, (add _ _).2.2.trans mk.2.2⟩

theorem stays (h : Consistent added s) (hset : Settled s) (hst : Stays s l s') :
    Consistent added s' ∧ Settled s' := by
  obtain ⟨-, t, th, hc, ho, hstate, rfl, -⟩ := hst
  have hnz := hset t hc
  refine ⟨h.setThread t th ho (fun _ => hc) (fun hz => absurd (hstate.symm.trans hz) hnz), ?_⟩
  intro u hu
  obtain rfl : t = u := Option.some.inj (hc.symm.trans hu)
  rw [setThread_thread, hstate]
  exact hnz

theorem parked (h : Consistent added s) {c : Nat} {th : Thread} (hc : s.current = some c)
    (ho : th.owner = (s.thread c).owner) (hr : th.state ≠ .running)
    (hz : th.state = .zombie → s.pidOf c ≠ 1) :
    Consistent added (s.setThread c th) ∧ ∀ t, ((s.setThread c th).thread t).state ≠ .running := by
  obtain ⟨v, hv, hq⟩ := h.current
  obtain rfl : v = c := Option.some.inj (hv.symm.trans hc)
  refine ⟨h.setThread v th ho (fun hr' => absurd hr' hr) (fun hz' => ⟨hq, hz hz'⟩), ?_⟩
  intro t ht
  by_cases htc : t = v
  · subst htc
    rw [setThread_thread] at ht
    exact hr ht
  · rw [setThread_thread_ne s th htc] at ht
    exact htc (Option.some.inj ((h.running t ht).symm.trans hv))

theorem switches (h : Consistent added s) (hsw : Switches s l s') :
    Consistent added s' ∧ Settled s' := by
  obtain ⟨c, th, i, t, hc, ho, hr, hz, hon, -, ht, hm, -, rfl⟩ := hsw
  obtain ⟨hp, hnone⟩ := h.parked hc ho hr hz.2
  exact hp.dispatch hnone ht hm hon

/-- Every step keeps the invariant, and adds to the list what the label shows as added. -/
theorem step (h : Consistent added s) (hset : Settled s) (hstep : Step s l s') :
    Consistent (added ++ (addedBy l).toList) s' ∧ Settled s' := by
  rcases h.step_cases hset hstep with ⟨rfl, rfl⟩ | ⟨g, rc, rfl, hs⟩ | hst | hsw
  · refine ⟨⟨h.count, h.room, h.once, ?_, h.sole, h.alive, h.current, h.running, h.dead, ?_⟩, hset⟩
    · simp only [addedBy, Option.toList_none, List.append_nil]
      exact h.placed
    · intro hoff
      exact absurd hoff (by simp [idleTask])
  · obtain ⟨h1, h2, -⟩ := h.create hset g hs
    exact ⟨h1, h2⟩
  · have hquiet : addedBy l = none := by
      obtain ⟨hq, -⟩ := hst
      unfold addedBy
      split
      · rename_i e p rc
        cases hq
      · rfl
    simpa [hquiet] using h.stays hset hst
  · have hsel : addedBy l = none := by
      obtain ⟨-, -, -, t, -, -, -, -, -, -, -, -, hq, -⟩ := hsw
      unfold addedBy
      split
      · rename_i e p rc
        cases hq
      · rfl
    simpa [hsel] using h.switches hsw

/-- No step takes a thread out of its slot. -/
theorem slot_step (h : Consistent added s) (hset : Settled s) (hstep : Step s l s')
    {i : Fin threadQueueSize} {t : Nat} (ht : s.threadQueue i = some t) :
    s'.threadQueue i = some t := by
  rcases h.step_cases hset hstep with ⟨-, rfl⟩ | ⟨g, rc, -, hs⟩ | ⟨-, u, th, -, -, -, rfl, -⟩ |
    ⟨c, th, j, u, -, -, -, -, -, -, -, -, -, rfl⟩
  · exact ht
  · exact h.create_slot g hs ht
  · exact ht
  · exact ht

/-- A zombie is left alone: it keeps its state and is not the thread that a step selects. -/
theorem zombie_step (h : Consistent added s) (hset : Settled s) (hstep : Step s l s') {t : Nat}
    (ht : (s.thread t).state = .zombie) :
    (s'.thread t).state = .zombie ∧ selectedBy l ≠ some t := by
  have hnc : s.current ≠ some t := fun hc => hset t hc ht
  rcases h.step_cases hset hstep with ⟨rfl, rfl⟩ | ⟨g, rc, rfl, hs⟩ |
    ⟨hq, u, th, hc, -, -, rfl, -⟩ | ⟨c, th, j, u, hc, -, -, -, -, -, -, hm, hsel, rfl⟩
  · exact ⟨ht, by simp [selectedBy]⟩
  · obtain ⟨-, -, hkeep⟩ := h.create hset g hs
    rw [(hkeep t (h.dead t ht)).2]
    exact ⟨ht, by simp [selectedBy]⟩
  · have htu : t ≠ u := fun e => hnc (e ▸ hc)
    rw [setThread_thread_ne s th htu]
    refine ⟨ht, ?_⟩
    obtain ⟨e, o⟩ := l
    obtain rfl : o = .quiet := hq
    simp [selectedBy]
  · have htc : t ≠ c := fun e => hnc (e ▸ hc)
    have htz : ((s.setThread c th).thread t).state = .zombie := by
      rw [setThread_thread_ne s th htc]
      exact ht
    have htu : t ≠ u := fun e => hm.1 (e ▸ htz)
    rw [dispatch_thread_ne _ j htu]
    refine ⟨htz, ?_⟩
    obtain ⟨e, o⟩ := l
    obtain rfl : o = .selected u := hsel
    simpa [selectedBy] using htu.symm

/-- Without a call of `sched_select` the time slice is used up tick by tick. -/
theorem slice_step (h : Consistent added s) (hset : Settled s) (hstep : Step s l s')
    (hon : s.canSchedule = true) (hsel : selectedBy l = none) :
    s'.canSchedule = true ∧ ∃ t, s.current = some t ∧ s'.current = some t ∧
      if l.1 = .tick then
        (s'.thread t).timeUsed = (s.thread t).timeUsed + 1 ∧ (s'.thread t).timeUsed < maxProcTime
      else (s'.thread t).timeUsed = (s.thread t).timeUsed := by
  obtain ⟨c, hc, hq⟩ := h.current
  rcases h.step_cases hset hstep with ⟨rfl, rfl⟩ | ⟨g, rc, rfl, hs⟩ |
    ⟨-, u, th, hcu, -, -, rfl, htime⟩ | ⟨-, -, -, u, -, -, -, -, -, -, -, -, hu, -⟩
  · exact ⟨rfl, c, hc, hc, rfl⟩
  · obtain ⟨-, -, hkeep⟩ := h.create hset g hs
    obtain ⟨hcur, hcan, -⟩ := create_fields g hs
    exact ⟨hcan.trans hon, c, hc, hcur.trans hc, by simp [(hkeep c hq).2]⟩
  · obtain ⟨htick, htu, hlt⟩ := htime hon
    exact ⟨hon, u, hcu, hcu, by simp [htick, htu, htu ▸ hlt]⟩
  · obtain ⟨e, o⟩ := l
    obtain rfl : o = .selected u := hu
    simp [selectedBy] at hsel

end Consistent

theorem Reached.consistent {ls : List Label} {s : Kernel} (h : Reached ls s) :
    Consistent (addedIn ls) s ∧ Settled s := by
  obtain ⟨s₀, hboot, hrun⟩ := h
  obtain rfl : booted = s₀ := Except.ok.inj (schedStartIdle_eq.symm.trans hboot)
  refine hrun.historyInvariant (fun ls s => Consistent (addedIn ls) s ∧ Settled s) ?_ []
    booted_consistent
  · intro ls s l s' ⟨h1, h2⟩ hstep
    have hadded : addedIn (ls ++ [l]) = addedIn ls ++ (addedBy l).toList := by
      cases hl : addedBy l <;> simp [addedIn, List.filterMap_append, hl]
    rw [hadded]
    exact h1.step h2 hstep

/-- What a run passes through is reachable again. -/
theorem Reached.append {ls ms : List Label} {s s' : Kernel} (h : Reached ls s)
    (hrun : Run Step s ms s') : Reached (ls ++ ms) s' := by
  obtain ⟨s₀, hboot, h₀⟩ := h
  exact ⟨s₀, hboot, h₀.append hrun⟩

/-- The state after an event that does not fault. -/
def after (s : Kernel) (e : Event) : Kernel :=
  match step s e with
  | .ok (_, s') => s'
  | .error _ => s

theorem step_after {s : Kernel} {e : Event} {o : Obs} (h : (step s e).map Prod.fst = .ok o) :
    step s e = .ok (o, after s e) := by
  unfold after
  cases hs : step s e with
  | error e => simp [hs, Except.map] at h
  | ok r =>
    obtain ⟨o', s'⟩ := r
    obtain rfl : o' = o := by simpa [hs, Except.map] using h
    rfl

/-- The idle thread starts init, a process is created and gets its turn after init. -/
def started : Kernel := after (after (after (after booted .idle) (.create .all)) .yield) .yield

def startedLabels : List Label :=
  [(.idle, .quiet), (.create .all, .created (some 4) 0), (.yield, .selected 3),
    (.yield, .selected 5)]

theorem reached_started : Reached startedLabels started := by
  refine ⟨booted, schedStartIdle_eq, ?_⟩
  refine .cons ⟨⟨1, rfl, rfl⟩, step_after (by decide +kernel)⟩
    (.cons ⟨trivial, step_after (by decide +kernel)⟩ ?_)
  exact .cons ⟨trivial, step_after (by decide +kernel)⟩ (.single ⟨trivial, step_after (by decide +kernel)⟩)

end Levos.Scheduler
