import Levos.Scheduler.Select

namespace Levos.Scheduler

open Levos.Framework

/-- What can happen to the scheduler between two moments at which interrupts are on. -/
inductive Event
  | idle
  | create (g : Grant)
  | tick
  | yield
  | exit
  deriving DecidableEq

/-- What an event shows of itself: the process it tried to add and the return value, or the
thread that `sched_select` returned. -/
inductive Obs
  | quiet
  | created (p : Option Nat) (rc : Int)
  | selected (t : Nat)
  deriving DecidableEq

abbrev Label := Event × Obs

def Control.obs : Control → Obs
  | .back _ => .quiet
  | .switched t => .selected t

def observe (r : Except Fault (Control × Kernel)) : Except Fault (Obs × Kernel) := do
  let (ctl, s) ← r
  return (ctl.obs, s)

def step (s : Kernel) : Event → Except Fault (Obs × Kernel)
  | .idle => .ok (.quiet, idleTask s)
  | .create g =>
    let (p, s) := schedMkProcess s g
    let (rc, s) := schedAddProcess s p
    .ok (.created p rc, s)
  | .tick => observe (schedSchedule s)
  | .yield => observe (scheduleNoirq s)
  | .exit => observe (syscallExit s)

/-- Only the idle thread runs `idle_task`, and the exits are those of pid 2 and above. -/
def Allowed (s : Kernel) : Event → Prop
  | .idle => ∃ t, s.current = some t ∧ s.pidOf t = 0
  | .exit => ∃ t, s.current = some t ∧ 2 ≤ s.pidOf t
  | _ => True

def Step (s : Kernel) (l : Label) (s' : Kernel) : Prop := Allowed s l.1 ∧ step s l.1 = .ok (l.2, s')

/-- The states of a run that `sched_start_idle` began, with the labels of the run. -/
def Reached (ls : List Label) (s : Kernel) : Prop :=
  ∃ s₀, schedStartIdle schedInit = .ok s₀ ∧ Run Step s₀ ls s

/-- The processes that `sched_start_idle` adds, by pointer. -/
def idleProcess : Nat := 0
def initProcess : Nat := 2

def addedBy : Label → Option Nat
  | (_, .created p rc) => if rc = 0 then p else none
  | _ => none

/-- Every process that some call of `sched_add_process` accepted. -/
def addedIn (ls : List Label) : List Nat := [idleProcess, initProcess] ++ ls.filterMap addedBy

def selectedBy : Label → Option Nat
  | (_, .selected t) => some t
  | _ => none

/-- What the calls of `sched_select` returned, in order. -/
def selectedIn (ls : List Label) : List Nat := ls.filterMap selectedBy

def ticksIn (ls : List Label) : Nat := ls.countP fun l => l.1 = .tick

def Queued (s : Kernel) (t : Nat) : Prop := ∃ i, s.threadQueue i = some t

/-- The number of non-null slots. -/
def occupied (q : ThreadQueue) : Nat := (Finset.univ.filter fun i => (q i).isSome).card

@[simp] theorem setThread_threadQueue (s : Kernel) (t : Nat) (th : Thread) :
    (s.setThread t th).threadQueue = s.threadQueue := rfl

@[simp] theorem setThread_schedCurrentThreads (s : Kernel) (t : Nat) (th : Thread) :
    (s.setThread t th).schedCurrentThreads = s.schedCurrentThreads := rfl

@[simp] theorem setThread_schedNext (s : Kernel) (t : Nat) (th : Thread) :
    (s.setThread t th).schedNext = s.schedNext := rfl

@[simp] theorem setThread_current (s : Kernel) (t : Nat) (th : Thread) :
    (s.setThread t th).current = s.current := rfl

@[simp] theorem setThread_canSchedule (s : Kernel) (t : Nat) (th : Thread) :
    (s.setThread t th).canSchedule = s.canSchedule := rfl

@[simp] theorem setThread_process (s : Kernel) (t : Nat) (th : Thread) :
    (s.setThread t th).process = s.process := rfl

@[simp] theorem setThread_heap (s : Kernel) (t : Nat) (th : Thread) :
    (s.setThread t th).heap = s.heap := rfl

@[simp] theorem setThread_thread (s : Kernel) (t : Nat) (th : Thread) :
    (s.setThread t th).thread t = th := by
  simp [Kernel.setThread]

theorem setThread_thread_ne (s : Kernel) {t u : Nat} (th : Thread) (h : u ≠ t) :
    (s.setThread t th).thread u = s.thread u := by
  simp [Kernel.setThread, h]

theorem setThread_owner (s : Kernel) (t u : Nat) (th : Thread) (ho : th.owner = (s.thread t).owner) :
    ((s.setThread t th).thread u).owner = (s.thread u).owner := by
  by_cases h : u = t
  · subst h
    simp [ho]
  · rw [setThread_thread_ne s th h]

theorem setThread_pidOf (s : Kernel) (t u : Nat) (th : Thread) (ho : th.owner = (s.thread t).owner) :
    (s.setThread t th).pidOf u = s.pidOf u := by
  unfold Kernel.pidOf
  rw [setThread_owner s t u th ho, setThread_process]

/-- The thread that a context switch goes to, as `sched_schedule` marks it. -/
def Kernel.dispatch (s : Kernel) (i t : Nat) : Kernel :=
  { s.setThread t { s.thread t with timeUsed := 0, state := .running } with
    schedNext := i + 1
    current := some t }

theorem dispatch_pidOf (s : Kernel) (i t u : Nat) : (s.dispatch i t).pidOf u = s.pidOf u :=
  setThread_pidOf s t u _ rfl

theorem dispatch_thread (s : Kernel) (i t : Nat) :
    (s.dispatch i t).thread t = { s.thread t with timeUsed := 0, state := .running } :=
  setThread_thread s t _

theorem dispatch_thread_ne (s : Kernel) (i : Nat) {t u : Nat} (h : u ≠ t) :
    (s.dispatch i t).thread u = s.thread u :=
  setThread_thread_ne s _ h

/-- The cursor stands behind the slot that was taken. -/
theorem dispatch_cursor (s : Kernel) (i t : Nat) :
    (s.dispatch i t).cursor = Cyclic.next threadQueueSize i := rfl

/-- Marking the thread that was found does not change which slots are eligible. -/
theorem dispatch_eligible {s : Kernel} {i t : Nat} (hm : s.mayRun t) :
    (s.dispatch i t).eligible = s.eligible := by
  funext j
  have hslot : (s.dispatch i t).slot j = s.slot j := rfl
  unfold Kernel.eligible
  rw [hslot]
  cases s.slot j with
  | none => rfl
  | some u =>
    have hcount : (s.dispatch i t).schedCurrentThreads = s.schedCurrentThreads := rfl
    have hiff : (s.dispatch i t).mayRun u ↔ s.mayRun u := by
      unfold Kernel.mayRun
      rw [dispatch_pidOf, hcount]
      by_cases h : u = t
      · subst h
        rw [dispatch_thread]
        simp [hm.1]
      · rw [dispatch_thread_ne s i h]
    simp [hiff]

/-- The end of `sched_schedule`, when the scan finds a slot. -/
theorem schedNextThread_eq {s : Kernel} {i t : Nat} (prev : Option Nat)
    (h : Cyclic.scan s.eligible threadQueueSize s.cursor = some i) (ht : s.slot i = some t) :
    schedNextThread s prev = .ok (.switched t, s.dispatch i t) := by
  have hs := schedSelect_some h ht
  cases prev <;> simp only [schedNextThread, schedDestroyProcess, hs, ok_bind] <;> rfl

/-- What the end of `sched_schedule` has done when it did not fail. -/
theorem schedNextThread_ok {s s' : Kernel} {prev : Option Nat} {c : Control}
    (h : schedNextThread s prev = .ok (c, s')) :
    ∃ i t, Cyclic.scan s.eligible threadQueueSize s.cursor = some i ∧ s.slot i = some t ∧
      s.mayRun t ∧ c = .switched t ∧ s' = s.dispatch i t := by
  have hs : ∃ r, schedSelect s = .ok r := by
    cases prev <;>
    · obtain ⟨r, hr, -⟩ := bind_eq_ok.mp h
      exact ⟨r, hr⟩
  obtain ⟨⟨t, u⟩, hr⟩ := hs
  obtain ⟨i, hi, ht, hm, -⟩ := schedSelect_ok hr
  rw [schedNextThread_eq prev hi ht] at h
  cases h
  exact ⟨i, t, hi, ht, hm, rfl, rfl⟩

end Levos.Scheduler
