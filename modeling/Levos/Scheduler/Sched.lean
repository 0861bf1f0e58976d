import Levos.Framework.Errno
import Levos.Framework.Fault
import Levos.Framework.Run
import Mathlib.Data.Fintype.Card
import Mathlib.Data.List.FinRange
import Mathlib.Logic.Function.Basic

namespace Levos.Scheduler

def threadQueueSize : Nat := 32

def maxProcTime : Nat := 10

inductive ThreadState
  | null
  | running
  | preempted
  | ready
  | zombie
  | removed
  deriving DecidableEq

/-- `owner` points to a process; the saved registers are the business of the context switch. -/
structure Thread where
  state : ThreadState
  timeUsed : Nat
  owner : Nat

/-- The threads of a process, by pointer; `no_threads` is the length of the list. -/
structure Process where
  pid : Nat
  threads : List Nat

abbrev ThreadQueue := Fin threadQueueSize → Option Nat

/-- The variables of the scheduler and the objects they point to. Pointers are numbers and
`heap` is the next one that the allocator gives out. `global_pid` does not wrap: every pid costs a
`kmalloc` of a process that is never freed. -/
structure Kernel where
  threadQueue : ThreadQueue
  schedNext : Nat
  schedCurrentProcesses : Int
  schedCurrentThreads : Int
  canSchedule : Bool
  globalPid : Nat
  current : Option Nat
  thread : Nat → Thread
  process : Nat → Process
  heap : Nat

def Kernel.setThread (s : Kernel) (t : Nat) (th : Thread) : Kernel :=
  { s with thread := Function.update s.thread t th }

/-- The pid behind a thread pointer, `t->owner->pid`. -/
def Kernel.pidOf (s : Kernel) (t : Nat) : Nat := (s.process (s.thread t).owner).pid

/-- The kernel as `sched_init` leaves it; `can_schedule` and `global_pid` still hold 0. -/
def schedInit : Kernel where
  threadQueue := fun _ => none
  schedNext := 0
  schedCurrentProcesses := 0
  schedCurrentThreads := 0
  canSchedule := false
  globalPid := 0
  current := none
  thread := fun _ => ⟨.null, 0, 0⟩
  process := fun _ => ⟨0, []⟩
  heap := 0

def freeSlot (q : ThreadQueue) : Option (Fin threadQueueSize) :=
  (List.finRange threadQueueSize).find? fun i => (q i).isNone

/-- One turn of the outer loop of `sched_add_process`: the thread goes to the first empty slot. -/
def place (q : ThreadQueue) (t : Nat) : ThreadQueue :=
  match freeSlot q with
  | some i => Function.update q i (some t)
  | none => q

def setStates (m : Nat → Thread) (ts : List Nat) (st : ThreadState) : Nat → Thread :=
  ts.foldl (fun m t => Function.update m t { m t with state := st }) m

def schedAddProcess (s : Kernel) : Option Nat → Int × Kernel
  | none => (-EINVAL, s)
  | some p =>
    let ts := (s.process p).threads
    if s.schedCurrentThreads + ts.length ≥ threadQueueSize then (-ENOSPC, s)
    else (0, { s with
      threadQueue := ts.foldl place s.threadQueue
      schedCurrentProcesses := s.schedCurrentProcesses + 1
      schedCurrentThreads := s.schedCurrentThreads + ts.length
      thread := setStates s.thread ts .ready })

def schedMarkZombie (s : Kernel) (p : Nat) : Kernel :=
  { s with thread := setStates s.thread (s.process p).threads .zombie }

/-- `sched_destroy_process` has its body commented out. -/
def schedDestroyProcess (s : Kernel) (_p : Nat) : Int × Kernel := (0, s)

/-- What `sched_mk_process` meets: a null argument or a failed `kmalloc`, a failed
`sched_create_stack`, or neither. -/
inductive Grant
  | nothing
  | noStack
  | all
  deriving DecidableEq

/-- The part of `sched_mk_process` that the scheduler sees: the process, its one thread and the
pid, which is used up even when the stack is refused. -/
def schedMkProcess (s : Kernel) : Grant → Option Nat × Kernel
  | .nothing => (none, s)
  | .noStack => (none, { s with globalPid := s.globalPid + 1 })
  | .all =>
    let p := s.heap
    let t := s.heap + 1
    (some p, { s with
      globalPid := s.globalPid + 1
      thread := Function.update s.thread t ⟨.null, 0, p⟩
      process := Function.update s.process p ⟨s.globalPid, [t]⟩
      heap := s.heap + 2 })

/-- `sched_select` from `sched_next` on. `retry` is taken until a slot qualifies; with `fuel`
turns of it used up the loop has not come to an end. -/
def selectLoop (s : Kernel) : Nat → Nat → Except Fault (Nat × Nat)
  | 0, _ => .error .diverges
  | fuel + 1, next =>
    let i := if h : next < threadQueueSize then (⟨next, h⟩ : Fin threadQueueSize) else ⟨0, by decide⟩
    match s.threadQueue i with
    | none => selectLoop s fuel (i + 1)
    | some t =>
      -- only to schedule to idle if there are no processes
      if (s.thread t).state = .zombie ∨ (s.pidOf t = 0 ∧ s.schedCurrentThreads > 1) then
        selectLoop s fuel (i + 1)
      else .ok (t, i + 1)

/-- Nothing but the cursor changes between two retries, so that a whole turn of the queue
without a find never ends. -/
def schedSelect (s : Kernel) : Except Fault (Nat × Kernel) := do
  let (t, next) ← selectLoop s threadQueueSize s.schedNext
  return (t, { s with schedNext := next })

/-- Where control is after a function that may switch contexts: back at its caller with a
return value, or at the thread that `sched_select` returned. -/
inductive Control
  | back (rc : Int)
  | switched (next : Nat)
  deriving DecidableEq

/-- The end of `sched_schedule`, from its label `next` on. -/
def schedNextThread (s : Kernel) (prev : Option Nat) : Except Fault (Control × Kernel) := do
  let s := match prev with
    | some t => (schedDestroyProcess s (s.thread t).owner).2
    | none => s
  let (t, s) ← schedSelect s
  return (.switched t, { s with
    current := some t
    thread := Function.update s.thread t { s.thread t with timeUsed := 0, state := .running } })

def schedSchedule (s : Kernel) : Except Fault (Control × Kernel) :=
  if s.canSchedule = false then .ok (.back 0, s)
  else match s.current with
    | none => .error (.panic "Scheduler has no current process\n")
    | some t =>
      let th := s.thread t
      if th.state = .zombie then schedNextThread s (some t)
      else
        let th := { th with timeUsed := th.timeUsed + 1 }
        let s := s.setThread t th
        if th.timeUsed < maxProcTime then .ok (.back 0, s)
        else schedNextThread (s.setThread t { th with state := .preempted }) none

/-- `current->time_used = MAX_PROC_TIME` and `int $0x2F`. -/
def scheduleNoirq (s : Kernel) : Except Fault (Control × Kernel) :=
  match s.current with
  | none => .error .nullPointer
  | some t => schedSchedule (s.setThread t { s.thread t with timeUsed := maxProcTime })

/-- The slot loop of `sched_rm_process`; it follows every slot, the empty ones too. -/
def clearSlots (s : Kernel) (pid : Nat) :
    List (Fin threadQueueSize) → Nat → ThreadQueue → Except Fault (Nat × ThreadQueue)
  | [], success, q => .ok (success, q)
  | i :: is, success, q =>
    match q i with
    | none => .error .nullPointer
    | some t =>
      if s.pidOf t = pid then clearSlots s pid is (success + 1) (Function.update q i none)
      else clearSlots s pid is success q

/-- What `sched_rm_process` does after its first `if`. -/
def rmQueued (s : Kernel) (p : Nat) : Except Fault (Control × Kernel) := do
  let (success, q) ← clearSlots s (s.process p).pid (List.finRange threadQueueSize) 0 s.threadQueue
  let s := { s with threadQueue := q }
  if success = 0 then return (.back (-EINVAL), s)
  let (rc, s) := schedDestroyProcess { s with
    schedCurrentProcesses := s.schedCurrentProcesses - 1
    schedCurrentThreads := s.schedCurrentThreads - success } p
  return (.back rc, s)

def schedRmProcess (s : Kernel) : Option Nat → Except Fault (Control × Kernel)
  | none => .ok (.back (-EINVAL), s)
  | some p =>
    match s.current with
    | none => .error .nullPointer
    | some c =>
      if (s.process p).pid = s.pidOf c then
        if s.pidOf c = 1 then .error (.panic "Attempted to kill init process!\n")
        else do
          let (ctl, s) ← scheduleNoirq (schedMarkZombie s (s.thread c).owner)
          match ctl with
          | .switched t => return (.switched t, s)
          -- the context switch was refused, and the call falls through to the slot loop
          | .back _ => rmQueued s p
      else rmQueued s p

/-- `syscall_exit` for the current process. -/
def syscallExit (s : Kernel) : Except Fault (Control × Kernel) :=
  match s.current with
  | none => .error .nullPointer
  | some t => schedRmProcess s (some (s.thread t).owner)

/-- The prologue of `idle_task`, before it loops over `schedule_noirq`. -/
def idleTask (s : Kernel) : Kernel := { s with canSchedule := true }

/-- `sched_start_idle`, up to the switch to the idle thread. -/
def schedStartIdle (s : Kernel) : Except Fault Kernel :=
  let (idle, s) := schedMkProcess s .all
  let (_, s) := schedAddProcess s idle
  match idle with
  | none => .error .nullPointer
  | some p =>
    match (s.process p).threads with
    | [] => .error .outOfBounds
    | t :: _ =>
      let (kinit, s) := schedMkProcess { s with current := some t } .all
      .ok (schedAddProcess s kinit).2

end Levos.Scheduler
