import Levos.Scheduler.Safety
import Mathlib.Data.Finset.Option
import Mathlib.Data.Finset.Union

namespace Levos.Scheduler

open Levos.Framework

/-- The processes that own a thread of the queue, by pointer. -/
def queuedProcesses (s : Kernel) : Finset Nat :=
  Finset.univ.biUnion fun i => ((s.threadQueue i).map fun t => (s.thread t).owner).toFinset

/-- The part of the scheduler's invariant that speaks of slots and counters only. A process may
own several slots. -/
structure InStep (s : Kernel) : Prop where
  threads : s.schedCurrentThreads = occupied s.threadQueue
  processes : s.schedCurrentProcesses = (queuedProcesses s).card
  room : s.schedCurrentThreads < threadQueueSize

def Other (s : Kernel) (p : Nat) : Prop :=
  ∃ c, s.current = some c ∧ (s.process p).pid ≠ s.pidOf c

/-- The slots that hold a thread of `p`, as `sched_rm_process` tells them. -/
def slotsOf (s : Kernel) (p : Nat) : Finset (Fin threadQueueSize) :=
  Finset.univ.filter fun i => ∃ t, s.threadQueue i = some t ∧ s.pidOf t = (s.process p).pid

/-- What the removal of a process other than the current one is to do. -/
def RmRight (s : Kernel) (p : Nat) : Prop :=
  if slotsOf s p = ∅ then schedRmProcess s (some p) = .ok (.back (-EINVAL), s)
  else ∃ s', schedRmProcess s (some p) = .ok (.back 0, s') ∧
    (∀ i, s'.threadQueue i = if i ∈ slotsOf s p then none else s.threadQueue i) ∧
    s'.schedCurrentThreads = s.schedCurrentThreads - (slotsOf s p).card ∧
    s'.schedCurrentProcesses = s.schedCurrentProcesses - 1

/-- The slot loop stops at the first empty slot: those that it empties lie behind it. -/
theorem clearSlots_fault {s : Kernel} {pid : Nat} {is : List (Fin threadQueueSize)} {n : Nat}
    {q : ThreadQueue} (hnd : is.Nodup) (hempty : ∃ i ∈ is, q i = none) :
    clearSlots s pid is n q = .error .nullPointer := by
  induction is generalizing n q with
  | nil =>
    obtain ⟨i, hi, -⟩ := hempty
    simp at hi
  | cons i is ih =>
    rw [List.nodup_cons] at hnd
    cases hq : q i with
    | none => simp only [clearSlots, hq]
    | some t =>
      obtain ⟨j, hj, hnone⟩ := hempty
      have hji : j ≠ i := fun e => by simp [e, hq] at hnone
      have hmem : j ∈ is := (List.mem_cons.mp hj).resolve_left hji
      simp only [clearSlots, hq]
      split_ifs
      · apply ih hnd.2
        exact ⟨j, hmem, by simp [hji, hnone]⟩
      · apply ih hnd.2
        exact ⟨j, hmem, hnone⟩

/-- A queue that is counted right has an empty slot. -/
theorem exists_empty {q : ThreadQueue} (h : occupied q < threadQueueSize) : ∃ i, q i = none := by
  obtain ⟨i, hi, -⟩ := place_eq 0 h
  exact ⟨i, hi⟩

theorem schedRmProcess_fault {s : Kernel} {p : Nat} (hempty : ∃ i, s.threadQueue i = none)
    (ho : Other s p) : schedRmProcess s (some p) = .error .nullPointer := by
  obtain ⟨c, hc, hpid⟩ := ho
  obtain ⟨i, hi⟩ := hempty
  have hclear : clearSlots s (s.process p).pid (List.finRange threadQueueSize) 0 s.threadQueue =
      .error .nullPointer :=
    clearSlots_fault (List.nodup_finRange _) ⟨i, List.mem_finRange i, hi⟩
  simp [schedRmProcess, hc, hpid, rmQueued, hclear]

theorem not_rmRight {s : Kernel} {p : Nat} (hfault : schedRmProcess s (some p) = .error .nullPointer) :
    ¬RmRight s p := by
  unfold RmRight
  rw [hfault]
  split_ifs
  · simp
  · rintro ⟨s', h, -⟩
    cases h

inductive QueueOp
  | add (p : Nat)
  | remove (p : Nat)
  deriving DecidableEq

def QueueOp.run (s : Kernel) : QueueOp → Except Fault Kernel
  | .add p => .ok (schedAddProcess s (some p)).2
  | .remove p => do
    let (_, s) ← schedRmProcess s (some p)
    return s

def runOps : Kernel → List QueueOp → Except Fault Kernel
  | s, [] => .ok s
  | s, op :: ops => do runOps (← op.run s) ops

/-- A process is added once, with threads of its own, and the current one is not removed. -/
def QueueOp.Allowed (s : Kernel) : QueueOp → Prop
  | .add p => (s.process p).threads ≠ [] ∧ (∀ t ∈ (s.process p).threads, (s.thread t).owner = p) ∧
      p ∉ queuedProcesses s
  | .remove p => Other s p

def AllAllowed : Kernel → List QueueOp → Prop
  | _, [] => True
  | s, op :: ops => op.Allowed s ∧ ∀ s', op.run s = .ok s' → AllAllowed s' ops

theorem mem_queuedProcesses {s : Kernel} {p : Nat} :
    p ∈ queuedProcesses s ↔ ∃ i t, s.threadQueue i = some t ∧ (s.thread t).owner = p := by
  simp [queuedProcesses]

theorem setStates_owner (m : Nat → Thread) (ts : List Nat) (st : ThreadState) (u : Nat) :
    (setStates m ts st u).owner = (m u).owner := by
  induction ts generalizing m with
  | nil => rfl
  | cons t ts ih =>
    change (setStates (Function.update m t { m t with state := st }) ts st u).owner = _
    rw [ih]
    by_cases h : u = t
    · simp [h]
    · simp [h]

/-- The outer loop of `sched_add_process` puts every thread into a slot that was empty. -/
theorem places_spec (ts : List Nat) {q : ThreadQueue}
    (hroom : occupied q + ts.length ≤ threadQueueSize) :
    occupied (ts.foldl place q) = occupied q + ts.length ∧
    (∀ i t, q i = some t → ts.foldl place q i = some t) ∧
    (∀ i t, ts.foldl place q i = some t → q i = some t ∨ t ∈ ts) ∧
    ∀ t ∈ ts, ∃ i, ts.foldl place q i = some t := by
  induction ts generalizing q with
  | nil => simp
  | cons u us ih =>
    rw [List.length_cons] at hroom
    obtain ⟨j, hj, -, hplace⟩ := place_eq u (show occupied q < threadQueueSize by omega)
    have hocc : occupied (place q u) = occupied q + 1 := by
      rw [hplace]
      exact occupied_update hj
    obtain ⟨h1, h2, h3, h4⟩ := ih (q := place q u) (by omega)
    have hself : place q u j = some u := by simp [hplace]
    have hold (i : Fin threadQueueSize) (t : Nat) (hi : q i = some t) : place q u i = some t := by
      have hij : i ≠ j := fun e => by simp [← e, hi] at hj
      simpa [hplace, hij] using hi
    simp only [List.foldl_cons, List.length_cons]
    refine ⟨by omega, fun i t hi => h2 i t (hold i t hi), ?_, ?_⟩
    · intro i t hi
      rcases h3 i t hi with h | h
      · by_cases hij : i = j
        · subst hij
          have htu : u = t := by simpa [hself] using h
          exact .inr (by simp [htu])
        · exact .inl (by simpa [hplace, hij] using h)
      · exact .inr (List.mem_cons_of_mem _ h)
    · intro t ht
      rcases List.mem_cons.mp ht with rfl | ht
      · exact ⟨j, h2 j t hself⟩
      · exact h4 t ht

/-- An add of a process that is not queued keeps counters and slots in step, accepted or not. -/
theorem InStep.add {s : Kernel} {p : Nat} (h : InStep s) (hop : (QueueOp.add p).Allowed s) :
    InStep (schedAddProcess s (some p)).2 := by
  obtain ⟨hne, howner, hnew⟩ := hop
  unfold schedAddProcess
  dsimp only
  split_ifs with hfull
  · exact h
  · have hthreads := h.threads
    have hroom := h.room
    obtain ⟨hocc, hold, honly, hin⟩ :=
      places_spec (s.process p).threads (q := s.threadQueue) (by omega)
    refine ⟨?_, ?_, ?_⟩
    · dsimp only
      rw [hocc]
      push_cast
      omega
    · have hset : queuedProcesses (schedAddProcess s (some p)).2 = insert p (queuedProcesses s) := by
        ext r
        simp only [Finset.mem_insert, mem_queuedProcesses, schedAddProcess, if_neg hfull,
          setStates_owner]
        constructor
        · rintro ⟨i, t, hi, hr⟩
          rcases honly i t hi with h1 | h1
          · exact .inr ⟨i, t, h1, hr⟩
          · exact .inl (hr.symm.trans (howner t h1))
        · rintro (rfl | ⟨i, t, hi, hr⟩)
          · obtain ⟨t, ht⟩ := List.exists_mem_of_ne_nil _ hne
            obtain ⟨i, hi⟩ := hin t ht
            exact ⟨i, t, hi, howner t ht⟩
          · exact ⟨i, t, hold i t hi, hr⟩
      simp only [schedAddProcess, if_neg hfull] at hset
      rw [hset, Finset.card_insert_of_notMem hnew]
      push_cast
      rw [h.processes]
    · dsimp only
      omega

/-- A sequence of calls comes to its end, with counters and slots in step, if it only adds. -/
theorem runOps_inStep {ops : List QueueOp} {s : Kernel} (h : InStep s) (hall : AllAllowed s ops) :
    (∃ s', runOps s ops = .ok s' ∧ InStep s') ↔ ∀ p, .remove p ∉ ops := by
  induction ops generalizing s with
  | nil => simp [runOps, h]
  | cons op ops ih =>
    obtain ⟨hop, hrest⟩ := hall
    cases op with
    | add p =>
      have hrun : runOps s (.add p :: ops) = runOps (schedAddProcess s (some p)).2 ops := rfl
      rw [hrun, ih (h.add hop) (hrest _ rfl)]
      simp
    | remove p =>
      have hthreads := h.threads
      have hroom := h.room
      have hfault := schedRmProcess_fault (exists_empty (by omega)) hop
      have hrun : runOps s (.remove p :: ops) = .error .nullPointer := by
        simp [runOps, QueueOp.run, hfault]
      rw [hrun]
      constructor
      · rintro ⟨s', hs', -⟩
        cases hs'
      · intro hnone
        exact absurd (List.mem_cons_self ..) (hnone p)

/-- No removal of a process other than the current one does what it is to do, since the slot loop
follows the empty slot that every queue has; a sequence of calls keeps the counters in step exactly
when it makes no such removal. -/
theorem schedRmProcess_never {s : Kernel} (hcount : s.schedCurrentThreads = occupied s.threadQueue)
    (hroom : s.schedCurrentThreads < threadQueueSize) :
    (∀ p, Other s p →
      ¬RmRight s p ∧ schedRmProcess s (some p) = .error .nullPointer) ∧
    ∀ ops, InStep s → AllAllowed s ops →
      ((∃ s', runOps s ops = .ok s' ∧ InStep s') ↔ ∀ p, .remove p ∉ ops) := by
  refine ⟨?_, fun ops h hall => runOps_inStep h hall⟩
  intro p ho
  have hfault := schedRmProcess_fault (exists_empty (q := s.threadQueue) (by omega)) ho
  exact ⟨not_rmRight hfault, hfault⟩

theorem booted_inStep : InStep booted ∧ Other booted initProcess :=
  ⟨⟨by decide, by decide, by decide⟩, 1, rfl, by decide⟩

/-- While the idle thread runs, init is not removed from the queue that it stands in. -/
theorem schedRmProcess_never_booted :
    InStep booted ∧ Other booted initProcess ∧ ¬RmRight booted initProcess ∧
      ((∃ s', runOps booted [.remove initProcess] = .ok s' ∧ InStep s') ↔
        ∀ p, .remove p ∉ [QueueOp.remove initProcess]) := by
  obtain ⟨hstep, ho⟩ := booted_inStep
  refine ⟨hstep, ho, ?_, ?_⟩
  · exact ((schedRmProcess_never hstep.threads hstep.room).1 initProcess ho).1
  · exact (schedRmProcess_never hstep.threads hstep.room).2 _ hstep ⟨ho, fun _ _ => trivial⟩

/-- init stands in slot 1, and the loop follows slot 2, which is empty. -/
theorem schedRmProcess_init :
    InStep booted ∧ Other booted initProcess ∧ slotsOf booted initProcess ≠ ∅ ∧
      ¬RmRight booted initProcess ∧ schedRmProcess booted (some initProcess) = .error .nullPointer := by
  have hfault : schedRmProcess booted (some initProcess) = .error .nullPointer :=
    schedRmProcess_fault ⟨⟨2, by decide⟩, rfl⟩ booted_inStep.2
  exact ⟨booted_inStep.1, booted_inStep.2, by decide, not_rmRight hfault, hfault⟩

end Levos.Scheduler
