import Levos.Scheduler.Fairness

namespace Levos.Scheduler

open Levos.Framework

/-- The ticks that the current thread has before `sched_select` is called. -/
def Kernel.left (s : Kernel) : Nat :=
  match s.current with
  | some t => maxProcTime - 1 - (s.thread t).timeUsed
  | none => 0

section Steps

variable {added : List Nat} {s s' : Kernel} {l : Label}

theorem left_of_current {t : Nat} (h : s.current = some t) :
    s.left = maxProcTime - 1 - (s.thread t).timeUsed := by
  rw [Kernel.left, h]

theorem left_lt (s : Kernel) : s.left < maxProcTime := by
  rw [Kernel.left]
  split
  · exact Nat.lt_of_le_of_lt (Nat.sub_le _ _) (by decide)
  · decide

/-- A thread that is selected has a whole time slice before it. -/
theorem Consistent.selects_step (h : Consistent added s) (hset : Settled s) (hstep : Step s l s')
    (hl : selectedBy l ≠ none) : s'.canSchedule = true ∧ s'.left = maxProcTime - 1 := by
  rcases h.step_cases hset hstep with hidle | hcreate | hstays | hswitches
  · obtain ⟨rfl, -⟩ := hidle
    exact absurd rfl hl
  · obtain ⟨g, rc, rfl, -⟩ := hcreate
    exact absurd rfl hl
  · obtain ⟨e, o⟩ := l
    obtain ⟨hquiet, -⟩ := hstays
    obtain rfl : o = .quiet := hquiet
    exact absurd rfl hl
  · obtain ⟨c, th, i, t, -, -, -, -, hon, -, -, -, -, hs'⟩ := hswitches
    have hcurrent : s'.current = some t := by
      rw [hs']
      rfl
    refine ⟨?_, ?_⟩
    · rw [hs']
      exact hon
    · rw [left_of_current hcurrent, hs', dispatch_thread]
      rfl

/-- A tick takes from the time slice, and a call of `sched_select` begins another one. -/
theorem Consistent.left_step (h : Consistent added s) (hset : Settled s) (hstep : Step s l s')
    (hon : s.canSchedule = true) : s'.canSchedule = true ∧
      (if l.1 = .tick then 1 else 0) + s'.left ≤ s.left + maxProcTime * (selectedBy l).toList.length := by
  cases hl : selectedBy l with
  | none =>
    obtain ⟨hon', t, hc, hc', htime⟩ := h.slice_step hset hstep hon hl
    refine ⟨hon', ?_⟩
    rw [left_of_current hc, left_of_current hc', Option.toList_none, List.length_nil, Nat.mul_zero,
      Nat.add_zero]
    by_cases htick : l.1 = .tick
    · rw [if_pos htick] at htime
      rw [if_pos htick]
      omega
    · rw [if_neg htick] at htime
      rw [if_neg htick, htime, Nat.zero_add]
  | some t =>
    obtain ⟨hon', hleft⟩ := h.selects_step hset hstep (by simp [hl])
    refine ⟨hon', ?_⟩
    have hone : (if l.1 = .tick then 1 else 0) ≤ 1 := by
      split
      · exact Nat.le_refl 1
      · exact Nat.zero_le 1
    rw [hleft, Option.toList_some, List.length_singleton, Nat.mul_one]
    have hpos : 0 < maxProcTime := by decide
    omega

end Steps

section Runs

variable {s s' : Kernel} {ms : List Label}

/-- The ticks of a run fit into the time slices of the threads that are selected in it. -/
theorem ticks_run {added : List Nat} (h : Consistent added s) (hset : Settled s) (hrun : Run Step s ms s')
    (hon : s.canSchedule = true) :
    ticksIn ms + s'.left ≤ s.left + maxProcTime * (selectedIn ms).length := by
  induction hrun generalizing added with
  | nil s => exact Nat.le_of_eq (Nat.zero_add _)
  | @cons s s₁ s' l ms hstep _ ih =>
    obtain ⟨hon₁, hfirst⟩ := h.left_step hset hstep hon
    obtain ⟨h₁, hset₁⟩ := h.step hset hstep
    have hrest := ih h₁ hset₁ hon₁
    have hticks : ticksIn (l :: ms) = (if l.1 = .tick then 1 else 0) + ticksIn ms := by
      rw [ticksIn, List.countP_cons, Nat.add_comm]
      simp only [decide_eq_true_eq]
      rfl
    rw [hticks, selectedIn_cons, List.length_append, Nat.mul_add]
    omega

/-- Ticks can come for ever. -/
theorem ticks_go_on {ls : List Label} (h : Reached ls s) (n : Nat) :
    ∃ ms s', Run Step s ms s' ∧ ticksIn ms = n := by
  induction n with
  | zero => exact ⟨[], s, .nil s, rfl⟩
  | succ n ih =>
    obtain ⟨ms, s₁, hrun, hticks⟩ := ih
    obtain ⟨hinv, hset⟩ := (h.append hrun).consistent
    obtain ⟨o, s', hstep⟩ := hinv.step_progress hset (e := .tick) trivial
    refine ⟨ms ++ [(.tick, o)], s', hrun.snoc hstep, ?_⟩
    rw [ticksIn, List.countP_append]
    exact congrArg (· + 1) hticks

end Runs

/-- Whatever the threads do, a thread that stays eligible is selected in time: before it is, there come no
more ticks than are left of the time slice and fit into one slice for every slot before its own. -/
theorem waiting_bounded {ls : List Label} {s : Kernel} (h : Reached ls s) (hon : s.canSchedule = true) :
    (∀ ms s', Run Step s ms s' → ticksIn ms ≤ s.left + maxProcTime * (selectedIn ms).length) ∧
      (∀ ms s' i t, s.slot i = some t →
        Run (fun u l u' => Eligible u t ∧ Step u l u' ∧ Eligible u' t) s ms s' → t ∉ selectedIn ms →
        ticksIn ms ≤ s.left + maxProcTime * Cyclic.dist threadQueueSize s.cursor i ∧
          ticksIn ms < maxProcTime * threadQueueSize) ∧
      ∀ n, ∃ ms s', Run Step s ms s' ∧ ticksIn ms = n := by
  obtain ⟨hinv, hset⟩ := h.consistent
  refine ⟨?_, ?_, ticks_go_on h⟩
  · intro ms s' hrun
    exact Nat.le_trans (Nat.le_add_right _ _) (ticks_run hinv hset hrun hon)
  · intro ms s' i t hi hrun hnot
    have hdist := dist_run hinv hset hrun hi hnot
    obtain ⟨u, hall, rfl⟩ := hrun.simulate Step Eq id
      (fun u _ u' _ heq hstep => ⟨u', heq ▸ hstep.2.1, rfl⟩) rfl
    rw [List.map_id] at hall
    have hticks := ticks_run hinv hset hall hon
    have hlt := Cyclic.dist_lt (cursor_lt s) (slot_eq_some.mp hi).1
    have hslices : maxProcTime * (selectedIn ms).length ≤
        maxProcTime * Cyclic.dist threadQueueSize s.cursor i := Nat.mul_le_mul_left _ (by omega)
    have hqueue : maxProcTime * (Cyclic.dist threadQueueSize s.cursor i + 1) ≤
        maxProcTime * threadQueueSize := Nat.mul_le_mul_left _ hlt
    have hleft := left_lt s
    rw [Nat.mul_add, Nat.mul_one] at hqueue
    constructor
    · omega
    · omega

/-- Once the idle thread runs, the thread of init waits for no more than 319 ticks. -/
theorem waiting_bounded_init :
    ∃ s, Reached [(.idle, .quiet)] s ∧ s.slot 1 = some 3 ∧ ∀ ms s',
      Run (fun u l u' => Eligible u 3 ∧ Step u l u' ∧ Eligible u' 3) s ms s' → 3 ∉ selectedIn ms →
        ticksIn ms < 320 := by
  have hreached : Reached [(.idle, .quiet)] (idleTask booted) :=
    ⟨booted, schedStartIdle_eq, .single ⟨⟨1, rfl, rfl⟩, rfl⟩⟩
  obtain ⟨-, hwait, -⟩ := waiting_bounded hreached rfl
  exact ⟨idleTask booted, hreached, rfl, fun ms s' hrun hnot => (hwait ms s' 1 3 rfl hrun hnot).2⟩

end Levos.Scheduler
