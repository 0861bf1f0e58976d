import Levos.Framework.Cyclic
import Levos.Scheduler.Sched

namespace Levos.Scheduler

open Levos.Framework

/-- The queue read at a plain index. -/
def Kernel.slot (s : Kernel) (i : Nat) : Option Nat :=
  if h : i < threadQueueSize then s.threadQueue ⟨i, h⟩ else none

/-- A thread that `sched_select` may return: no zombie, and idle only when nothing else is queued. -/
def Kernel.mayRun (s : Kernel) (t : Nat) : Prop :=
  (s.thread t).state ≠ .zombie ∧ ¬(s.pidOf t = 0 ∧ s.schedCurrentThreads > 1)

instance (s : Kernel) (t : Nat) : Decidable (s.mayRun t) := by
  unfold Kernel.mayRun
  infer_instance

/-- The slots at which the retry loop stops. -/
def Kernel.eligible (s : Kernel) (i : Nat) : Bool :=
  match s.slot i with
  | none => false
  | some t => s.mayRun t

/-- Where the next search begins; `sched_next` itself may stand one past the end. -/
def Kernel.cursor (s : Kernel) : Nat := if s.schedNext < threadQueueSize then s.schedNext else 0

theorem cursor_lt (s : Kernel) : s.cursor < threadQueueSize := by
  unfold Kernel.cursor
  split_ifs with h
  · exact h
  · decide

theorem slot_eq_some {s : Kernel} {i t : Nat} :
    s.slot i = some t ↔ ∃ h : i < threadQueueSize, s.threadQueue ⟨i, h⟩ = some t := by
  unfold Kernel.slot
  split_ifs with h <;> simp [h]

theorem eligible_iff {s : Kernel} {i : Nat} :
    s.eligible i = true ↔ ∃ t, s.slot i = some t ∧ s.mayRun t := by
  unfold Kernel.eligible
  cases h : s.slot i <;> simp

theorem eligible_lt {s : Kernel} {i : Nat} (h : s.eligible i = true) : i < threadQueueSize := by
  obtain ⟨t, ht, -⟩ := eligible_iff.mp h
  exact (slot_eq_some.mp ht).1

/-- One retry at a slot of the table. -/
theorem selectLoop_succ (s : Kernel) (fuel i : Nat) (hi : i < threadQueueSize) :
    selectLoop s (fuel + 1) i =
      if s.eligible i then .ok ((s.slot i).getD 0, i + 1) else selectLoop s fuel (i + 1) := by
  have hs : s.slot i = s.threadQueue ⟨i, hi⟩ := by simp [Kernel.slot, hi]
  rw [selectLoop]
  simp only [hi, dif_pos]
  cases hq : s.threadQueue ⟨i, hi⟩ with
  | none => simp [Kernel.eligible, hs, hq]
  | some t =>
    by_cases hm : s.mayRun t
    · have hn : ¬((s.thread t).state = .zombie ∨ (s.pidOf t = 0 ∧ s.schedCurrentThreads > 1)) := by
        rintro (h | h)
        · exact hm.1 h
        · exact hm.2 h
      simp [Kernel.eligible, hs, hq, hm, hn]
    · have hn : (s.thread t).state = .zombie ∨ (s.pidOf t = 0 ∧ s.schedCurrentThreads > 1) := by
        by_contra h
        exact hm ⟨fun hz => h (.inl hz), fun hz => h (.inr hz)⟩
      simp [Kernel.eligible, hs, hq, hm, hn]

/-- The loop over a stretch of the table that it does not leave. -/
theorem selectLoop_range (s : Kernel) (m fuel i : Nat) (hi : i + m ≤ threadQueueSize) :
    selectLoop s (m + fuel) i =
      match (List.range' i m).find? s.eligible with
      | some j => .ok ((s.slot j).getD 0, j + 1)
      | none => selectLoop s fuel (i + m) := by
  induction m generalizing i with
  | zero => simp
  | succ m ih =>
    rw [show m + 1 + fuel = (m + fuel) + 1 by omega, selectLoop_succ s _ i (by omega),
      List.range'_succ, List.find?_cons]
    by_cases he : s.eligible i
    · simp [he]
    · simp only [he, Bool.false_eq_true, if_false]
      rw [ih (i + 1) (by omega), show i + 1 + m = i + (m + 1) by omega]

/-- Past the end of the table the cursor wraps to slot 0. -/
theorem selectLoop_wrap (s : Kernel) (fuel next : Nat) :
    selectLoop s fuel next = selectLoop s fuel (if next < threadQueueSize then next else 0) := by
  cases fuel with
  | zero => rfl
  | succ fuel =>
    by_cases h : next < threadQueueSize
    · rw [if_pos h]
    · rw [if_neg h, selectLoop, selectLoop]
      simp only [h, dif_neg, not_false_eq_true]
      rfl

/-- With any fuel from one turn of the table on, the loop is the cyclic scan; if the scan finds
nothing, no amount of fuel ends it. -/
theorem selectLoop_eq_scan (s : Kernel) (extra : Nat) :
    selectLoop s (threadQueueSize + extra) s.schedNext =
      match Cyclic.scan s.eligible threadQueueSize s.cursor with
      | some i => .ok ((s.slot i).getD 0, i + 1)
      | none => selectLoop s extra s.cursor := by
  have hc := cursor_lt s
  rw [selectLoop_wrap]
  change selectLoop s (threadQueueSize + extra) s.cursor = _
  generalize s.cursor = c at hc
  rw [show threadQueueSize + extra = (threadQueueSize - c) + (c + extra) by omega,
    selectLoop_range s _ _ c (by omega), Cyclic.scan, Cyclic.order, List.find?_append]
  cases h1 : (List.range' c (threadQueueSize - c)).find? s.eligible with
  | some j => simp
  | none =>
    simp only [Option.none_or]
    rw [selectLoop_wrap, if_neg (by omega), selectLoop_range s c extra 0 (by omega),
      List.range_eq_range', Nat.zero_add]

theorem selectLoop_diverges (s : Kernel)
    (h : Cyclic.scan s.eligible threadQueueSize s.cursor = none) (fuel : Nat) :
    selectLoop s fuel s.schedNext = .error .diverges := by
  have hnone := (Cyclic.scan_eq_none (cursor_lt s).le).mp h
  have hall : ∀ fuel i, selectLoop s fuel i = .error .diverges := by
    intro fuel
    induction fuel with
    | zero => exact fun i => rfl
    | succ fuel ih =>
      intro i
      rw [selectLoop_wrap]
      have hlt : (if i < threadQueueSize then i else 0) < threadQueueSize := by
        split_ifs with hi
        · exact hi
        · decide
      rw [selectLoop_succ s fuel _ hlt, hnone _ hlt]
      exact ih _
  exact hall fuel s.schedNext

/-- `sched_select` returns the thread of the first eligible slot from the cursor on. -/
theorem schedSelect_eq (s : Kernel) :
    schedSelect s = match Cyclic.scan s.eligible threadQueueSize s.cursor with
      | some i => .ok ((s.slot i).getD 0, { s with schedNext := i + 1 })
      | none => .error .diverges := by
  have h := selectLoop_eq_scan s 0
  rw [Nat.add_zero] at h
  rw [schedSelect, h]
  cases Cyclic.scan s.eligible threadQueueSize s.cursor <;> rfl

theorem schedSelect_some {s : Kernel} {i t : Nat}
    (h : Cyclic.scan s.eligible threadQueueSize s.cursor = some i) (ht : s.slot i = some t) :
    schedSelect s = .ok (t, { s with schedNext := i + 1 }) := by
  rw [schedSelect_eq, h]
  simp [ht]

/-- What a call that came back has done. -/
theorem schedSelect_ok {s s' : Kernel} {t : Nat} (h : schedSelect s = .ok (t, s')) :
    ∃ i, Cyclic.scan s.eligible threadQueueSize s.cursor = some i ∧ s.slot i = some t ∧
      s.mayRun t ∧ s' = { s with schedNext := i + 1 } := by
  rw [schedSelect_eq] at h
  cases hs : Cyclic.scan s.eligible threadQueueSize s.cursor with
  | none => simp [hs] at h
  | some i =>
    obtain ⟨t', ht', hm⟩ := eligible_iff.mp (Cyclic.scan_mem (cursor_lt s).le hs).1
    simp only [hs, ht', Option.getD_some, Except.ok.injEq, Prod.mk.injEq] at h
    exact ⟨i, rfl, h.1 ▸ ht', h.1 ▸ hm, h.2.symm⟩

end Levos.Scheduler
