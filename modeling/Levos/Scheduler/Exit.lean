import Levos.Scheduler.Safety

namespace Levos.Scheduler

open Levos.Framework

def zombieSlot (s : Kernel) (i : Fin threadQueueSize) : Bool :=
  (s.threadQueue i).any fun t => (s.thread t).state = .zombie

/-- The slots that exited threads still hold. -/
def zombieSlots (s : Kernel) : Finset (Fin threadQueueSize) :=
  Finset.univ.filter fun i => zombieSlot s i

/-- The number of queued threads that have not exited. -/
def live (s : Kernel) : Nat :=
  (Finset.univ.filter fun i => (s.threadQueue i).isSome && !zombieSlot s i).card

def exitsIn (ls : List Label) : Nat := ls.countP fun l => l.1 = .exit

/-- What an exit is to leave behind: an exited thread that is switched away from is not queued, and
the thread count does not speak of it. -/
def Collected (s : Kernel) : Prop :=
  (∀ t, (s.thread t).state = .zombie → s.current ≠ some t → ¬Queued s t) ∧
    s.schedCurrentThreads = live s

/-- A one-thread process is refused only when all slots but one hold live threads. -/
def RefusesFull (s : Kernel) : Prop :=
  ∀ p t, (s.process p).threads = [t] → (schedAddProcess s (some p)).1 = -ENOSPC →
    threadQueueSize - 1 ≤ live s

theorem mem_zombieSlots {s : Kernel} {i : Fin threadQueueSize} :
    i ∈ zombieSlots s ↔ ∃ t, s.threadQueue i = some t ∧ (s.thread t).state = .zombie := by
  simp [zombieSlots, zombieSlot, Option.any_eq_true]

theorem occupied_split (s : Kernel) : occupied s.threadQueue = live s + (zombieSlots s).card := by
  have hz : zombieSlots s =
      Finset.univ.filter fun i => (s.threadQueue i).isSome = true ∧ zombieSlot s i = true := by
    apply Finset.filter_congr
    intro i _
    cases hi : s.threadQueue i <;> simp [zombieSlot, hi]
  have hl : (Finset.univ.filter fun i => (s.threadQueue i).isSome && !zombieSlot s i) =
      Finset.univ.filter fun i => (s.threadQueue i).isSome = true ∧ ¬zombieSlot s i = true := by
    ext i
    simp
  have hsplit := Finset.card_filter_add_card_filter_not
    (s := Finset.univ.filter fun i => (s.threadQueue i).isSome = true) (fun i => zombieSlot s i = true)
  rw [Finset.filter_filter, Finset.filter_filter] at hsplit
  rw [occupied, live, hz, hl]
  omega

/-- A process that is made and offered to the queue brings no zombie with it. -/
theorem create_zombie {s s' : Kernel} (g : Grant) {rc : Int}
    (hs : (rc, s') = schedAddProcess (schedMkProcess s g).2 (schedMkProcess s g).1) {t : Nat}
    (ht : (s'.thread t).state = .zombie) : (s.thread t).state = .zombie := by
  cases g with
  | nothing =>
    cases hs
    exact ht
  | noStack =>
    cases hs
    exact ht
  | all =>
    have hts : ((schedMkProcess s .all).2.process s.heap).threads = [s.heap + 1] := by
      simp [schedMkProcess]
    obtain rfl : s' = (schedAddProcess (schedMkProcess s .all).2 (some s.heap)).2 :=
      congrArg Prod.snd hs
    rw [schedAddProcess_eq hts] at ht
    by_cases hu : t = s.heap + 1
    · subst hu
      split_ifs at ht <;> simp [schedMkProcess, Kernel.setThread] at ht
    · split_ifs at ht <;> simpa [schedMkProcess, Kernel.setThread, hu] using ht

namespace Consistent

variable {added : List Nat} {s s' : Kernel} {l : Label}

/-- The only thread that a step turns into a zombie is the current one, and only an exit does. -/
theorem zombie_iff (h : Consistent added s) (hset : Settled s) (hstep : Step s l s') (t : Nat) :
    (s'.thread t).state = .zombie ↔
      (s.thread t).state = .zombie ∨ l.1 = .exit ∧ s.current = some t := by
  constructor
  · intro ht
    rcases h.step_cases hset hstep with ⟨-, rfl⟩ | ⟨g, rc, -, hs⟩ |
      ⟨-, u, th, -, -, hstate, rfl, -⟩ | ⟨c, th, i, u, hc, -, -, hz, -, -, -, -, -, rfl⟩
    · exact .inl ht
    · exact .inl (create_zombie g hs ht)
    · by_cases htu : t = u
      · subst htu
        rw [setThread_thread, hstate] at ht
        exact .inl ht
      · rw [setThread_thread_ne s th htu] at ht
        exact .inl ht
    · have htu : t ≠ u := by
        rintro rfl
        simp [dispatch_thread] at ht
      rw [dispatch_thread_ne _ i htu] at ht
      by_cases htc : t = c
      · subst htc
        rw [setThread_thread] at ht
        exact .inr ⟨hz.1.mp ht, hc⟩
      · rw [setThread_thread_ne s th htc] at ht
        exact .inl ht
  · rintro (ht | ⟨he, hc⟩)
    · exact (h.zombie_step hset hstep ht).1
    · have hon : s.canSchedule = true := by
        have hallow := hstep.1
        rw [he] at hallow
        obtain ⟨u, hu, hp⟩ := hallow
        exact h.online hu (by omega)
      rcases h.step_cases hset hstep with ⟨rfl, -⟩ | ⟨g, rc, rfl, -⟩ |
        ⟨-, u, th, -, -, -, -, htick⟩ | ⟨c, th, i, u, hcc, -, -, hz, -, -, -, hm, -, rfl⟩
      · cases he
      · cases he
      · -- an exit does not come back to its caller
        have hl := (htick hon).1
        rw [he] at hl
        cases hl
      · obtain rfl : c = t := Option.some.inj (hcc.symm.trans hc)
        have hzombie := hz.1.mpr he
        have hcu : c ≠ u := by
          rintro rfl
          exact hm.1 (by rw [setThread_thread, hzombie])
        rw [dispatch_thread_ne _ i hcu, setThread_thread, hzombie]

/-- An exit leaves one more slot to a thread that never runs again, and no other step does. -/
theorem zombieSlots_step (h : Consistent added s) (hset : Settled s) (hstep : Step s l s') :
    (zombieSlots s').card = (zombieSlots s).card + if l.1 = .exit then 1 else 0 := by
  have hz := h.zombie_iff hset hstep
  have hslot (i : Fin threadQueueSize) (t : Nat) (hi : s.threadQueue i = some t) :=
    h.slot_step hset hstep hi
  have honce := (h.step hset hstep).1.once
  obtain ⟨c, hc, j, hj⟩ := h.current
  have hset' : zombieSlots s' = if l.1 = .exit then insert j (zombieSlots s) else zombieSlots s := by
    ext i
    have hmem : i ∈ zombieSlots s' ↔ i ∈ zombieSlots s ∨ l.1 = .exit ∧ i = j := by
      simp only [mem_zombieSlots]
      constructor
      · rintro ⟨t, hi, ht⟩
        rcases (hz t).mp ht with ht | ⟨he, hct⟩
        · obtain ⟨k, hk⟩ := h.dead t ht
          obtain rfl := honce k i t (hslot k t hk) hi
          exact .inl ⟨t, hk, ht⟩
        · obtain rfl : c = t := Option.some.inj (hc.symm.trans hct)
          exact .inr ⟨he, honce i j c hi (hslot j c hj)⟩
      · rintro (⟨t, hi, ht⟩ | ⟨he, rfl⟩)
        · exact ⟨t, hslot i t hi, (hz t).mpr (.inl ht)⟩
        · exact ⟨c, hslot i c hj, (hz c).mpr (.inr ⟨he, hc⟩)⟩
    rw [hmem]
    split_ifs with he
    · simp [he, or_comm]
    · simp [he]
  rw [hset']
  split_ifs
  · apply Finset.card_insert_of_notMem
    rw [mem_zombieSlots]
    rintro ⟨t, ht, hzt⟩
    obtain rfl : c = t := Option.some.inj (hj.symm.trans ht)
    exact hset c hc hzt
  · rfl

end Consistent

theorem booted_zombieSlots : zombieSlots booted = ∅ := by decide

/-- Every exit costs a slot for good. -/
theorem Reached.leak {ls : List Label} {s : Kernel} (h : Reached ls s) :
    (zombieSlots s).card = exitsIn ls ∧ s.schedCurrentThreads = live s + exitsIn ls := by
  have hz : (zombieSlots s).card = exitsIn ls := by
    obtain ⟨s₀, hboot, hrun⟩ := h
    obtain rfl : booted = s₀ := Except.ok.inj (schedStartIdle_eq.symm.trans hboot)
    have hinv := hrun.historyInvariant
      (fun ms s => Reached ms s ∧ (zombieSlots s).card = exitsIn ms) ?_ []
      ⟨⟨booted, hboot, .nil booted⟩, by simp [booted_zombieSlots, exitsIn]⟩
    · exact hinv.2
    · intro ms s l s' ⟨hreached, hcard⟩ hstep
      obtain ⟨hcons, hset⟩ := hreached.consistent
      refine ⟨hreached.append (.single hstep), ?_⟩
      rw [hcons.zombieSlots_step hset hstep, hcard, exitsIn, exitsIn, List.countP_append]
      simp [List.countP_cons]
  have hcount := h.consistent.1.count
  have hsplit := occupied_split s
  exact ⟨hz, by omega⟩

/-- When a process with one thread is refused: exited threads count like live ones. -/
theorem Reached.refused_iff {ls : List Label} {s : Kernel} (h : Reached ls s) {p t : Nat}
    (hts : (s.process p).threads = [t]) :
    (schedAddProcess s (some p)).1 = -ENOSPC ↔ threadQueueSize - 1 ≤ live s + exitsIn ls := by
  have hleak := h.leak.2
  rw [schedAddProcess_eq hts]
  split_ifs with hfull
  · simp only [true_iff]
    omega
  · simp only [ENOSPC]
    omega

/-- With no exit so far nothing is left behind. -/
theorem Reached.collected {ls : List Label} {s : Kernel} (h : Reached ls s) (hls : exitsIn ls = 0) :
    Collected s ∧ RefusesFull s := by
  obtain ⟨hz, hcount⟩ := h.leak
  rw [hls] at hz hcount
  refine ⟨⟨?_, by simpa using hcount⟩, ?_⟩
  · rintro t ht - ⟨i, hi⟩
    have hmem : i ∈ zombieSlots s := mem_zombieSlots.mpr ⟨t, hi, ht⟩
    rw [Finset.card_eq_zero.mp hz] at hmem
    simp at hmem
  · intro p t hts hrc
    have := (h.refused_iff hts).mp hrc
    omega

/-- In every state of a run the exited threads are off the queue and a process is refused only for
live threads, exactly when no process of the run exits. -/
theorem reached_collected_iff {ls : List Label} {s : Kernel} (h : Reached ls s) :
    (∀ ms s', ms <+: ls → Reached ms s' → Collected s' ∧ RefusesFull s') ↔
      ∀ l ∈ ls, l.1 ≠ .exit := by
  have hnone (ms : List Label) : exitsIn ms = 0 ↔ ∀ l ∈ ms, l.1 ≠ .exit := by
    simp [exitsIn, List.countP_eq_zero]
  constructor
  · intro hall
    have hcount := (hall ls s (List.prefix_refl ls) h).1.2
    have hleak := h.leak.2
    exact (hnone ls).mp (by omega)
  · intro hls ms s' hbegin hreached
    apply hreached.collected
    exact (hnone ms).mpr fun l hl => hls l (hbegin.subset hl)

theorem reached_exited :
    Reached (startedLabels ++ [(.exit, .selected 3)]) (after started .exit) :=
  reached_started.append
    (.single ⟨⟨5, by decide +kernel, by decide +kernel⟩, step_after (by decide +kernel)⟩)

/-- With nobody gone, two live threads share the queue with the idle thread. -/
theorem reached_collected_started :
    Reached startedLabels started ∧ Collected started ∧ RefusesFull started := by
  have hall := (reached_collected_iff reached_started).mpr (by decide)
  exact ⟨reached_started, hall startedLabels started (List.prefix_refl _) reached_started⟩

/-- The new process exits: its thread stays in slot 2 and stays counted. -/
theorem exit_leaks :
    Reached (startedLabels ++ [(.exit, .selected 3)]) (after started .exit) ∧
    (((after started .exit).thread 5).state = .zombie ∧ (after started .exit).current = some 3 ∧
      Queued (after started .exit) 5) ∧
    (after started .exit).schedCurrentThreads = 3 ∧ live (after started .exit) = 2 ∧
    ¬Collected (after started .exit) := by
  have hcount : (after started .exit).schedCurrentThreads = 3 := by decide +kernel
  have hlive : live (after started .exit) = 2 := by
    have hleak := reached_exited.leak.2
    have hexits : exitsIn (startedLabels ++ [(.exit, .selected 3)]) = 1 := by decide
    omega
  have hzombie : ((after started .exit).thread 5).state = .zombie := by decide +kernel
  have hcurrent : (after started .exit).current = some 3 := by decide +kernel
  have hqueued : Queued (after started .exit) 5 := ⟨⟨2, by decide⟩, by decide +kernel⟩
  refine ⟨reached_exited, ⟨hzombie, hcurrent, hqueued⟩, hcount, hlive, ?_⟩
  intro h
  exact h.1 5 hzombie (by simp [hcurrent]) hqueued

end Levos.Scheduler
