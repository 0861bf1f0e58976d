import Levos.Framework.Run
import Levos.Liballoc.Malloc
import Mathlib.Logic.Function.Basic

namespace Levos.Liballoc

open Levos.Framework Levos.Memory

/-- The calls by which a kernel thread comes to liballoc. -/
inductive Request
  | kmalloc (size : Nat)
  | kvmalloc (size : Nat)
  | newFree (ptr : Nat)

/-- What a thread has to do while it holds the lock. -/
inductive Work
  | malloc (reqSize : Nat)
  | free (min : Nat)

/-- Where a thread stands: outside of liballoc, before `liballoc_lock`, in it between the test of the
variable and its store, behind it, before `liballoc_unlock`, or in it between test and store. A
`new_malloc` of a size that wraps calls itself `again` behind the unlock. -/
inductive Position
  | outside
  | locking (w : Work)
  | setting (w : Work)
  | locked (w : Work)
  | unlocking (again : Option Work)
  | clearing (again : Option Work)

/-- From the test of `liballoc_lock` to the store of `liballoc_unlock`. -/
def Position.inside : Position → Bool
  | .outside => false
  | .locking _ => false
  | .setting _ => true
  | .locked _ => true
  | .unlocking _ => true
  | .clearing _ => true

/-- Between `liballoc_lock` and `liballoc_unlock`. -/
def Position.works : Position → Bool
  | .locked _ => true
  | .unlocking _ => true
  | _ => false

theorem Position.inside_of_works {p : Position} (h : p.works = true) : p.inside = true := by
  cases p <;> first | rfl | cases h

/-- The kernel threads over liballoc, until a fault stops the kernel. -/
structure Threads where
  heap : State
  current : Nat
  position : Nat → Position
  stopped : Option Fault

inductive Event
  | call (r : Request)
  | test
  | set
  | work
  | torn (other : Nat) (h : State)
  | check
  | clear
  | write (m : Memory)
  | tick (next : Nat)

/-- Up to `liballoc_lock`, as far as the call comes there. -/
def begin (h : State) : Request → Except Fault State × Position
  | .kmalloc size =>
    if h.mm.heapOnline then (.ok h, .locking (.malloc size))
    else ((placeBlock h.mm size false).map fun (_, _, mm) => { h with mm := mm }, .outside)
  | .kvmalloc size => ((kvmallocP h.mm size).map fun (_, _, mm) => { h with mm := mm }, .outside)
  | .newFree ptr =>
    if ptr = 0 then (.ok h, .outside)
    else (.ok h, .locking (.free (sub32 (unalign h.mm.mem ptr) minorHeader)))

/-- Between `liballoc_lock` and `liballoc_unlock`. -/
def perform (h : State) : Work → Except Fault State × Position
  | .malloc reqSize =>
    let size := wrap (reqSize + 32)
    if size = 0 then (.ok h, .unlocking (some (.malloc 1)))
    else ((mallocLocked h size reqSize).map Prod.snd, .unlocking none)
  | .free min => (freeLocked h min, .unlocking none)

/-- The first half of `liballoc_lock`. -/
def lockTest (h : State) : Except Fault State :=
  if h.lock = 1 then .error (.panic "liballoc lock is acquired!!!!!!\n") else .ok h

/-- The second half of `liballoc_lock`. -/
def lockSet (h : State) : State := { h with lock := 1 }

/-- The first half of `liballoc_unlock`. -/
def unlockTest (h : State) : Except Fault State :=
  if h.lock ≠ 1 then .error (.panic "liballoc locking inconsistency!\n") else .ok h

/-- The second half of `liballoc_unlock`. -/
def unlockClear (h : State) : State := { h with lock := 0 }

theorem liballocLock_eq (h : State) : liballocLock h = (lockTest h).map lockSet := by
  rw [liballocLock, lockTest]
  split_ifs <;> rfl

theorem liballocUnlock_eq (h : State) : liballocUnlock h = (unlockTest h).map unlockClear := by
  rw [liballocUnlock, unlockTest]
  split_ifs <;> rfl

theorem liballocLock_halves {h h' : State} (hlock : liballocLock h = .ok h') :
    lockTest h = .ok h ∧ lockSet h = h' := by
  rw [liballocLock_eq, lockTest] at hlock
  rw [lockTest]
  split_ifs at hlock ⊢
  · cases hlock
  · exact ⟨rfl, Except.ok.inj hlock⟩

theorem liballocUnlock_halves {h h' : State} (hunlock : liballocUnlock h = .ok h') :
    unlockTest h = .ok h ∧ unlockClear h = h' := by
  rw [liballocUnlock_eq, unlockTest] at hunlock
  rw [unlockTest]
  split_ifs at hunlock ⊢
  · cases hunlock
  · exact ⟨rfl, Except.ok.inj hunlock⟩

/-- The current thread moves on, or its code stops the kernel. -/
def Threads.go (s : Threads) : Except Fault State × Position → Threads
  | (.ok h, p) => { s with heap := h, position := Function.update s.position s.current p }
  | (.error e, _) => { s with stopped := some e }

/-- One event of the current thread, or a timer tick with what the scheduler decides. -/
def step (s : Threads) : Event → Option Threads
  | .tick next => some { s with current := next }
  | .write m =>
    match s.position s.current with
    | .outside => some { s with heap := { s.heap with mm := { s.heap.mm with mem := m } } }
    | _ => none
  | .call r =>
    match s.position s.current with
    | .outside => some (s.go (begin s.heap r))
    | _ => none
  | .test =>
    match s.position s.current with
    | .locking w => some (s.go (lockTest s.heap, .setting w))
    | _ => none
  | .set =>
    match s.position s.current with
    | .setting w => some (s.go (.ok (lockSet s.heap), .locked w))
    | _ => none
  | .work =>
    match s.position s.current with
    | .locked w => some (s.go (perform s.heap w))
    | _ => none
  -- two threads that work at the same time: what they leave in the structures is open
  | .torn other h =>
    if (s.position s.current).works ∧ other ≠ s.current ∧ (s.position other).works then
      some { s with heap := { h with lock := s.heap.lock } }
    else none
  | .check =>
    match s.position s.current with
    | .unlocking again => some (s.go (unlockTest s.heap, .clearing again))
    | _ => none
  | .clear =>
    match s.position s.current with
    | .clearing again => some (s.go (.ok (unlockClear s.heap), again.elim .outside .locking))
    | _ => none

/-- An event, with the thread whose event it is. -/
abbrev Label := Nat × Event

def Step (s : Threads) (l : Label) (s' : Threads) : Prop :=
  s.stopped = none ∧ s.current = l.1 ∧ step s l.2 = some s'

/-- The state behind a list of events, if they can happen in that order. -/
def replay (s : Threads) : List Label → Option Threads
  | [] => some s
  | (t, e) :: ls =>
    if s.stopped = none ∧ s.current = t then (step s e).bind fun s' => replay s' ls else none

theorem replay_run {s s' : Threads} {ls : List Label} (h : replay s ls = some s') :
    Run Step s ls s' := by
  induction ls generalizing s with
  | nil =>
    cases h
    exact .nil _
  | cons l ls ih =>
    obtain ⟨t, e⟩ := l
    rw [replay] at h
    split_ifs at h with hc
    obtain ⟨s₁, hs₁, h⟩ := Option.bind_eq_some_iff.mp h
    exact .cons ⟨hc.1, hc.2, hs₁⟩ (ih h)

/-- The lock is free and no thread has come to liballoc yet. -/
structure Started (s : Threads) : Prop where
  lock : s.heap.lock = 0
  outside : ∀ t, s.position t = .outside
  running : s.stopped = none

def acquiredPanic : Fault := .panic "liballoc lock is acquired!!!!!!\n"
def inconsistencyPanic : Fault := .panic "liballoc locking inconsistency!\n"

/-- Neither panic of the lock has stopped the kernel. -/
def NoLockPanic (s : Threads) : Prop :=
  s.stopped ≠ some acquiredPanic ∧ s.stopped ≠ some inconsistencyPanic

/-- The last store to `lock`, `b` before the event: whether it was that of `liballoc_lock`. -/
def takenAfter (b : Bool) : Label → Bool
  | (_, .set) => true
  | (_, .clear) => false
  | _ => b

def taken (ls : List Label) : Bool := ls.foldl takenAfter false

/-- A thread may come to the test of `liballoc_lock` where the last store was that of a `liballoc_unlock`,
or there was none, and to the test of `liballoc_unlock` where it was that of a `liballoc_lock`. -/
def InOrder (b : Bool) (l : Label) : Prop := (l.2 = .test → b = false) ∧ (l.2 = .check → b = true)

/-- The tests and the stores of the threads come in an order without a panic. -/
def Orderly (b : Bool) : List Label → Prop
  | [] => True
  | l :: ls => InOrder b l ∧ Orderly (takenAfter b l) ls

/-- The threads between the test of their `liballoc_lock` and the store of their `liballoc_unlock`, `hs`
before the event. -/
def holdersAfter (hs : List Nat) : Label → List Nat
  | (t, .test) => t :: hs
  | (t, .clear) => hs.erase t
  | _ => hs

def holders (ls : List Label) : List Nat := ls.foldl holdersAfter []

/-- No thread comes to `liballoc_lock` while another is between the test of its `liballoc_lock` and the
store of its `liballoc_unlock`; the threads `hs` are there at the beginning. -/
def Serial (hs : List Nat) : List Label → Prop
  | [] => True
  | l :: ls => (l.2 = .test → hs = []) ∧ Serial (holdersAfter hs l) ls

section Quiet

/-- A fault that is none of the two panics of the lock. -/
def Quiet (e : Fault) : Prop := e ≠ acquiredPanic ∧ e ≠ inconsistencyPanic

theorem quiet_outOfBounds : Quiet .outOfBounds := by simp [Quiet, acquiredPanic, inconsistencyPanic]

theorem quiet_nullPointer : Quiet .nullPointer := by simp [Quiet, acquiredPanic, inconsistencyPanic]

theorem quiet_pageFault : Quiet pageFault := by
  simp [Quiet, pageFault, acquiredPanic, inconsistencyPanic]

theorem quiet_uninitialised : Quiet .uninitialised := by
  simp [Quiet, acquiredPanic, inconsistencyPanic]

theorem quiet_diverges : Quiet .diverges := by simp [Quiet, acquiredPanic, inconsistencyPanic]

/-- Whatever the memory manager does, it does not panic for the lock. -/
abbrev NoPanic {α : Type} (x : Except Fault α) : Prop := Outcome (fun _ => True) Quiet x

variable {s : Mm}

theorem setFrame_quiet (a : Nat) : NoPanic (setFrame s a) := by
  simp only [setFrame]
  split_ifs
  · trivial
  · exact quiet_outOfBounds

theorem clearFrame_quiet (a : Nat) : NoPanic (clearFrame s a) := by
  simp only [clearFrame]
  split_ifs
  · trivial
  · exact quiet_outOfBounds

theorem testFrame_quiet (a : Nat) : NoPanic (testFrame s a) := by
  simp only [testFrame]
  split_ifs
  · trivial
  · exact quiet_outOfBounds

theorem lastUsed_quiet (i n : Nat) : NoPanic (lastUsed s i n) := by
  induction n with
  | zero => trivial
  | succ n ih =>
    rw [lastUsed]
    apply ih.bind
    intro b _
    apply (testFrame_quiet _).bind
    intro u _
    cases u <;> trivial

theorem firstRun_quiet (n : Nat) (fs : List Nat) : NoPanic (firstRun s n fs) := by
  induction fs with
  | nil => trivial
  | cons f fs ih =>
    rw [firstRun]
    apply (lastUsed_quiet _ _).bind
    intro b _
    split_ifs
    · trivial
    · exact ih

theorem placeBlock_quiet (size : Nat) (a : Bool) : NoPanic (placeBlock s size a) := by
  simp only [placeBlock]
  split_ifs
  · exact quiet_outOfBounds
  · trivial

theorem kvmallocP_quiet (size : Nat) : NoPanic (kvmallocP s size) := by
  unfold kvmallocP
  split_ifs
  · simp [Outcome, Quiet, acquiredPanic, inconsistencyPanic]
  · exact placeBlock_quiet _ _

theorem getPage_quiet (addr : Nat) (make : Bool) (dir : Nat) :
    NoPanic (getPage s addr make dir) := by
  simp only [getPage]
  split_ifs
  · trivial
  · apply (kvmallocP_quiet _).bind
    intro r _
    trivial
  · trivial

theorem allocDmaFrame_quiet (p : Nat) (k w : Bool) (a : Nat) : NoPanic (allocDmaFrame s p k w a) := by
  simp only [allocDmaFrame]
  split_ifs
  · exact quiet_nullPointer
  · exact setFrame_quiet _
  · trivial

theorem allocPage_quiet (i : Nat) (s : Mm) : NoPanic (allocPage i s) := by
  unfold allocPage
  apply (testFrame_quiet _).bind
  intro u _
  cases u with
  | true => simp [Outcome, Quiet, acquiredPanic, inconsistencyPanic]
  | false =>
    apply (getPage_quiet _ _ _).bind
    intro r _
    exact allocDmaFrame_quiet _ _ _ _

theorem forPages_quiet {bound : Mm → Nat} {body : Nat → Mm → Except Fault Mm}
    (hbody : ∀ i s, NoPanic (body i s)) (fuel i : Nat) (s : Mm) :
    NoPanic (forPages bound body fuel i s) := by
  induction fuel generalizing i s with
  | zero => exact quiet_diverges
  | succ fuel ih =>
    rw [forPages]
    split_ifs
    · apply (hbody _ _).bind
      intro s' _
      exact ih _ _
    · trivial

theorem mmAllocPages_quiet (n : Nat) : NoPanic (mmAllocPages s n) := by
  unfold mmAllocPages
  apply (firstRun_quiet _ _).bind
  intro f _
  apply (forPages_quiet allocPage_quiet _ _ _).bind
  intro s' _
  trivial

theorem freeFrame_quiet (p : Nat) : NoPanic (freeFrame s p) := by
  unfold freeFrame
  split_ifs
  · simp [Outcome, Quiet, acquiredPanic, inconsistencyPanic]
  · apply (clearFrame_quiet _).bind
    intro s' _
    trivial

theorem mmFreePages_quiet (n : Nat) (s : Mm) (p : Nat) : NoPanic (mmFreePages s p n) := by
  induction n generalizing s p with
  | zero => trivial
  | succ n ih =>
    rw [mmFreePages]
    apply (freeFrame_quiet _).bind
    intro s' _
    exact ih _ _

end Quiet

/-- A part of liballoc that leaves the lock alone, also when it stops. -/
abbrev KeepsLock {α : Type} (lock : Nat) (f : α → State) (x : Except Fault α) : Prop :=
  Outcome (fun r => (f r).lock = lock) Quiet x

section KeepsLock

variable {s : State}

@[simp] theorem push_lock (N : Major) : (s.push N).lock = s.lock := rfl

theorem allocateNewPage_lock (s : State) (size : Nat) :
    KeepsLock s.lock Prod.snd (allocateNewPage s size) := by
  unfold allocateNewPage
  apply (mmAllocPages_quiet _).bind
  intro r _
  simp only
  split_ifs
  · exact rfl
  · exact rfl
  · exact quiet_pageFault

theorem search_lock (size fuel i : Nat) (startedBet : Bool) (bestSize : Nat) (s : State) :
    KeepsLock s.lock Prod.snd (search size fuel i startedBet bestSize s) := by
  induction fuel generalizing i startedBet bestSize s with
  | zero => exact quiet_diverges
  | succ fuel ih =>
    rw [search]
    cases hM : s.majors[i]? with
    | none => exact rfl
    | some M =>
      simp only
      rw [← s.better_lock M bestSize]
      cases M.room size with
      | some pl => exact rfl
      | none =>
        simp only
        split_ifs
        · exact ih _ _ _ _
        · exact ih _ _ _ _
        all_goals
          apply (allocateNewPage_lock _ size).bind
          rintro ⟨N, s₁⟩ h₁
          rw [← h₁]
          cases N with
          | none => exact rfl
          | some N => first | exact rfl | exact ih _ _ _ _

theorem occupy_lock (s : State) (i : Nat) (M : Major) (pl : Place) (size reqSize : Nat) :
    KeepsLock s.lock Prod.snd (occupy s i M pl size reqSize) := by
  simp only [occupy]
  split_ifs
  · exact rfl
  · exact quiet_outOfBounds
  · exact rfl

theorem ensureRoot_lock (s : State) (size : Nat) : KeepsLock s.lock id (ensureRoot s size) := by
  unfold ensureRoot
  split_ifs
  · apply (allocateNewPage_lock s size).bind
    rintro ⟨root, s₁⟩ h₁
    rw [← h₁]
    cases root <;> exact rfl
  · exact rfl

theorem mallocLocked_lock (s : State) (size reqSize : Nat) :
    KeepsLock s.lock Prod.snd (mallocLocked s size reqSize) := by
  unfold mallocLocked
  apply (ensureRoot_lock s size).bind
  intro s₁ h₁
  change s₁.lock = s.lock at h₁
  rw [← h₁]
  simp only
  split_ifs
  · exact rfl
  · apply (search_lock _ _ _ _ _ s₁).bind
    rintro ⟨place, s₂⟩ h₂
    rw [← h₂]
    cases place with
    | none => exact rfl
    | some r =>
      simp only
      cases s₂.majors[r.1]? with
      | none => exact quiet_nullPointer
      | some M => exact occupy_lock _ _ _ _ _ _

theorem dropMajor_lock (s : State) (i : Nat) (M : Major) :
    KeepsLock s.lock id (dropMajor s i M) := by
  unfold dropMajor
  apply (mmFreePages_quiet _ _ _).bind
  intro mm _
  exact rfl

theorem freeLocked_lock (s : State) (min : Nat) : KeepsLock s.lock id (freeLocked s min) := by
  unfold freeLocked
  split_ifs
  · exact rfl
  · cases findMinor s min with
    | none => exact quiet_uninitialised
    | some r =>
      simp only
      cases s.majors[r.1]? with
      | none => exact quiet_uninitialised
      | some M =>
        simp only
        split_ifs
        · exact dropMajor_lock _ _ _
        · exact rfl

end KeepsLock

/-- Up to `liballoc_lock` nobody holds the lock on account of the call. -/
theorem begin_lock (h : State) (r : Request) :
    KeepsLock h.lock id (begin h r).1 ∧ (begin h r).2.inside = false := by
  cases r with
  | kmalloc size =>
    simp only [begin]
    split_ifs
    · exact ⟨rfl, rfl⟩
    · exact ⟨(placeBlock_quiet _ _).map fun _ _ => rfl, rfl⟩
  | kvmalloc size => exact ⟨(kvmallocP_quiet _).map fun _ _ => rfl, rfl⟩
  | newFree ptr =>
    simp only [begin]
    split_ifs
    · exact ⟨rfl, rfl⟩
    · exact ⟨rfl, rfl⟩

theorem perform_lock (h : State) (w : Work) :
    KeepsLock h.lock id (perform h w).1 ∧ (perform h w).2.inside = true := by
  cases w with
  | malloc reqSize =>
    simp only [perform]
    split_ifs
    · exact ⟨rfl, rfl⟩
    · exact ⟨(mallocLocked_lock _ _ _).map fun _ hr => hr, rfl⟩
  | free min => exact ⟨freeLocked_lock h min, rfl⟩

section Exact

variable {b : Bool} {s s' : Threads} {t : Nat} {e : Event} {ls : List Label}

/-- One more event keeps the order exactly if it is in order. -/
theorem orderly_snoc (l : Label) :
    Orderly b (ls ++ [l]) ↔ Orderly b ls ∧ InOrder (ls.foldl takenAfter b) l := by
  induction ls generalizing b with
  | nil => simp [Orderly]
  | cons k ls ih => simp only [List.cons_append, Orderly, ih, List.foldl_cons, and_assoc]

/-- What one event does to the variable. The kernel stops for the lock exactly at an event out of order. -/
theorem taken_step (hlock : s.heap.lock = b.toNat) (h : Step s (t, e) s') :
    (s'.stopped = none ∧ s'.heap.lock = (takenAfter b (t, e)).toNat ∧ InOrder b (t, e)) ∨
      ∃ f, s'.stopped = some f ∧ (Quiet f ↔ InOrder b (t, e)) := by
  obtain ⟨hrun, rfl, hstep⟩ := h
  have hgo {r : Except Fault State × Position} (hr : KeepsLock s.heap.lock id r.1) :
      ((s.go r).stopped = none ∧ (s.go r).heap.lock = b.toNat) ∨
        ∃ f, (s.go r).stopped = some f ∧ Quiet f := by
    obtain ⟨r, p⟩ := r
    cases r with
    | ok h => exact .inl ⟨hrun, hr.trans hlock⟩
    | error f => exact .inr ⟨f, rfl, hr⟩
  cases e with
  | tick next =>
    cases hstep
    exact .inl ⟨hrun, hlock, by simp [InOrder]⟩
  | write m =>
    simp only [Liballoc.step] at hstep
    cases hp : s.position s.current <;> simp only [hp] at hstep <;> cases hstep
    exact .inl ⟨hrun, hlock, by simp [InOrder]⟩
  | torn other h =>
    simp only [Liballoc.step] at hstep
    split_ifs at hstep
    cases hstep
    exact .inl ⟨hrun, hlock, by simp [InOrder]⟩
  | call r =>
    simp only [Liballoc.step] at hstep
    cases hp : s.position s.current <;> simp only [hp] at hstep <;> cases hstep
    rcases hgo (begin_lock s.heap r).1 with ⟨h1, h2⟩ | ⟨f, hf, hq⟩
    · exact .inl ⟨h1, h2, by simp [InOrder]⟩
    · exact .inr ⟨f, hf, by simp [hq, InOrder]⟩
  | work =>
    simp only [Liballoc.step] at hstep
    cases hp : s.position s.current <;> simp only [hp] at hstep <;> cases hstep
    rename_i w
    rcases hgo (perform_lock s.heap w).1 with ⟨h1, h2⟩ | ⟨f, hf, hq⟩
    · exact .inl ⟨h1, h2, by simp [InOrder]⟩
    · exact .inr ⟨f, hf, by simp [hq, InOrder]⟩
  | test =>
    simp only [Liballoc.step] at hstep
    cases hp : s.position s.current <;> simp only [hp] at hstep <;> cases hstep
    cases b with
    | false =>
      left
      simp only [lockTest, hlock, Bool.toNat_false]
      exact ⟨hrun, hlock, by simp [InOrder]⟩
    | true =>
      right
      refine ⟨acquiredPanic, ?_, by simp [Quiet, InOrder]⟩
      simp only [lockTest, hlock, Bool.toNat_true]
      rfl
  | set =>
    simp only [Liballoc.step] at hstep
    cases hp : s.position s.current <;> simp only [hp] at hstep <;> cases hstep
    exact .inl ⟨hrun, rfl, by simp [InOrder]⟩
  | check =>
    simp only [Liballoc.step] at hstep
    cases hp : s.position s.current <;> simp only [hp] at hstep <;> cases hstep
    cases b with
    | true =>
      left
      simp only [unlockTest, hlock, Bool.toNat_true]
      exact ⟨hrun, hlock, by simp [InOrder]⟩
    | false =>
      right
      refine ⟨inconsistencyPanic, ?_, by simp [Quiet, InOrder]⟩
      simp only [unlockTest, hlock, Bool.toNat_false]
      rfl
  | clear =>
    simp only [Liballoc.step] at hstep
    cases hp : s.position s.current <;> simp only [hp] at hstep <;> cases hstep
    exact .inl ⟨hrun, rfl, by simp [InOrder]⟩

/-- What holds behind the events `ls`: the variable is what the last store made it, or the kernel stands
still, for the lock exactly when the events were out of order. -/
def Accounted (ls : List Label) (s : Threads) : Prop :=
  (s.stopped = none ∧ s.heap.lock = (taken ls).toNat ∧ Orderly false ls) ∨
    ∃ f, s.stopped = some f ∧ (Quiet f ↔ Orderly false ls)

theorem Accounted.step {l : Label} (h : Accounted ls s) (hstep : Step s l s') :
    Accounted (ls ++ [l]) s' := by
  rcases h with ⟨-, hlock, hordered⟩ | ⟨f, hf, -⟩
  · have hsnoc : Orderly false (ls ++ [l]) ↔ InOrder (taken ls) l := by
      rw [orderly_snoc]
      exact and_iff_right hordered
    rcases taken_step hlock hstep with ⟨hrun, hlock', hin⟩ | ⟨f, hf, hquiet⟩
    · left
      refine ⟨hrun, ?_, hsnoc.mpr hin⟩
      rw [hlock', taken, taken, List.foldl_append]
      rfl
    · exact .inr ⟨f, hf, hquiet.trans hsnoc.symm⟩
  · rw [hstep.1] at hf
    cases hf

theorem accounted {s₀ : Threads} (h₀ : Started s₀) (hrun : Run Step s₀ ls s) : Accounted ls s := by
  have hinv := hrun.historyInvariant Accounted (fun _ _ _ _ h hstep => h.step hstep) []
    (.inl ⟨h₀.running, h₀.lock, trivial⟩)
  rwa [List.nil_append] at hinv

end Exact

/-- At most one thread is inside, and the lock is taken exactly while it is behind its own store. -/
structure Balanced (hs : List Nat) (s : Threads) : Prop where
  running : s.stopped = none
  inside : ∀ t, (s.position t).inside = true ↔ t ∈ hs
  single : hs.length ≤ 1
  free : hs = [] → s.heap.lock = 0
  taken : ∀ t, (s.position t).works = true → s.heap.lock = 1

namespace Balanced

variable {hs : List Nat} {s s' : Threads} {t : Nat} {e : Event}

theorem started (h : Started s) : Balanced [] s := by
  refine ⟨h.running, ?_, by simp, fun _ => h.lock, ?_⟩
  · intro t
    simp [h.outside t, Position.inside]
  · intro t ht
    rw [h.outside t] at ht
    cases ht

/-- The thread that is inside is alone there. -/
theorem alone (hb : Balanced hs s) (hin : (s.position t).inside = true) : hs = [t] := by
  have hmem : t ∈ hs := (hb.inside t).mp hin
  have hlen := hb.single
  match hs, hmem, hlen with
  | [u], hmem, _ => rw [List.mem_singleton.mp hmem]

/-- A thread that moves on without the lock, or that stops the kernel. -/
theorem go (hb : Balanced hs s) {r : Except Fault State × Position}
    (hr : KeepsLock s.heap.lock id r.1) (hi : r.2.inside = (s.position s.current).inside)
    (hw : r.2.works = true → (s.position s.current).works = true) :
    Balanced hs (s.go r) ∨ ∃ e, (s.go r).stopped = some e ∧ Quiet e := by
  obtain ⟨r, p⟩ := r
  cases r with
  | error e => exact .inr ⟨e, rfl, hr⟩
  | ok h =>
    left
    refine ⟨hb.running, ?_, hb.single, fun hnil => hr.trans (hb.free hnil), ?_⟩
    · intro t
      rw [← hb.inside t]
      by_cases ht : t = s.current
      · subst ht
        simpa [Threads.go] using congrArg (· = true) hi
      · simp [Threads.go, ht]
    · intro t htw
      refine hr.trans ?_
      by_cases ht : t = s.current
      · subst ht
        refine hb.taken s.current (hw ?_)
        simpa [Threads.go] using htw
      · refine hb.taken t ?_
        simpa [Threads.go, ht] using htw

/-- With nobody inside the test lets the thread in. -/
theorem enter (hb : Balanced [] s) (w : Work) :
    Balanced [s.current] (s.go (lockTest s.heap, .setting w)) := by
  have hlock : s.heap.lock = 0 := hb.free rfl
  have hfree : lockTest s.heap = .ok s.heap := by simp [lockTest, hlock]
  have hout (t : Nat) : (s.position t).inside = false := by
    have ht := (hb.inside t).not.mpr (by simp)
    simpa using ht
  rw [hfree]
  refine ⟨hb.running, ?_, by simp, by simp, ?_⟩
  · intro t
    by_cases ht : t = s.current
    · simp [Threads.go, ht, Position.inside]
    · simp [Threads.go, ht, hout t]
  · intro t htw
    by_cases ht : t = s.current
    · simp [Threads.go, ht, Position.works] at htw
    · simp only [Threads.go, Function.update_of_ne ht] at htw
      have hpos := hout t
      rw [Position.inside_of_works htw] at hpos
      cases hpos

/-- The thread inside moves on by its store, or leaves by it. -/
theorem store (hb : Balanced hs s) (hin : (s.position s.current).inside = true) {h : State} {p : Position}
    (hp : p.inside = true ∧ h.lock = 1 ∨ p.inside = false ∧ h.lock = 0) :
    Balanced (if p.inside then hs else hs.erase s.current) (s.go (.ok h, p)) := by
  obtain rfl := hb.alone hin
  have hothers (t : Nat) (ht : t ≠ s.current) : (s.position t).inside = false := by
    have hnot := (hb.inside t).not.mpr (by simpa using ht)
    simpa using hnot
  refine ⟨hb.running, ?_, ?_, ?_, ?_⟩
  · intro t
    by_cases ht : t = s.current
    · subst ht
      rcases hp with ⟨hp, -⟩ | ⟨hp, -⟩ <;> simp [Threads.go, hp]
    · rcases hp with ⟨hp, -⟩ | ⟨hp, -⟩ <;> simp [Threads.go, hp, ht, hothers t ht]
  · split_ifs <;> simp
  · rcases hp with ⟨hp, hlock⟩ | ⟨hp, hlock⟩
    · simp [hp]
    · intro _
      exact hlock
  · intro t htw
    by_cases ht : t = s.current
    · rcases hp with ⟨hp, hlock⟩ | ⟨hp, hlock⟩
      · exact hlock
      · subst ht
        simp only [Threads.go, Function.update_self] at htw
        rw [Position.inside_of_works htw] at hp
        cases hp
    · simp only [Threads.go, Function.update_of_ne ht] at htw
      have hpos := hothers t ht
      rw [Position.inside_of_works htw] at hpos
      cases hpos

/-- What one event does where nobody comes to `liballoc_lock` with somebody inside: the balance is kept,
or the kernel stops, and not for the lock. -/
theorem step (hb : Balanced hs s) (h : Step s (t, e) s') (hserial : e = .test → hs = []) :
    Balanced (holdersAfter hs (t, e)) s' ∨ ∃ f, s'.stopped = some f ∧ Quiet f := by
  obtain ⟨-, rfl, hstep⟩ := h
  cases e with
  | tick next =>
    cases hstep
    exact .inl ⟨hb.running, hb.inside, hb.single, hb.free, hb.taken⟩
  | write m =>
    simp only [Liballoc.step] at hstep
    cases hp : s.position s.current <;> simp only [hp] at hstep <;> cases hstep
    exact .inl ⟨hb.running, hb.inside, hb.single, hb.free, hb.taken⟩
  | torn other h =>
    simp only [Liballoc.step] at hstep
    split_ifs at hstep
    cases hstep
    exact .inl ⟨hb.running, hb.inside, hb.single, hb.free, hb.taken⟩
  | call r =>
    simp only [Liballoc.step] at hstep
    cases hp : s.position s.current <;> simp only [hp] at hstep <;> cases hstep
    obtain ⟨hr, hi⟩ := begin_lock s.heap r
    refine hb.go hr (by rw [hp, hi]; rfl) fun hw => ?_
    rw [Position.inside_of_works hw] at hi
    cases hi
  | work =>
    simp only [Liballoc.step] at hstep
    cases hp : s.position s.current <;> simp only [hp] at hstep <;> cases hstep
    rename_i w
    have hr := perform_lock s.heap w
    exact hb.go hr.1 (by rw [hp, hr.2]; rfl) (by simp [hp, Position.works])
  | test =>
    simp only [Liballoc.step] at hstep
    cases hp : s.position s.current <;> simp only [hp] at hstep <;> cases hstep
    obtain rfl := hserial rfl
    exact .inl (hb.enter _)
  | set =>
    simp only [Liballoc.step] at hstep
    cases hp : s.position s.current <;> simp only [hp] at hstep <;> cases hstep
    rename_i w
    have hin : (s.position s.current).inside = true := by
      rw [hp]
      rfl
    exact .inl (hb.store (h := lockSet s.heap) (p := .locked w) hin (.inl ⟨rfl, rfl⟩))
  | check =>
    simp only [Liballoc.step] at hstep
    cases hp : s.position s.current <;> simp only [hp] at hstep <;> cases hstep
    have hlock : s.heap.lock = 1 := hb.taken s.current (by rw [hp]; rfl)
    have hheld : unlockTest s.heap = .ok s.heap := by simp [unlockTest, hlock]
    rw [hheld]
    exact hb.go rfl (by rw [hp]; rfl) (by simp [Position.works])
  | clear =>
    simp only [Liballoc.step] at hstep
    cases hp : s.position s.current <;> simp only [hp] at hstep <;> cases hstep
    rename_i again
    have hout : (again.elim Position.outside Position.locking).inside = false := by
      cases again <;> rfl
    have hin : (s.position s.current).inside = true := by
      rw [hp]
      rfl
    have hleft := hb.store (h := unlockClear s.heap) hin (.inr ⟨hout, rfl⟩)
    rw [hout] at hleft
    exact .inl hleft

end Balanced

@[simp] theorem holders_snoc (ls : List Label) (l : Label) :
    holders (ls ++ [l]) = holdersAfter (holders ls) l := by
  simp [holders]

/-- One more event is serial if it is no test of `liballoc_lock`, or if nobody is inside. -/
theorem serial_snoc (hs : List Nat) (ls : List Label) (l : Label) :
    Serial hs (ls ++ [l]) ↔ Serial hs ls ∧ (l.2 = .test → ls.foldl holdersAfter hs = []) := by
  induction ls generalizing hs with
  | nil => simp [Serial]
  | cons k ls ih => simp only [List.cons_append, Serial, ih, List.foldl_cons, and_assoc]

theorem balanced_run {s₀ s : Threads} {ls : List Label} (h₀ : Started s₀) (hrun : Run Step s₀ ls s)
    (hserial : Serial [] ls) : Balanced (holders ls) s ∨ ∃ f, s.stopped = some f ∧ Quiet f := by
  have hinv := hrun.historyInvariant
    (fun ls s => Serial [] ls → Balanced (holders ls) s ∨ ∃ f, s.stopped = some f ∧ Quiet f) ?_ []
    fun _ => .inl (.started h₀)
  · rw [List.nil_append] at hinv
    exact hinv hserial
  · rintro ls s ⟨t, e⟩ s' ih hstep hsnoc
    obtain ⟨hbefore, htest⟩ := (serial_snoc ..).mp hsnoc
    rcases ih hbefore with hb | ⟨f, hf, -⟩
    · rw [holders_snoc]
      exact hb.step hstep htest
    · rw [hstep.1] at hf
      cases hf

/-- In a serial run neither test stops the kernel. -/
theorem serial_run {s₀ s : Threads} {ls : List Label} (h₀ : Started s₀) (hrun : Run Step s₀ ls s)
    (hserial : Serial [] ls) : NoLockPanic s := by
  rcases balanced_run h₀ hrun hserial with hb | ⟨f, hf, hq⟩
  · simp [NoLockPanic, hb.running]
  · rw [NoLockPanic, hf]
    exact ⟨fun he => hq.1 (Option.some.inj he), fun he => hq.2 (Option.some.inj he)⟩

/-- A thread that is never switched away from never meets its own lock. -/
theorem serial_alone {s₀ s : Threads} {ls : List Label} {t : Nat} (h₀ : Started s₀)
    (hrun : Run Step s₀ ls s) (hall : ∀ l ∈ ls, l.1 = t) : Serial [] ls := by
  have hinv := hrun.historyInvariant (fun ls s => (∀ l ∈ ls, l.1 = t) → Serial [] ls ∧
    (s.stopped = none → Balanced (holders ls) s ∧ ∀ u ∈ holders ls, u = t)) ?_ []
    fun _ => ⟨trivial, fun _ => ⟨.started h₀, by simp [holders]⟩⟩
  · rw [List.nil_append] at hinv
    exact (hinv hall).1
  · rintro ls s ⟨u, e⟩ s' ih hstep hls
    obtain ⟨hserial, hone⟩ := ih fun l hl => hls l (by simp [hl])
    obtain ⟨hb, hmem⟩ := hone hstep.1
    obtain rfl : u = t := hls (u, e) (by simp)
    have hfree : e = .test → holders ls = [] := by
      rintro rfl
      obtain ⟨-, rfl, hstep⟩ := hstep
      simp only [step] at hstep
      cases hp : s.position s.current <;> simp only [hp] at hstep <;> cases hstep
      have hout := hb.inside s.current
      rw [hp] at hout
      apply List.eq_nil_iff_forall_not_mem.mpr
      intro v hv
      obtain rfl := hmem v hv
      exact absurd (hout.mpr hv) (by simp [Position.inside])
    refine ⟨(serial_snoc ..).mpr ⟨hserial, hfree⟩, fun hrunning => ?_⟩
    rw [holders_snoc]
    refine ⟨?_, ?_⟩
    · rcases hb.step hstep hfree with hb' | ⟨f, hf, -⟩
      · exact hb'
      · rw [hrunning] at hf
        cases hf
    · intro v hv
      cases e with
      | test =>
        rw [hfree rfl] at hv
        exact List.mem_singleton.mp hv
      | clear => exact hmem v (List.mem_of_mem_erase hv)
      | _ => exact hmem v hv

/-- The thread where it stands now, with the heap `h` and at `p`. -/
def Threads.moved (s : Threads) (h : State) (p : Position) : Threads :=
  { s with heap := h, position := Function.update s.position s.current p }

theorem moved_moved (s : Threads) (h h' : State) (p p' : Position) :
    (s.moved h p).moved h' p' = s.moved h' p' := by
  simp [Threads.moved]

theorem moved_outside {s : Threads} (hout : s.position s.current = .outside) (h : State) :
    s.moved h .outside = { s with heap := h } := by
  rw [Threads.moved, ← hout, Function.update_eq_self]

theorem Step.moved {s : Threads} {e : Event} {h h' : State} {p p' : Position} (hrun : s.stopped = none)
    (hstep : Liballoc.step (s.moved h p) e = some ((s.moved h p).go (.ok h', p'))) :
    Step (s.moved h p) (s.current, e) (s.moved h' p') := by
  refine ⟨hrun, rfl, ?_⟩
  rw [hstep, ← moved_moved s h h' p p']
  rfl

/-- What a thread does from `liballoc_lock` to `liballoc_unlock`. -/
def sectionEvents : List Event := [.test, .set, .work, .check, .clear]

/-- From `liballoc_lock` to `liballoc_unlock` without a tick. -/
theorem section_run {s : Threads} {h h₁ h₂ h₃ : State} {w : Work} {again : Option Work}
    (hrun : s.stopped = none) (hlock : liballocLock h = .ok h₁)
    (hwork : perform h₁ w = (.ok h₂, .unlocking again)) (hunlock : liballocUnlock h₂ = .ok h₃) :
    Run Step (s.moved h (.locking w)) (sectionEvents.map (s.current, ·))
      (s.moved h₃ (again.elim .outside .locking)) := by
  obtain ⟨htest, rfl⟩ := liballocLock_halves hlock
  obtain ⟨hcheck, rfl⟩ := liballocUnlock_halves hunlock
  have htested : Step (s.moved h (.locking w)) (s.current, .test) (s.moved h (.setting w)) :=
    .moved hrun (by simp [step, Threads.moved, htest])
  have hset : Step (s.moved h (.setting w)) (s.current, .set) (s.moved (lockSet h) (.locked w)) :=
    .moved hrun (by simp [step, Threads.moved])
  have hworked : Step (s.moved (lockSet h) (.locked w)) (s.current, .work)
      (s.moved h₂ (.unlocking again)) :=
    .moved hrun (by simp [step, Threads.moved, hwork])
  have hchecked : Step (s.moved h₂ (.unlocking again)) (s.current, .check)
      (s.moved h₂ (.clearing again)) :=
    .moved hrun (by simp [step, Threads.moved, hcheck])
  have hcleared : Step (s.moved h₂ (.clearing again)) (s.current, .clear)
      (s.moved (unlockClear h₂) (again.elim .outside .locking)) :=
    .moved hrun (by simp [step, Threads.moved])
  exact .cons htested (.cons hset (.cons hworked (.cons hchecked (.single hcleared))))

theorem perform_malloc {h : State} {reqSize size : Nat} {r : Nat × State}
    (hsize : wrap (reqSize + 32) = size) (h0 : size ≠ 0)
    (hmalloc : mallocLocked h size reqSize = .ok r) :
    perform h (.malloc reqSize) = (.ok r.2, .unlocking none) := by
  simp [perform, hsize, h0, hmalloc, Except.map]

/-- What a thread does alone, event by event, is what `new_malloc` does. -/
theorem newMalloc_run {s : Threads} {reqSize p : Nat} {h : State} (hrun : s.stopped = none)
    (hout : s.position s.current = .outside) (hon : s.heap.mm.heapOnline = true)
    (hcall : newMalloc s.heap reqSize = .ok (p, h)) :
    ∃ es : List Event, Run Step s (es.map (s.current, ·)) { s with heap := h } := by
  have hbegin : Step s (s.current, .call (.kmalloc reqSize))
      (s.moved s.heap (.locking (.malloc reqSize))) :=
    ⟨hrun, rfl, by simp [step, hout, begin, hon, Threads.go, Threads.moved]⟩
  rw [← moved_outside hout]
  unfold newMalloc at hcall
  obtain ⟨h₁, hlock, hcall⟩ := bind_eq_ok.mp hcall
  split_ifs at hcall with h0
  · obtain ⟨h₂, hunlock, hcall⟩ := bind_eq_ok.mp hcall
    obtain ⟨h₃, hlock', hcall⟩ := bind_eq_ok.mp hcall
    obtain ⟨r, hmalloc, hcall⟩ := bind_eq_ok.mp hcall
    obtain ⟨h₄, hunlock', hcall⟩ := bind_eq_ok.mp hcall
    cases hcall
    have hwork : perform h₁ (.malloc reqSize) = (.ok h₁, .unlocking (some (.malloc 1))) := by
      simp [perform, h0]
    have hfirst := section_run hrun hlock hwork hunlock
    have hwork' : perform h₃ (.malloc 1) = (.ok r.2, .unlocking none) :=
      perform_malloc (by decide) (by decide) hmalloc
    have hsecond := section_run hrun hlock' hwork' hunlock'
    exact ⟨.call (.kmalloc reqSize) :: (sectionEvents ++ sectionEvents),
      .cons hbegin (hfirst.append hsecond)⟩
  · obtain ⟨r, hmalloc, hcall⟩ := bind_eq_ok.mp hcall
    obtain ⟨h₂, hunlock, hcall⟩ := bind_eq_ok.mp hcall
    cases hcall
    have hwork : perform h₁ (.malloc reqSize) = (.ok r.2, .unlocking none) :=
      perform_malloc rfl h0 hmalloc
    have honly := section_run hrun hlock hwork hunlock
    exact ⟨.call (.kmalloc reqSize) :: sectionEvents, .cons hbegin honly⟩

/-- The same of `new_free`. -/
theorem newFree_run {s : Threads} {ptr : Nat} {h : State} (hrun : s.stopped = none)
    (hout : s.position s.current = .outside) (hcall : newFree s.heap ptr = .ok h) :
    ∃ es : List Event, Run Step s (es.map (s.current, ·)) { s with heap := h } := by
  rw [← moved_outside hout]
  unfold newFree at hcall
  split_ifs at hcall with h0
  · cases hcall
    refine ⟨[.call (.newFree ptr)], .single ⟨hrun, rfl, ?_⟩⟩
    simp [step, hout, begin, h0, Threads.go, Threads.moved]
  · obtain ⟨h₁, hlock, hcall⟩ := bind_eq_ok.mp hcall
    obtain ⟨h₂, hfree, hunlock⟩ := bind_eq_ok.mp hcall
    have hbegin : Step s (s.current, .call (.newFree ptr)) (s.moved s.heap
        (.locking (.free (sub32 (unalign s.heap.mm.mem ptr) minorHeader)))) :=
      ⟨hrun, rfl, by simp [step, hout, begin, h0, Threads.go, Threads.moved]⟩
    have hwork : perform h₁ (.free (sub32 (unalign s.heap.mm.mem ptr) minorHeader)) =
        (.ok h₂, .unlocking none) := by
      simp [perform, hfree]
    have honly := section_run hrun hlock hwork hunlock
    exact ⟨.call (.newFree ptr) :: sectionEvents, .cons hbegin honly⟩

/-- The kernel does not panic for the lock exactly when the tests and the stores come in order. They do
when no thread comes to `liballoc_lock` while another, which a tick switched away from, is between the test
of its `liballoc_lock` and the store of its `liballoc_unlock`. -/
theorem noLockPanic_iff {s₀ s : Threads} {ls : List Label} (h₀ : Started s₀) (hrun : Run Step s₀ ls s) :
    (NoLockPanic s ↔ Orderly false ls) ∧ (Serial [] ls → NoLockPanic s) := by
  refine ⟨?_, serial_run h₀ hrun⟩
  rcases accounted h₀ hrun with ⟨hrunning, -, hordered⟩ | ⟨f, hf, hiff⟩
  · simp [NoLockPanic, hrunning, hordered]
  · rw [← hiff, NoLockPanic, hf, Quiet]
    simp

/-- Threads that have not come to liballoc yet, with no memory behind it. -/
def idleThreads : Threads where
  heap := {
    mm := {
      mem := fun _ => 0
      nframes := 0
      frames := 0
      kernelDir := 0
      currentDirectory := 0
      plp := 0
      heapOnline := true }
    lock := 0
    majors := []
    bestBet := none }
  current := 0
  position := fun _ => .outside
  stopped := none

theorem idleThreads_started : Started idleThreads := ⟨rfl, fun _ => rfl, rfl⟩

/-- One thread frees, with ticks before and behind its section, and another one asks for memory. -/
theorem noLockPanic_serial : ∃ ls s, Run Step idleThreads ls s ∧ NoLockPanic s ∧ Serial [] ls := by
  have hrun : Run Step idleThreads [(0, .call (.newFree 64)), (0, .tick 1), (1, .call (.kmalloc 8)),
      (1, .tick 0), (0, .test), (0, .set), (0, .work), (0, .check), (0, .clear), (0, .tick 1),
      (1, .test), (1, .set)] _ := replay_run rfl
  exact ⟨_, _, hrun, (noLockPanic_iff idleThreads_started hrun).1.mpr (by simp [Orderly, InOrder, takenAfter]),
    by simp [Serial, holdersAfter]⟩

/-- A tick behind `liballoc_lock`, and another thread asks for memory: its `liballoc_lock` panics. And a
tick between the test and the store, another thread takes the lock too, and the first one that gives it back
leaves the `liballoc_unlock` of the other to panic. -/
theorem tick_inside_panics : ∃ s s', Started idleThreads ∧ Run Step idleThreads
    [(0, .call (.kmalloc 8)), (0, .test), (0, .set), (0, .tick 1), (1, .call (.kmalloc 8)), (1, .test)] s ∧
    s.stopped = some acquiredPanic ∧ ¬NoLockPanic s ∧ Run Step idleThreads
    [(0, .call (.newFree 64)), (0, .test), (0, .tick 1), (1, .call (.newFree 64)), (1, .test), (1, .set),
      (1, .tick 0), (0, .set), (0, .work), (0, .check), (0, .clear), (0, .tick 1), (1, .work),
      (1, .check)] s' ∧ s'.stopped = some inconsistencyPanic ∧ ¬NoLockPanic s' :=
  ⟨_, _, idleThreads_started, replay_run rfl, rfl, fun h => h.1 rfl, replay_run rfl, rfl, fun h => h.2 rfl⟩

end Levos.Liballoc
