import Levos.Arch.Context
import Levos.Framework.Run

namespace Levos.Arch

open Levos.Framework

/-- The interrupts that come through `DEF_IRQ_HANDLER`. -/
inductive Irq
  | timer
  | ide
  | keyboard
  | schedule
  | syscall
  deriving DecidableEq

/-- The number that the stub of an interrupt stores in `current_irq`. -/
def Irq.number : Irq → BitVec 8
  | timer => 0
  | ide => 0x20
  | keyboard => 33
  | schedule => 0x2F
  | syscall => 0x80

/-- The machine with the stack pages of its threads. -/
structure System where
  machine : Machine
  page : Nat → Option (BitVec 32)
  zombie : Nat → Bool

/-- What can be seen of the threads from outside. -/
inductive Event
  | created (t : Nat) (entry page cr3 : BitVec 32)
  | interrupted (t : Nat) (regs : Regs)
  | answered (t : Nat) (result : BitVec 32)
  | resumed (t : Nat) (regs : Regs)

/-- The stack of page `p` has room for the frame that an interrupt saves below `esp`. -/
def Room (p esp : BitVec 32) : Prop := 52 ≤ (esp - p).toNat ∧ (esp - p).toNat ≤ 4096

/-- The frames of C functions lie on the stack of the interrupted thread, below the saved frame. -/
def BelowFrame (p esp : BitVec 32) (mem mem' : AddressSpace) : Prop :=
  AddressSpace.Only p (esp - 52 - p).toNat mem mem'

/-- `sched_mk_process`, as far as the registers and the stack go. -/
def System.mkThread (s : System) (t : Nat) (entry page : BitVec 32) : System :=
  let r := initialRegs entry page s.machine.cpu.cr3
  { s with
    machine := { s.machine with thread := Function.update s.machine.thread t r }
    page := Function.update s.page t (some page) }

/-- A thread runs, is interrupted, and is resumed, or another one is. -/
inductive Step : System → List Event → System → Prop
  | create {s : System} {t : Nat} {entry page : BitVec 32} (hnew : s.page t = none)
      (hapart : ∀ u p, s.page u = some p → 4096 ≤ (p - page).toNat ∧ 4096 ≤ (page - p).toNat) :
      Step s [.created t entry page s.machine.cpu.cr3] (s.mkThread t entry page)
  | run {s : System} (cpu : Regs) (mem : AddressSpace) :
      Step s [] { s with machine := { s.machine with cpu := cpu, mem := mem } }
  -- `sched_start_idle`
  | start {s : System} {t : Nat} {p : BitVec 32} {m' : Machine} (hcur : s.machine.current = none)
      (hpage : s.page t = some p) (hz : s.zombie t = false)
      (hswitch : ({ s.machine with current := some t }.archSchedSetupStack t).archSwitchContext =
        .ok m') :
      Step s [.resumed t m'.cpu] { s with machine := m' }
  | returns {s : System} {m₁ m' : Machine} (irq : Irq) (stub : BitVec 32) (scratch : Regs)
      (mem : AddressSpace) (henter : (s.machine.interrupt stub).stubEnter irq.number = .ok m₁)
      (hmem : ∀ x, (x - m₁.cpu.esp).toNat < 52 → mem x = m₁.mem x)
      (hleave : (m₁.handlerReturns scratch mem).stubLeave = .ok m') :
      Step s (s.machine.current.elim []
        fun t => [.interrupted t s.machine.cpu, .resumed t m'.cpu]) { s with machine := m' }
  | schedules {s : System} {t next : Nat} {p q dir : BitVec 32} {m₁ m' : Machine} (irq : Irq)
      (stub : BitVec 32) (scratch : Regs) (mem frames : AddressSpace)
      (hirq : irq = .timer ∨ irq = .schedule) (hcur : s.machine.current = some t)
      (hpage : s.page t = some p) (hroom : Room p s.machine.cpu.esp)
      (hnext : s.page next = some q) (hz : s.zombie next = false)
      (henter : (s.machine.interrupt stub).stubEnter irq.number = .ok m₁)
      (hframes : BelowFrame p s.machine.cpu.esp
        ({ m₁ with mem := mem }.archSchedSetupStack next).mem frames)
      (hswitch : m₁.schedSwitch next dir scratch mem frames = .ok m') :
      Step s [.interrupted t s.machine.cpu, .resumed next m'.cpu] { s with machine := m' }
  | syscall {s : System} {t : Nat} {m₁ m' : Machine} (f : PtRegs → BitVec 32) (stub : BitVec 32)
      (scratch : Regs) (mem : AddressSpace) (hcur : s.machine.current = some t)
      (henter : (s.machine.interrupt stub).stubEnter Irq.syscall.number = .ok m₁)
      (hhub : m₁.syscallHub f scratch mem = .ok m') :
      Step s [.interrupted t s.machine.cpu, .answered t (f (m₁.thread t)), .resumed t m'.cpu]
        { s with machine := m' }
  -- `syscall_exit` is left through the `int $0x2F` of `schedule_noirq`, and never returned to
  | exit {s : System} {t next : Nat} {p q dir : BitVec 32} {m₁ m₂ m' : Machine}
      (stub stub' : BitVec 32) (inner scratch : Regs) (mem mem' frames : AddressSpace)
      (hcur : s.machine.current = some t) (hpage : s.page t = some p)
      (hroom : Room p s.machine.cpu.esp) (hnext : s.page next = some q)
      (hz : Function.update s.zombie t true next = false)
      (henter : (s.machine.interrupt stub).stubEnter Irq.syscall.number = .ok m₁)
      (hinner : ({ m₁ with cpu := inner, mem := mem }.interrupt stub').stubEnter
        Irq.schedule.number = .ok m₂)
      (hframes : BelowFrame p s.machine.cpu.esp
        ({ m₂ with mem := mem' }.archSchedSetupStack next).mem frames)
      (hswitch : m₂.schedSwitch next dir scratch mem' frames = .ok m') :
      Step s [.interrupted t s.machine.cpu, .resumed next m'.cpu]
        { s with machine := m', zombie := Function.update s.zombie t true }

/-- What an event says of the registers with which the threads go on. -/
def Event.note (f : Nat → Option Regs) : Event → Nat → Option Regs
  | created t entry page cr3 => Function.update f t (some (initialRegs entry page cr3).regs)
  | interrupted t regs => Function.update f t (some regs)
  | answered t result => Function.update f t ((f t).map ({ · with eax := result }))
  | resumed _ _ => f

/-- The registers with which each thread goes on, as its history has them: those it had when it was
last interrupted, with the result of its system call, or those it was created with. -/
def goesOn (es : List Event) : Nat → Option Regs := es.foldl Event.note fun _ => none

/-- Every thread is resumed as its history has it. -/
def Exact (es : List Event) : Prop :=
  ∀ pre t regs post, es = pre ++ .resumed t regs :: post → goesOn pre t = some regs

theorem goesOn_snoc (es : List Event) (e : Event) : goesOn (es ++ [e]) = e.note (goesOn es) := by
  simp [goesOn, List.foldl_append]

theorem Exact.nil : Exact [] := by
  intro pre t regs post h
  simp at h

theorem Exact.snoc {es : List Event} {e : Event} (h : Exact es)
    (he : ∀ t regs, e = .resumed t regs → goesOn es t = some regs) : Exact (es ++ [e]) := by
  intro pre t regs post heq
  rcases List.eq_nil_or_concat' post with rfl | ⟨post, e', rfl⟩
  · obtain ⟨rfl, hlast⟩ := List.append_inj' heq rfl
    exact he t regs (List.singleton_inj.mp hlast)
  · rw [← List.cons_append, ← List.append_assoc] at heq
    exact h pre t regs post (List.append_inj' heq rfl).1

/-- What holds of a system with history `es`. -/
structure Saved (es : List Event) (s : System) : Prop where
  exact_ : Exact es
  apart : ∀ t u p q, s.page t = some p → s.page u = some q → t ≠ u → 4096 ≤ (q - p).toNat
  live : ∀ t, s.machine.current = some t → s.page t ≠ none
  waiting : ∀ t p, s.page t = some p → s.zombie t = false → s.machine.current ≠ some t →
    goesOn es t = some (s.machine.thread t).regs ∧ Room p (s.machine.thread t).esp

theorem number_ne (irq : Irq) : irq.number ≠ 0xFF := by
  cases irq <;> decide

/-- Two more events, where the first resumes nobody. -/
theorem Exact.pair {es : List Event} {e : Event} {t : Nat} {regs : Regs} (h : Exact es)
    (he : ∀ u r, e ≠ .resumed u r) (hgo : goesOn (es ++ [e]) t = some regs) :
    Exact (es ++ [e, .resumed t regs]) := by
  rw [← List.singleton_append, ← List.append_assoc]
  refine (h.snoc fun u r heq => absurd heq (he u r)).snoc ?_
  rintro u r ⟨⟩
  exact hgo

theorem goesOn_pair (es : List Event) (e : Event) (t : Nat) (regs : Regs) :
    goesOn (es ++ [e, .resumed t regs]) = goesOn (es ++ [e]) := by
  rw [← List.singleton_append, ← List.append_assoc, goesOn_snoc]
  rfl

/-- The C frames on one stack leave the frame alone that is rebuilt on the other. -/
theorem frame_kept {p q esp esp' : BitVec 32} {mem mem' : AddressSpace}
    (hb : BelowFrame p esp mem mem') (hp : Room p esp) (hq : Room q esp')
    (h : p = q ∧ esp = esp' ∨ 4096 ≤ (q - p).toNat ∧ 4096 ≤ (p - q).toNat) :
    ∀ x, (x - (esp' - 44)).toNat < 44 → mem' x = mem x := by
  intro x hx
  obtain ⟨hp1, hp2⟩ := hp
  obtain ⟨hq1, hq2⟩ := hq
  refine hb x ?_
  rcases h with ⟨rfl, rfl⟩ | ⟨h1, h2⟩
  · bv_omega
  · bv_omega

/-- Thread `t` is interrupted, and `next` is selected: itself, or another one, and another one it
must be if `t` has become a zombie. -/
theorem Saved.switch {es : List Event} {s : System} {t next : Nat} {p q dir : BitVec 32}
    {m₁ m' : Machine} {scratch : Regs} {mem frames : AddressSpace} {zombie : Nat → Bool}
    (h : Saved es s) (hcur : s.machine.current = some t) (hpage : s.page t = some p)
    (hroom : Room p s.machine.cpu.esp) (hnext : s.page next = some q) (hz : zombie next = false)
    (hzombie : ∀ u, zombie u = false → s.zombie u = false) (hirq : m₁.currentIrq ≠ 0xFF)
    (hthread : ∀ u, u ≠ t → m₁.thread u = s.machine.thread u)
    (ht : zombie t = false → m₁.thread t = savedRegs s.machine.cpu)
    (hframes : BelowFrame p s.machine.cpu.esp
      ({ m₁ with mem := mem }.archSchedSetupStack next).mem frames)
    (hswitch : m₁.schedSwitch next dir scratch mem frames = .ok m') :
    Saved (es ++ [.interrupted t s.machine.cpu, .resumed next m'.cpu])
      { s with machine := m', zombie := zombie } := by
  have hwait (u : Nat) (pu : BitVec 32) (hpu : s.page u = some pu) (hzu : zombie u = false) :
      goesOn (es ++ [.interrupted t s.machine.cpu]) u = some (m₁.thread u).regs ∧
        Room pu (m₁.thread u).esp := by
    rw [goesOn_snoc, Event.note]
    by_cases hut : u = t
    · subst hut
      cases hpage.symm.trans hpu
      rw [Function.update_self, ht hzu]
      exact ⟨rfl, hroom⟩
    · rw [Function.update_of_ne hut, hthread u hut]
      exact h.waiting u pu hpu (hzombie u hzu) fun hc => hut (Option.some.inj (hc.symm.trans hcur))
  obtain ⟨hgo, hroomq⟩ := hwait next q hnext hz
  have hapart : p = q ∧ s.machine.cpu.esp = (m₁.thread next).esp ∨
      4096 ≤ (q - p).toNat ∧ 4096 ≤ (p - q).toNat := by
    by_cases hnt : next = t
    · subst hnt
      exact .inl ⟨Option.some.inj (hpage.symm.trans hnext), by rw [ht hz]; rfl⟩
    · exact .inr ⟨h.apart t next p q hpage hnext (Ne.symm hnt), h.apart next t q p hnext hpage hnt⟩
  cases (schedSwitch_spec hirq rfl (frame_kept hframes hroom hroomq hapart)).symm.trans hswitch
  refine ⟨h.exact_.pair (fun _ _ he => by cases he) hgo, h.apart, ?_, ?_⟩
  · intro u hu
    cases hu
    simp [hnext]
  · intro u pu hpu hzu hne
    have hun : u ≠ next := fun he => hne (by rw [he])
    rw [goesOn_pair]
    simp only [Function.update_of_ne hun]
    exact hwait u pu hpu hzu

theorem Saved.create {es : List Event} {s : System} {t : Nat} {entry page : BitVec 32}
    (h : Saved es s)
    (hapart : ∀ u p, s.page u = some p → 4096 ≤ (p - page).toNat ∧ 4096 ≤ (page - p).toNat) :
    Saved (es ++ [.created t entry page s.machine.cpu.cr3]) (s.mkThread t entry page) := by
  refine ⟨h.exact_.snoc (fun _ _ he => by cases he), ?_, ?_, ?_⟩
  · intro u v p q hu hv huv
    simp only [System.mkThread, Function.update_apply] at hu hv
    split_ifs at hu hv with h1 h2 h2
    · exact absurd (h1.trans h2.symm) huv
    · cases hu
      exact (hapart v q hv).1
    · cases hv
      exact (hapart u p hu).2
    · exact h.apart u v p q hu hv huv
  · intro u hu
    by_cases hut : u = t
    · simp [System.mkThread, hut]
    · simpa [System.mkThread, hut] using h.live u hu
  · intro u p hp hz hne
    rw [goesOn_snoc, Event.note]
    simp only [System.mkThread, Function.update_apply] at hp ⊢
    split_ifs at hp ⊢ with hut
    · cases hp
      refine ⟨rfl, ?_, ?_⟩ <;>
      · simp only [initialRegs]
        bv_omega
    · exact h.waiting u p hp hz hne

/-- What an interrupt of thread `t` leaves in the threads. -/
theorem thread_entered {s : System} {t : Nat} {m₁ : Machine} {stub : BitVec 32} {n : BitVec 8}
    (hcur : s.machine.current = some t)
    (henter : (s.machine.interrupt stub).stubEnter n = .ok m₁) :
    m₁.current = some t ∧ m₁.currentIrq = n ∧ m₁.thread t = savedRegs s.machine.cpu ∧
      ∀ u, u ≠ t → m₁.thread u = s.machine.thread u := by
  obtain ⟨m, hm, -, -, hc, hirq, hthread, -⟩ := enter_spec s.machine stub n
  cases hm.symm.trans henter
  rw [hcur] at hc hthread
  refine ⟨hc, hirq, ?_, fun u hu => ?_⟩ <;> rw [hthread, Option.elim_some]
  · exact Function.update_self ..
  · exact Function.update_of_ne hu ..

/-- The interrupted context goes on as it was, be it a thread or the boot. -/
theorem returns_same {s : System} {m₁ m' : Machine} {irq : Irq} {stub : BitVec 32} {scratch : Regs}
    {mem : AddressSpace} (henter : (s.machine.interrupt stub).stubEnter irq.number = .ok m₁)
    (hmem : ∀ x, (x - m₁.cpu.esp).toNat < 52 → mem x = m₁.mem x)
    (hleave : (m₁.handlerReturns scratch mem).stubLeave = .ok m') :
    m'.cpu = s.machine.cpu ∧ m'.current = m₁.current ∧ m'.thread = m₁.thread := by
  obtain ⟨m, hm, hesp, hcr3, -, hirq, -, hholds, -⟩ := enter_spec s.machine stub irq.number
  cases hm.symm.trans henter
  have hframe : mem.Holds m₁.cpu.esp (savedFrame s.machine.cpu) :=
    (hesp ▸ hholds).congr fun x hx => hmem x (Nat.lt_of_lt_of_eq hx rfl)
  have hspec := stubLeave_spec (m := m₁.handlerReturns scratch mem) (r := s.machine.cpu)
    (by change m₁.currentIrq ≠ _; rw [hirq]; exact number_ne irq) hframe hesp hcr3
  cases hspec.symm.trans hleave
  exact ⟨rfl, rfl, rfl⟩

/-- The first thread of all is resumed out of the boot. -/
theorem start_spec (m : Machine) (t : Nat) : ∃ mem,
    ({ m with current := some t }.archSchedSetupStack t).archSwitchContext = .ok { m with
      cpu := (m.thread t).regs, mem := mem, current := some t
      thread := Function.update m.thread t { m.thread t with esp := (m.thread t).esp - 44 } } := by
  obtain ⟨mem, hsetup, hholds, -⟩ :=
    archSchedSetupStack_spec (m := { m with current := some t }) (t := t) rfl
  have hself (r : PtRegs) : Function.update m.thread t r t = r := Function.update_self ..
  refine ⟨mem, ?_⟩
  rw [hsetup]
  exact archSwitchContext_spec (t := t) (r := m.thread t) (m := { m with
    mem := mem, current := some t
    thread := Function.update m.thread t { m.thread t with esp := (m.thread t).esp - 44 } })
    rfl (hself _) hholds

/-- The first thread is resumed as it was created. -/
theorem Saved.start {es : List Event} {s : System} {t : Nat} {p : BitVec 32} {m' : Machine}
    (h : Saved es s) (hcur : s.machine.current = none) (hpage : s.page t = some p)
    (hz : s.zombie t = false)
    (hswitch : ({ s.machine with current := some t }.archSchedSetupStack t).archSwitchContext = .ok m') :
    Saved (es ++ [.resumed t m'.cpu]) { s with machine := m' } := by
  obtain ⟨hgo, -⟩ := h.waiting t p hpage hz (by rw [hcur]; simp)
  obtain ⟨mem, hresume⟩ := start_spec s.machine t
  cases hresume.symm.trans hswitch
  refine ⟨h.exact_.snoc ?_, h.apart, ?_, ?_⟩
  · rintro u r ⟨⟩
    exact hgo
  · intro u hu
    cases hu
    simp [hpage]
  · intro u pu hpu hzu hne
    have hut : u ≠ t := fun he => hne (by rw [he])
    rw [goesOn_snoc]
    simp only [Event.note, Function.update_of_ne hut]
    exact h.waiting u pu hpu hzu (by rw [hcur]; simp)

/-- An interrupt that returns to where it came from. -/
theorem Saved.returns {es : List Event} {s : System} {m₁ m' : Machine} {irq : Irq} {stub : BitVec 32}
    {scratch : Regs} {mem : AddressSpace} (h : Saved es s)
    (henter : (s.machine.interrupt stub).stubEnter irq.number = .ok m₁)
    (hmem : ∀ x, (x - m₁.cpu.esp).toNat < 52 → mem x = m₁.mem x)
    (hleave : (m₁.handlerReturns scratch mem).stubLeave = .ok m') :
    Saved (es ++ s.machine.current.elim []
      fun t => [.interrupted t s.machine.cpu, .resumed t m'.cpu]) { s with machine := m' } := by
  obtain ⟨hcpu, hc', hthread'⟩ := returns_same henter hmem hleave
  cases hcur : s.machine.current with
  | none =>
    obtain ⟨m, hm, -, -, hc, -, hthread, -⟩ := enter_spec s.machine stub irq.number
    cases hm.symm.trans henter
    rw [hcur] at hthread hc
    rw [Option.elim_none, List.append_nil]
    refine ⟨h.exact_, h.apart, fun u hu => ?_, fun u p hp hz _ => ?_⟩
    · rw [hc', hc] at hu
      cases hu
    · rw [hthread', hthread]
      exact h.waiting u p hp hz (by rw [hcur]; simp)
  | some t =>
    obtain ⟨hc, -, -, hother⟩ := thread_entered hcur henter
    rw [Option.elim_some, hcpu]
    refine ⟨h.exact_.pair (fun _ _ he => by cases he) ?_, h.apart, ?_, ?_⟩
    · rw [goesOn_snoc, Event.note, Function.update_self]
    · intro u hu
      rw [hc', hc] at hu
      cases hu
      exact h.live t hcur
    · intro u p hp hz hne
      rw [hc', hc] at hne
      have hut : u ≠ t := fun he => hne (by rw [he])
      rw [goesOn_pair, goesOn_snoc, Event.note, Function.update_of_ne hut, hthread', hother u hut]
      exact h.waiting u p hp hz fun hc => hut (Option.some.inj (hc.symm.trans hcur))

/-- A system call goes on with its result in `eax`. -/
theorem Saved.syscall {es : List Event} {s : System} {t : Nat} {m₁ m' : Machine}
    {f : PtRegs → BitVec 32} {stub : BitVec 32} {scratch : Regs} {mem : AddressSpace} (h : Saved es s)
    (hcur : s.machine.current = some t)
    (henter : (s.machine.interrupt stub).stubEnter Irq.syscall.number = .ok m₁)
    (hhub : m₁.syscallHub f scratch mem = .ok m') :
    Saved (es ++ [.interrupted t s.machine.cpu, .answered t (f (m₁.thread t)), .resumed t m'.cpu])
      { s with machine := m' } := by
  obtain ⟨hc, -, hself, hother⟩ := thread_entered hcur henter
  obtain ⟨mem', thread, hspec, hthread⟩ := syscallHub_spec f scratch mem hc hself
  cases hspec.symm.trans hhub
  have hgo : goesOn ((es ++ [.interrupted t s.machine.cpu]) ++ [.answered t (f (m₁.thread t))]) t =
      some { s.machine.cpu with eax := f (m₁.thread t) } := by
    rw [goesOn_snoc, goesOn_snoc]
    simp [Event.note]
  have hsplit : es ++ [.interrupted t s.machine.cpu, .answered t (f (m₁.thread t)),
      .resumed t { s.machine.cpu with eax := f (m₁.thread t) }] =
      (es ++ [.interrupted t s.machine.cpu]) ++ [.answered t (f (m₁.thread t)),
        .resumed t { s.machine.cpu with eax := f (m₁.thread t) }] := by simp
  rw [hself] at *
  simp only [savedRegs_regs]
  rw [hsplit]
  refine ⟨(h.exact_.snoc fun _ _ he => by cases he).pair (fun _ _ he => by cases he) hgo, h.apart,
    ?_, ?_⟩
  · intro u hu
    rw [hc] at hu
    cases hu
    exact h.live t hcur
  · intro u p hp hz hne
    rw [hc] at hne
    have hut : u ≠ t := fun he => hne (by rw [he])
    rw [goesOn_pair, goesOn_snoc, goesOn_snoc]
    simp only [Event.note, Function.update_of_ne hut, hthread u hut, hother u hut]
    exact h.waiting u p hp hz fun hc => hut (Option.some.inj (hc.symm.trans hcur))

theorem Saved.step {es new : List Event} {s s' : System} (h : Saved es s) (hst : Step s new s') :
    Saved (es ++ new) s' := by
  cases hst with
  | create _ hapart => exact h.create hapart
  | run cpu mem =>
    rw [List.append_nil]
    exact ⟨h.exact_, h.apart, h.live, h.waiting⟩
  | start hcur hpage hz hswitch => exact h.start hcur hpage hz hswitch
  | returns irq stub scratch mem henter hmem hleave => exact h.returns henter hmem hleave
  | schedules irq stub scratch mem frames hirq hcur hpage hroom hnext hz henter hframes hswitch =>
    obtain ⟨-, hn, hself, hother⟩ := thread_entered hcur henter
    exact h.switch hcur hpage hroom hnext hz (fun _ hu => hu) (hn ▸ number_ne irq) hother
      (fun _ => hself) hframes hswitch
  | syscall f stub scratch mem hcur henter hhub => exact h.syscall hcur henter hhub
  | @exit t next p q dir m₁ m₂ m' stub stub' inner scratch mem mem' frames hcur hpage hroom hnext hz
      henter hinner hframes hswitch =>
    obtain ⟨hc, -, -, hother⟩ := thread_entered hcur henter
    obtain ⟨-, hn, -, hother'⟩ :=
      thread_entered (s := { s with machine := { m₁ with cpu := inner, mem := mem } }) hc hinner
    refine h.switch hcur hpage hroom hnext hz ?_ (hn ▸ number_ne .schedule)
      (fun u hu => (hother' u hu).trans (hother u hu)) ?_ hframes hswitch
    · intro u hu
      rw [Function.update_apply] at hu
      split_ifs at hu
      exact hu
    · intro ht
      rw [Function.update_self] at ht
      cases ht

/-- The boot, before any thread exists. -/
structure Unscheduled (s : System) : Prop where
  current : s.machine.current = none
  page : ∀ t, s.page t = none

theorem Saved.run {s₀ s : System} {ls : List (List Event)} (hboot : Unscheduled s₀)
    (hrun : Run Step s₀ ls s) : Saved ls.flatten s := by
  have hinv := hrun.historyInvariant (fun ls s => Saved ls.flatten s)
    (fun ls s new s' h hst => by
      rw [List.flatten_append, List.flatten_singleton]
      exact h.step hst) []
    ⟨.nil, fun t u p q hp => by simp [hboot.page t] at hp, fun t ht => by simp [hboot.current] at ht,
      fun t p hp => by simp [hboot.page t] at hp⟩
  simpa using hinv

/-- A thread that was never interrupted goes on at its entry, on an empty stack. -/
theorem goesOn_first {es : List Event} {t : Nat} {regs : Regs} (h : goesOn es t = some regs)
    (hnever : ∀ r, .interrupted t r ∉ es) :
    ∃ entry page cr3, .created t entry page cr3 ∈ es ∧ regs.eip = entry ∧
      regs.esp = page + 4096 := by
  induction es using List.reverseRecOn generalizing regs with
  | nil => cases h
  | append_singleton es e ih =>
    have hnever' (r : Regs) : .interrupted t r ∉ es := fun hr => hnever r (by simp [hr])
    have hkeep (hgo : goesOn es t = some regs) : ∃ entry page cr3,
        .created t entry page cr3 ∈ es ++ [e] ∧ regs.eip = entry ∧ regs.esp = page + 4096 := by
      obtain ⟨entry, page, cr3, hmem, hregs⟩ := ih hgo hnever'
      exact ⟨entry, page, cr3, by simp [hmem], hregs⟩
    rw [goesOn_snoc] at h
    cases e with
    | created u entry page cr3 =>
      by_cases hut : t = u
      · subst hut
        rw [Event.note, Function.update_self] at h
        cases h
        exact ⟨entry, page, cr3, by simp, rfl, rfl⟩
      · rw [Event.note, Function.update_of_ne hut] at h
        exact hkeep h
    | interrupted u r =>
      have hut : t ≠ u := fun he => hnever r (by simp [he])
      rw [Event.note, Function.update_of_ne hut] at h
      exact hkeep h
    | answered u result =>
      by_cases hut : t = u
      · subst hut
        rw [Event.note, Function.update_self] at h
        obtain ⟨r, hr, rfl⟩ := Option.map_eq_some_iff.mp h
        obtain ⟨entry, page, cr3, hmem, hregs⟩ := ih hr hnever'
        exact ⟨entry, page, cr3, by simp [hmem], hregs⟩
      · rw [Event.note, Function.update_of_ne hut] at h
        exact hkeep h
    | resumed u r => exact hkeep h

/-- In every run each thread is resumed with the registers it was interrupted with, but for the
result of a system call, and for the first time at its entry with an empty stack; no interrupt
finds the saved frame damaged. -/
theorem resumed_exact {s₀ s : System} {ls : List (List Event)} (hboot : Unscheduled s₀)
    (hrun : Run Step s₀ ls s) :
    (∀ pre t regs post, ls.flatten = pre ++ .resumed t regs :: post →
      goesOn pre t = some regs ∧
      ((∀ r, .interrupted t r ∉ pre) → ∃ entry page cr3, .created t entry page cr3 ∈ pre ∧
        regs.eip = entry ∧ regs.esp = page + 4096)) ∧
    ∀ (irq : Irq) stub, ∃ m₁, (s.machine.interrupt stub).stubEnter irq.number = .ok m₁ := by
  refine ⟨fun pre t regs post h => ?_, fun irq stub => ?_⟩
  · have hgo := (Saved.run hboot hrun).exact_ pre t regs post h
    exact ⟨hgo, goesOn_first hgo⟩
  · obtain ⟨m₁, hm₁, -⟩ := enter_spec s.machine stub irq.number
    exact ⟨m₁, hm₁⟩

/-- A machine that is about to create its first thread. -/
def bootSystem : System where
  machine :=
    { cpu := ⟨0, 0, 0, 0, 0, 0, 0, 0, 0x100000, 8, 2, 0x108000⟩
      mem := fun _ => 0
      prePushalEsp := 0
      preIrqEsp := 0
      preIrqRegs := initialRegs 0 0 0
      currentIrq := 0xFF
      current := none
      thread := fun _ => initialRegs 0 0 0 }
  page := fun _ => none
  zombie := fun _ => false

/-- A tick can switch from any thread whose stack has room to any other one that is no zombie. -/
theorem tick_switches {s : System} {t : Nat} {p q : BitVec 32} (next : Nat) (hcur : s.machine.current = some t)
    (hpage : s.page t = some p) (hroom : Room p s.machine.cpu.esp) (hnext : s.page next = some q)
    (hz : s.zombie next = false) (hne : next ≠ t) : ∃ m',
      Step s [.interrupted t s.machine.cpu, .resumed next m'.cpu] { s with machine := m' } ∧
      m'.current = some next ∧ m'.cpu = (s.machine.thread next).regs ∧
      m'.thread t = savedRegs s.machine.cpu := by
  obtain ⟨m₁, henter, -⟩ := enter_spec s.machine 0 Irq.timer.number
  obtain ⟨-, hirq, hself, hother⟩ := thread_entered hcur henter
  let frames := ({ m₁ with mem := m₁.mem }.archSchedSetupStack next).mem
  have hswitch : m₁.schedSwitch next 0x108000 m₁.cpu m₁.mem frames = .ok _ :=
    schedSwitch_spec (hirq ▸ number_ne .timer) (hother next hne) fun _ _ => rfl
  refine ⟨_, .schedules .timer 0 m₁.cpu m₁.mem frames (.inl rfl) hcur hpage hroom hnext hz henter
    (fun _ _ => rfl) hswitch, rfl, rfl, ?_⟩
  exact (Function.update_of_ne (Ne.symm hne) _ _).trans hself

/-- The first thread can always be started. -/
theorem start_switches {s : System} {t : Nat} {p : BitVec 32} (hcur : s.machine.current = none)
    (hpage : s.page t = some p) (hz : s.zombie t = false) : ∃ m',
      Step s [.resumed t m'.cpu] { s with machine := m' } ∧ m'.current = some t ∧
      m'.cpu = (s.machine.thread t).regs ∧ ∀ u, u ≠ t → m'.thread u = s.machine.thread u := by
  obtain ⟨mem, hresume⟩ := start_spec s.machine t
  exact ⟨_, .start hcur hpage hz hresume, rfl, rfl, fun u hu => Function.update_of_ne hu _ _⟩

/-- Two threads are created, and two ticks later the first one goes on with the registers that it had. -/
theorem resumed_exact_ticks : ∃ ls s r₀ r r₁ regs, Run Step bootSystem ls s ∧
    ls.flatten = [.created 0 0x101000 0x400000 0x108000, .created 1 0x102000 0x500000 0x108000,
      .resumed 0 r₀, .interrupted 0 r, .resumed 1 r₁, .interrupted 1 r₁, .resumed 0 regs] ∧
    r.eax = 7 ∧ regs = r := by
  have hboot : Unscheduled bootSystem := ⟨rfl, fun _ => rfl⟩
  let s₁ := bootSystem.mkThread 0 0x101000 0x400000
  have hcreate : Step bootSystem [.created 0 0x101000 0x400000 0x108000] s₁ :=
    .create rfl fun u p hp => by cases hp
  let s₂ := s₁.mkThread 1 0x102000 0x500000
  have hcreate' : Step s₁ [.created 1 0x102000 0x500000 0x108000] s₂ := by
    refine .create rfl fun u p hp => ?_
    have hpage : Function.update bootSystem.page 0 (some 0x400000) u = some p := hp
    rw [Function.update_apply] at hpage
    split_ifs at hpage
    · cases hpage
      decide
    · cases hpage
  obtain ⟨m₀, hstart, hcur₀, hcpu₀, hother₀⟩ := start_switches (s := s₂) (t := 0) rfl rfl rfl
  -- thread 0 works
  let m : Machine := { m₀ with cpu := { m₀.cpu with eax := 7 } }
  have hwork : Step { s₂ with machine := m₀ } [] { s₂ with machine := m } := .run _ m₀.mem
  have hroom : Room 0x400000 m.cpu.esp := by
    have hesp : m.cpu.esp = 0x401000 := congrArg Regs.esp hcpu₀
    rw [hesp]
    exact ⟨by decide, by decide⟩
  obtain ⟨m₁, htick, hcur₁, hcpu₁, -⟩ := tick_switches (s := { s₂ with machine := m }) 1 hcur₀ rfl
    hroom rfl rfl (by decide)
  have hroom₁ : Room 0x500000 m₁.cpu.esp := by
    have hthread : m.thread 1 = s₂.machine.thread 1 := hother₀ 1 (by decide)
    rw [hcpu₁, hthread]
    exact ⟨by decide, by decide⟩
  obtain ⟨m₂, htick', -⟩ := tick_switches (s := { s₂ with machine := m₁ }) 0 hcur₁ rfl hroom₁ rfl rfl
    (by decide)
  have hrun := (((((Run.single hcreate).snoc hcreate').snoc hstart).snoc hwork).snoc htick).snoc htick'
  obtain ⟨hall, -⟩ := resumed_exact hboot hrun
  obtain ⟨hgo, -⟩ := hall [.created 0 0x101000 0x400000 0x108000, .created 1 0x102000 0x500000 0x108000,
    .resumed 0 m₀.cpu, .interrupted 0 m.cpu, .resumed 1 m₁.cpu, .interrupted 1 m₁.cpu] 0 _ [] rfl
  exact ⟨_, _, m₀.cpu, m.cpu, m₁.cpu, m₂.cpu, hrun, rfl, rfl, (Option.some.inj hgo).symm⟩

end Levos.Arch
