import Levos.Arch.Idt
import Levos.Framework.Pic

namespace Levos.Arch

open Levos.Framework Levos.Framework.Pics

/-- The bytes that `irq_remap` sends. -/
def irqRemap : List (BitVec 16 × BitVec 8) :=
  [(0x20, 0x11), (0xA0, 0x11), (0x21, 0x20), (0xA1, 0x28), (0x21, 0x04), (0xA1, 0x02), (0x21, 0x01),
    (0xA1, 0x01), (0x21, 0x0), (0xA1, 0x0)]

/-- The bytes that `send_eoi` sends. -/
def eoiBytes (currentIrq : BitVec 8) : List (BitVec 16 × BitVec 8) :=
  (if currentIrq > 8 then [(0xA0, 0x20)] else []) ++ [(0x20, 0x20)]

/-- The stub behind a line of the controllers: the boot has set no other of their gates. -/
def lineIrq (l : Line) : Option Irq :=
  match bootHandler (l.vector 0x20 0x28) with
  | .stub irq => some irq
  | _ => none

/-- The machine with its table of gates and its interrupt controllers, and the line whose handler runs. -/
structure Wired where
  machine : Machine
  idt : Idt
  pics : Pics
  serving : Option Line

/-- What happens between the devices, the controllers and the kernel. -/
inductive WiredEvent
  | raised (l : Line)
  | merged (l : Line)
  | ran
  | registered (c : BitVec 32 × Handler)
  | entered (l : Line)
  | ignored (l : Line)
  | soft (irq : Irq)
  | ended (on : Option Line)
  deriving DecidableEq

/-- `IF`. -/
def Machine.interruptible (m : Machine) : Bool := m.cpu.eflags.getLsbD 9

/-- One step of the devices, of the code that runs, or of the processor. `addr` tells where the functions
are. -/
inductive WiredStep (addr : Handler → BitVec 32) : Wired → WiredEvent → Wired → Prop
  -- at line 2 of the first controller is the second one, at every other line may be a device
  | raise {w : Wired} {l : Line} (hl : l ≠ .master 2) (hp : w.pics.pending l = false) :
      WiredStep addr w (.raised l) { w with pics := w.pics.raise l }
  | merge {w : Wired} {l : Line} (hp : w.pics.pending l = true) :
      WiredStep addr w (.merged l) { w with pics := w.pics.raise l }
  -- only the stubs write `current_irq`, and no handler executes `sti`
  | code {w : Wired} (m : Machine) (hirq : m.currentIrq = w.machine.currentIrq)
      (hif : w.serving ≠ none → m.interruptible = false) :
      WiredStep addr w .ran { w with machine := m }
  | register {w : Wired} {c : BitVec 32 × Handler} (hc : c ∈ bootIrqs) :
      WiredStep addr w (.registered c) { w with idt := irqSet w.idt c.1 (addr c.2) }
  | accept {w : Wired} {l : Line} {v : BitVec 8} {pics : Pics} {stub : BitVec 32} {sel : BitVec 16}
      {dpl : BitVec 2} {irq : Irq} {m : Machine} (hif : w.machine.interruptible = true)
      (hack : w.pics.acknowledge = some (l, v, pics)) (hgate : (w.idt v).enter = some (stub, sel, dpl))
      (hstub : stub = addr (.stub irq))
      (henter : (w.machine.interrupt stub).stubEnter irq.number = .ok m) :
      WiredStep addr w (.entered l) { w with machine := m, pics := pics, serving := some l }
  -- `idt_noop_irq` goes back at once and without an end of interrupt
  | ignore {w : Wired} {l : Line} {v : BitVec 8} {pics : Pics} {stub : BitVec 32} {sel : BitVec 16}
      {dpl : BitVec 2} (hif : w.machine.interruptible = true)
      (hack : w.pics.acknowledge = some (l, v, pics)) (hgate : (w.idt v).enter = some (stub, sel, dpl))
      (hstub : stub = addr .idtNoopIrq) :
      WiredStep addr w (.ignored l)
        { w with machine := (w.machine.interrupt stub).iretl, pics := pics }
  -- `int $0x2F` and `int $0x80`: no handler of a line executes them
  | soft {w : Wired} {stub : BitVec 32} {irq : Irq} {m : Machine} (hserving : w.serving = none)
      (hsoft : irq = .schedule ∨ irq = .syscall)
      (henter : (w.machine.interrupt stub).stubEnter irq.number = .ok m) :
      WiredStep addr w (.soft irq) { w with machine := m }
  | leave {w : Wired} {m : Machine} (hleave : w.machine.stubLeave = .ok m) :
      WiredStep addr w (.ended w.serving)
        { w with machine := m, pics := w.pics.outportbs (eoiBytes w.machine.currentIrq), serving := none }
  | schedules {w : Wired} {next : Nat} {dir : BitVec 32} {scratch : Regs} {mem frames : AddressSpace}
      {m : Machine} (hswitch : w.machine.schedSwitch next dir scratch mem frames = .ok m) :
      WiredStep addr w (.ended w.serving)
        { w with machine := m, pics := w.pics.outportbs (eoiBytes w.machine.currentIrq), serving := none }
  -- `syscall_hub` goes back without an end of interrupt
  | hub {w : Wired} {f : PtRegs → BitVec 32} {scratch : Regs} {mem : AddressSpace} {m : Machine}
      (hserving : w.serving = none) (hhub : w.machine.syscallHub f scratch mem = .ok m) :
      WiredStep addr w .ran { w with machine := m }

/-- The kernel when `irq_remap` returns: the exceptions have their gates, the drivers come later. -/
def remapped (addr : Handler → BitVec 32) (idt : Idt) (m : Machine) (p : Pics) : Wired :=
  ⟨m, irqSets addr (idtInit addr idt) exceptionsInit, p.outportbs irqRemap, none⟩

section Remap

theorem remap_ready (p : Pics) : (p.outportbs irqRemap).Ready 0x20 0x28 ∧
    (p.outportbs irqRemap).Serves none ∧ ∀ l, (p.outportbs irqRemap).pending l = false := by
  have hdone : p.outportbs irqRemap = ⟨
      ⟨fun _ => false, fun _ => false, fun l => (0#8).getLsbD l, 0x20, 4, false, true, .mask⟩,
      ⟨fun _ => false, fun _ => false, fun l => (0#8).getLsbD l, 0x28, 2, false, true, .mask⟩⟩ := rfl
  rw [hdone]
  refine ⟨⟨by decide, by decide, by simp, rfl⟩, ⟨by simp, by simp⟩, fun l => ?_⟩
  cases l <;> rfl

variable {p : Pics} {on : Option Line}

theorem outportbs_eoi (p : Pics) (n : BitVec 8) : p.outportbs (eoiBytes n) =
    ⟨p.master.endOfInterrupt, if n > 8 then p.slave.endOfInterrupt else p.slave⟩ := by
  by_cases hn : n > 8
  · rw [eoiBytes, if_pos hn, if_pos hn]
    rfl
  · rw [eoiBytes, if_neg hn, if_neg hn]
    rfl

/-- An end of interrupt changes neither the set-up nor what is pending. -/
theorem eoi_kept (n : BitVec 8) (h : p.Ready 0x20 0x28) :
    (p.outportbs (eoiBytes n)).Ready 0x20 0x28 ∧ (p.outportbs (eoiBytes n)).pending = p.pending := by
  rw [outportbs_eoi]
  obtain ⟨isr, hmaster⟩ := endOfInterrupt_kept p.master
  obtain ⟨isr', hslave⟩ := endOfInterrupt_kept p.slave
  rw [hmaster, hslave]
  refine ⟨⟨h.master, ?_, fun l => ⟨(h.masks l).1, ?_⟩, h.cascade⟩, ?_⟩
  · split
    · exact h.slave
    · exact h.slave
  · split
    · exact (h.masks l).2
    · exact (h.masks l).2
  · funext l
    cases l with
    | master l => rfl
    | slave l =>
      simp only [pending]
      split <;> rfl

/-- The stubs of the lines of the second controller have numbers above 8. -/
theorem slave_number {l : Fin 8} {irq : Irq} (h : lineIrq (.slave l) = some irq) : irq.number > 8 := by
  have hall : ∀ l : Fin 8, (lineIrq (.slave l)).all (fun irq => irq.number > 8) = true := by decide
  have hl := hall l
  rw [h] at hl
  exact of_decide_eq_true hl

/-- The numbers of the stubs tell `send_eoi` enough: no line stays in service. -/
theorem eoi_frees {n : BitVec 8} (h : p.Serves on)
    (hn : ∀ l, on = some l → ∃ irq, lineIrq l = some irq ∧ n = irq.number) :
    (p.outportbs (eoiBytes n)).Serves none := by
  rw [outportbs_eoi]
  refine ⟨fun k => by simp [h.end_master k], fun k => ?_⟩
  split_ifs with hbig
  · simp [h.end_slave k]
  · have hnot : on ≠ some (.slave k) := by
      intro hon
      obtain ⟨irq, hirq, rfl⟩ := hn _ hon
      exact hbig (slave_number hirq)
    simp [h.slave k, hnot]

theorem raise_kept {l : Line} (h : p.Ready 0x20 0x28) (hl : l ≠ .master 2) :
    (p.raise l).Ready 0x20 0x28 ∧ (p.raise l).pending = Function.update p.pending l true := by
  cases l with
  | master l =>
    have hne : 2 ≠ l := fun he => hl (by rw [he])
    refine ⟨⟨h.master, h.slave, h.masks, ?_⟩, ?_⟩
    · simp [raise, Pic.raise, hne, h.cascade]
    · funext k
      cases k with
      | master k => by_cases hk : k = l <;> simp [pending, raise, Pic.raise, hk]
      | slave k => simp [pending, raise]
  | slave l =>
    refine ⟨⟨h.master, h.slave, h.masks, h.cascade⟩, ?_⟩
    funext k
    cases k with
    | master k => simp [pending, raise]
    | slave k => by_cases hk : k = l <;> simp [pending, raise, Pic.raise, hk]

/-- A request leaves alone what is in service. -/
theorem raise_isr (p : Pics) (l : Line) :
    (p.raise l).master.isr = p.master.isr ∧ (p.raise l).slave.isr = p.slave.isr := by
  cases l <;> exact ⟨rfl, rfl⟩

theorem raise_serves (h : p.Serves on) (l : Line) : (p.raise l).Serves on := by
  obtain ⟨hmaster, hslave⟩ := raise_isr p l
  exact ⟨fun k => by rw [hmaster]; exact h.master k, fun k => by rw [hslave]; exact h.slave k⟩

theorem update_pending {p : Pics} {l : Line} {b : Bool} (hp : p.pending l = b) :
    Function.update p.pending l b = p.pending := by
  rw [← hp]
  exact Function.update_eq_self ..

end Remap

section Invariant

variable {idt : Idt} {addr : Handler → BitVec 32} {w w' : Wired} {e : WiredEvent}

theorem savePreIrqRegs_cpu {m m' : Machine} (h : m.savePreIrqRegs = .ok m') : m'.cpu = m.cpu := by
  simp only [Machine.savePreIrqRegs] at h
  split at h
  · cases h
  · split at h <;>
    · cases h
      rfl

theorem stubEnter_eflags {m m' : Machine} {n : BitVec 8} (h : m.stubEnter n = .ok m') :
    m'.cpu.eflags = m.cpu.eflags := by
  obtain ⟨m₁, hsave, h⟩ := bind_eq_ok.mp h
  cases h
  change m₁.cpu.eflags = _
  rw [savePreIrqRegs_cpu hsave]
  simp only [Machine.push, Machine.pushal, Machine.pushes]

/-- What an interrupt leaves behind when its handler begins. -/
theorem entered {m m' : Machine} {stub : BitVec 32} {n : BitVec 8}
    (h : (m.interrupt stub).stubEnter n = .ok m') : m'.currentIrq = n ∧ m'.interruptible = false := by
  obtain ⟨m₁, hm₁, -, -, -, hirq, -⟩ := enter_spec m stub n
  cases hm₁.symm.trans h
  refine ⟨hirq, ?_⟩
  rw [Machine.interruptible, stubEnter_eflags h]
  change (m.cpu.eflags &&& ~~~0x300#32).getLsbD 9 = false
  rw [BitVec.getLsbD_and]
  simp

/-- What every run keeps: the set-up of the controllers, gates that lead to their handler or are still
those of `idt_init`, and with a handler the state its stub has set up. -/
structure Wired.Kept (addr : Handler → BitVec 32) (w : Wired) : Prop where
  ready : w.pics.Ready 0x20 0x28
  gates : ∀ v, ∃ h, (h = bootHandler v ∨ h = .idtNoopIrq) ∧ (w.idt v).enter = some (addr h, 8, 3)
  inside : ∀ l, w.serving = some l → ∃ irq, lineIrq l = some irq ∧
    w.machine.currentIrq = irq.number ∧ w.machine.interruptible = false

/-- With interrupts on, no handler runs. -/
theorem Wired.Kept.idle (h : w.Kept addr) (hif : w.machine.interruptible = true) : w.serving = none := by
  cases hs : w.serving with
  | none => rfl
  | some l =>
    obtain ⟨irq, -, -, hoff⟩ := h.inside l hs
    rw [hif] at hoff
    cases hoff

theorem Wired.Kept.ended (h : w.Kept addr) (m : Machine) :
    Wired.Kept addr
      { w with machine := m, pics := w.pics.outportbs (eoiBytes w.machine.currentIrq), serving := none } :=
  ⟨(eoi_kept w.machine.currentIrq h.ready).1, h.gates, fun l hl => by cases hl⟩

/-- The stub that an interrupt enters is that of its line. -/
theorem Wired.Kept.line {l : Line} {irq : Irq} {sel : BitVec 16} {dpl : BitVec 2} (h : w.Kept addr)
    (hinj : Function.Injective addr)
    (hgate : (w.idt (l.vector 0x20 0x28)).enter = some (addr (.stub irq), sel, dpl)) :
    lineIrq l = some irq := by
  obtain ⟨f, hf, henter⟩ := h.gates (l.vector 0x20 0x28)
  have hsame := henter.symm.trans hgate
  simp only [Option.some.injEq, Prod.mk.injEq] at hsame
  have hstub := hinj hsame.1
  rcases hf with rfl | rfl
  · rw [lineIrq, hstub]
  · cases hstub

theorem bootIrqs_handler {c : BitVec 32 × Handler} (hc : c ∈ bootIrqs) :
    bootHandler (c.1.truncate 8) = c.2 := by
  have hall : ∀ c ∈ bootIrqs, bootHandler (c.1.truncate 8) = c.2 := by decide
  exact hall c hc

theorem Wired.Kept.step (h : w.Kept addr) (hinj : Function.Injective addr) (hst : WiredStep addr w e w') :
    w'.Kept addr := by
  cases hst with
  | raise hl hp => exact ⟨(raise_kept h.ready hl).1, h.gates, h.inside⟩
  | merge hp => exact ⟨(raise_kept h.ready (h.ready.ne_cascade hp)).1, h.gates, h.inside⟩
  | code m hirq hif =>
    refine ⟨h.ready, h.gates, ?_⟩
    intro l hl
    obtain ⟨irq, hline, hn, -⟩ := h.inside l hl
    exact ⟨irq, hline, hirq.trans hn, hif (by rw [hl]; simp)⟩
  | @register c hc =>
    refine ⟨h.ready, fun v => ?_, h.inside⟩
    by_cases hv : c.1.truncate 8 = v
    · refine ⟨c.2, .inl ?_, ?_⟩
      · rw [← hv, bootIrqs_handler hc]
      · exact (irqSet_enter w.idt c v).trans (if_pos hv)
    · obtain ⟨f, hf, henter⟩ := h.gates v
      exact ⟨f, hf, (irqSet_enter w.idt c v).trans ((if_neg hv).trans henter)⟩
  | accept hif hack hgate hstub henter =>
    obtain ⟨rfl, -, hready, -⟩ := h.ready.acknowledge_some hack
    subst hstub
    obtain ⟨hnumber, hoff⟩ := entered henter
    refine ⟨hready, h.gates, ?_⟩
    intro k hk
    cases hk
    exact ⟨_, h.line hinj hgate, hnumber, hoff⟩
  | ignore hif hack hgate hstub =>
    refine ⟨(h.ready.acknowledge_some hack).2.2.1, h.gates, ?_⟩
    intro k hk
    change w.serving = some k at hk
    rw [h.idle hif] at hk
    cases hk
  | soft hserving hsoft henter =>
    refine ⟨h.ready, h.gates, ?_⟩
    intro l hl
    change w.serving = some l at hl
    rw [hserving] at hl
    cases hl
  | leave hleave => exact h.ended _
  | schedules hswitch => exact h.ended _
  | hub hserving hhub =>
    refine ⟨h.ready, h.gates, ?_⟩
    intro l hl
    change w.serving = some l at hl
    rw [hserving] at hl
    cases hl

/-- The controllers have in service what the kernel serves: as long as no interrupt is ignored. -/
theorem Wired.Kept.serves (h : w.Kept addr) (hs : w.pics.Serves w.serving) (he : ∀ l, e ≠ .ignored l)
    (hst : WiredStep addr w e w') : w'.pics.Serves w'.serving := by
  have hended : (w.pics.outportbs (eoiBytes w.machine.currentIrq)).Serves none := by
    apply eoi_frees hs
    intro l hl
    obtain ⟨irq, hirq, hn, -⟩ := h.inside l hl
    exact ⟨irq, hirq, hn⟩
  cases hst with
  | raise hl hp => exact raise_serves hs _
  | merge hp => exact raise_serves hs _
  | code m hirq hif => exact hs
  | register hc => exact hs
  | accept hif hack hgate hstub henter =>
    rw [h.idle hif] at hs
    exact (h.ready.acknowledge_first hs hack).1
  | ignore hif hack hgate hstub => exact absurd rfl (he _)
  | soft hserving hsoft henter => exact hs
  | leave hleave => exact hended
  | schedules hswitch => exact hended
  | hub hserving hhub => exact hs

theorem remapped_kept (addr : Handler → BitVec 32) (idt : Idt) (m : Machine) (p : Pics) :
    (remapped addr idt m p).Kept addr := by
  refine ⟨(remap_ready p).1, fun v => ?_, fun l hl => by cases hl⟩
  have henter := @irqSets_enter addr (idtInit addr idt) exceptionsInit v
  cases hfind : exceptionsInit.reverse.find? fun c => c.1.truncate 8 = v with
  | some c =>
    rw [hfind] at henter
    have hc : c ∈ exceptionsInit := List.mem_reverse.mp (List.mem_of_find?_eq_some hfind)
    have hv : c.1.truncate 8 = v := by simpa using List.find?_some hfind
    refine ⟨c.2, .inl ?_, henter⟩
    rw [← hv, bootIrqs_handler (by simp [bootIrqs, hc])]
  | none =>
    rw [hfind] at henter
    refine ⟨_, ?_, henter.trans (idtInit_enter idt v)⟩
    split_ifs with hv
    · exact .inl (by rw [hv]; rfl)
    · exact .inr rfl

end Invariant

section Runs

variable {addr : Handler → BitVec 32} {idt : Idt} {m : Machine} {p : Pics} {w : Wired}
  {es : List WiredEvent} {e : WiredEvent} {w' : Wired}

/-- The requests of a line are all accounted for: served, in service, ignored, or pending. -/
def Accounted (es : List WiredEvent) (w : Wired) : Prop :=
  ∀ l, es.count (.raised l) = es.count (.ended (some l)) + (if w.serving = some l then 1 else 0) +
      es.count (.ignored l) + (w.pics.pending l).toNat ∧
    es.count (.entered l) = es.count (.ended (some l)) + if w.serving = some l then 1 else 0

theorem Accounted.ended (ha : Accounted es w) (h : w.Kept addr) (m : Machine) :
    Accounted (es ++ [.ended w.serving])
      { w with machine := m, pics := w.pics.outportbs (eoiBytes w.machine.currentIrq), serving := none } := by
  intro k
  obtain ⟨hraised, hentered⟩ := ha k
  simp only [List.count_append, List.count_singleton, (eoi_kept _ h.ready).2]
  by_cases hk : w.serving = some k
  · simp [hk] at hraised hentered ⊢
    omega
  · simp [hk] at hraised hentered ⊢
    omega

theorem Accounted.snoc (ha : Accounted es w) (h : w.Kept addr) (hst : WiredStep addr w e w') :
    Accounted (es ++ [e]) w' := by
  intro k
  obtain ⟨hraised, hentered⟩ := ha k
  simp only [List.count_append, List.count_singleton]
  cases hst with
  | @raise l hl hp =>
    have hpending := (raise_kept h.ready hl).2
    by_cases hkl : k = l
    · subst hkl
      simp [hpending, hp] at hraised ⊢
      omega
    · have hlk : l ≠ k := fun he => hkl he.symm
      simp [hpending, hkl, hlk]
      omega
  | @merge l hp =>
    have hpending := (raise_kept h.ready (h.ready.ne_cascade hp)).2
    rw [update_pending hp] at hpending
    simp [hpending]
    omega
  | code m hirq hif =>
    simp
    omega
  | register hc =>
    simp
    omega
  | @accept l v pics stub sel dpl irq m hif hack hgate hstub henter =>
    obtain ⟨-, -, -, hpending, hl⟩ := h.ready.acknowledge_some hack
    rw [h.idle hif] at hraised hentered
    by_cases hkl : k = l
    · subst hkl
      simp [hpending, hl] at hraised hentered ⊢
      omega
    · have hlk : l ≠ k := fun he => hkl he.symm
      simp [hpending, hkl, hlk] at hraised hentered ⊢
      omega
  | @ignore l v pics stub sel dpl hif hack hgate hstub =>
    obtain ⟨-, -, -, hpending, hl⟩ := h.ready.acknowledge_some hack
    by_cases hkl : k = l
    · subst hkl
      simp [hpending, hl] at hraised hentered ⊢
      omega
    · have hlk : l ≠ k := fun he => hkl he.symm
      simp [hpending, hkl, hlk] at hraised hentered ⊢
      omega
  | soft hserving hsoft henter =>
    simp
    omega
  | leave hleave => simpa only [List.count_append, List.count_singleton] using ha.ended h _ k
  | schedules hswitch => simpa only [List.count_append, List.count_singleton] using ha.ended h _ k
  | hub hserving hhub =>
    simp
    omega

theorem kept_run (hinj : Function.Injective addr) (h : Run (WiredStep addr) (remapped addr idt m p) es w) :
    w.Kept addr :=
  h.invariant (Wired.Kept addr) (fun _ _ _ hs hst => hs.step hinj hst) (remapped_kept addr idt m p)

theorem accounted_run (hinj : Function.Injective addr)
    (h : Run (WiredStep addr) (remapped addr idt m p) es w) : Accounted es w := by
  have hstart : Accounted [] (remapped addr idt m p) := by
    intro l
    simp [remapped, (remap_ready p).2.2 l]
  have hrun := h.historyInvariant (fun es w => w.Kept addr ∧ Accounted es w)
    (fun es s e t hs hst => ⟨hs.1.step hinj hst, hs.2.snoc hs.1 hst⟩) []
    ⟨remapped_kept addr idt m p, hstart⟩
  rw [List.nil_append] at hrun
  exact hrun.2

theorem serves_run (hinj : Function.Injective addr)
    (h : Run (WiredStep addr) (remapped addr idt m p) es w) (hno : ∀ l, .ignored l ∉ es) :
    w.pics.Serves w.serving := by
  have hrun := h.historyInvariant
    (fun es w => w.Kept addr ∧ ((∀ l, .ignored l ∉ es) → w.pics.Serves w.serving))
    (fun es s e t hs hst => ⟨hs.1.step hinj hst, fun hno => by
      refine hs.1.serves (hs.2 fun l hl => hno l (by simp [hl])) (fun l he => hno l (by simp [he])) hst⟩) []
    ⟨remapped_kept addr idt m p, fun _ => (remap_ready p).2.1⟩
  rw [List.nil_append] at hrun
  exact hrun.2 hno

/-- Once its handler is registered, a line is not ignored. -/
theorem registered_run {c : BitVec 32 × Handler} (hreg : .registered c ∈ es)
    (h : Run (WiredStep addr) (remapped addr idt m p) es w) :
    c ∈ bootIrqs ∧ (w.idt (c.1.truncate 8)).enter = some (addr c.2, 8, 3) := by
  have hrun := h.historyInvariant (fun es w => .registered c ∈ es →
      c ∈ bootIrqs ∧ (w.idt (c.1.truncate 8)).enter = some (addr c.2, 8, 3)) ?_ [] (by simp)
  · rw [List.nil_append] at hrun
    exact hrun hreg
  intro es s e t ih hst hmem
  rw [List.mem_append, List.mem_singleton] at hmem
  cases hst with
  | @register d hd =>
    refine ⟨?_, ?_⟩
    · rcases hmem with hmem | hmem
      · exact (ih hmem).1
      · cases hmem
        exact hd
    · rw [irqSet_enter]
      split_ifs with hkey
      · have hc : c ∈ bootIrqs := by
          rcases hmem with hmem | hmem
          · exact (ih hmem).1
          · cases hmem
            exact hd
        rw [← bootIrqs_handler hd, ← bootIrqs_handler hc, hkey]
      · rcases hmem with hmem | hmem
        · exact (ih hmem).2
        · cases hmem
          exact absurd rfl hkey
  | _ =>
    rcases hmem with hmem | hmem
    · exact ih hmem
    · cases hmem

/-- An ignored line was pending and stays in service. -/
theorem Wired.Kept.ignored {l : Line} (h : w.Kept addr) (hst : WiredStep addr w (.ignored l) w') :
    l ≠ .master 2 ∧ w'.pics.master.isr l.input = true ∧
      ∃ sel dpl, (w.idt (l.vector 0x20 0x28)).enter = some (addr .idtNoopIrq, sel, dpl) := by
  cases hst with
  | ignore hif hack hgate hstub =>
    obtain ⟨rfl, hl, -⟩ := h.ready.acknowledge_some hack
    subst hstub
    refine ⟨hl, ?_, _, _, hgate⟩
    rw [h.ready.acknowledge_isr hack]
    exact Function.update_self ..

/-- A handler can be left. -/
theorem Wired.Kept.leave {l : Line} (h : w.Kept addr) (hl : w.serving = some l) :
    ∃ w', WiredStep addr w (.ended (some l)) w' := by
  obtain ⟨irq, -, hirq, -⟩ := h.inside l hl
  have heoi : w.machine.sendEoi = .ok () := if_neg (by rw [hirq]; exact number_ne irq)
  have hleave : ∃ m, w.machine.stubLeave = .ok m := by
    rw [Machine.stubLeave, heoi]
    exact ⟨_, rfl⟩
  obtain ⟨m, hm⟩ := hleave
  rw [← hl]
  exact ⟨_, .leave hm⟩

/-- The gates of the lines lead to stubs or to `idt_noop_irq`. -/
theorem line_gate (l : Line) : (∃ irq, bootHandler (l.vector 0x20 0x28) = .stub irq) ∨
    bootHandler (l.vector 0x20 0x28) = .idtNoopIrq := by
  have hmaster : ∀ k : Fin 8, ((bootHandler ((Line.master k).vector 0x20 0x28) = .stub .timer ∨
      bootHandler ((Line.master k).vector 0x20 0x28) = .stub .keyboard) ∨
      bootHandler ((Line.master k).vector 0x20 0x28) = .idtNoopIrq) := by decide
  have hslave : ∀ k : Fin 8, ((bootHandler ((Line.slave k).vector 0x20 0x28) = .stub .ide ∨
      bootHandler ((Line.slave k).vector 0x20 0x28) = .stub .schedule) ∨
      bootHandler ((Line.slave k).vector 0x20 0x28) = .idtNoopIrq) := by decide
  cases l with
  | master k => exact (hmaster k).imp_left fun h => h.elim (fun h => ⟨_, h⟩) fun h => ⟨_, h⟩
  | slave k => exact (hslave k).imp_left fun h => h.elim (fun h => ⟨_, h⟩) fun h => ⟨_, h⟩

/-- A pending line reaches the processor as soon as it takes interrupts. -/
theorem Wired.Kept.take {l : Line} (h : w.Kept addr) (hs : w.pics.Serves w.serving)
    (hidle : w.serving = none) (hif : w.machine.interruptible = true) (hl : w.pics.pending l = true) :
    ∃ k w', WiredStep addr w (.entered k) w' ∨ WiredStep addr w (.ignored k) w' := by
  rw [hidle] at hs
  cases hack : w.pics.acknowledge with
  | none =>
    have hnone := (h.ready.acknowledge_none hs).mp hack l
    rw [hl] at hnone
    cases hnone
  | some r =>
    obtain ⟨k, v, pics⟩ := r
    obtain ⟨rfl, -⟩ := h.ready.acknowledge_some hack
    obtain ⟨f, hf, hgate⟩ := h.gates (k.vector 0x20 0x28)
    have hkind : (∃ irq, f = .stub irq) ∨ f = .idtNoopIrq := by
      rcases hf with rfl | rfl
      · exact line_gate k
      · exact .inr rfl
    rcases hkind with ⟨irq, rfl⟩ | rfl
    · obtain ⟨m, hm, -⟩ := enter_spec w.machine (addr (.stub irq)) irq.number
      exact ⟨k, _, .inl (.accept hif hack hgate rfl hm)⟩
    · exact ⟨k, _, .inr (.ignore hif hack hgate rfl)⟩

end Runs

section Main

variable {addr : Handler → BitVec 32} {idt : Idt} {m : Machine} {p : Pics} {w : Wired}
  {es : List WiredEvent}

/-- Every request of a line is served exactly once, is being served, is pending, or has reached
`idt_noop_irq`, which it does not once the handler of its gate is registered. A handler that runs can be
left, and as long as no interrupt reaches `idt_noop_irq`, a pending line reaches the processor as soon as it
takes interrupts. -/
theorem lines_exact (hinj : Function.Injective addr)
    (h : Run (WiredStep addr) (remapped addr idt m p) es w) :
    (∀ l, es.count (.raised l) = es.count (.ended (some l)) + (if w.serving = some l then 1 else 0) +
        es.count (.ignored l) + (w.pics.pending l).toNat ∧
      es.count (.entered l) = es.count (.ended (some l)) + if w.serving = some l then 1 else 0) ∧
    (∀ es₁ l es₂ c, es = es₁ ++ .ignored l :: es₂ → .registered c ∈ es₁ →
      c.1.truncate 8 ≠ l.vector 0x20 0x28) ∧
    (∀ l, w.serving = some l → ∃ w', WiredStep addr w (.ended (some l)) w') ∧
    ((∀ l, .ignored l ∉ es) → w.serving = none → w.machine.interruptible = true →
      ∀ l, w.pics.pending l = true →
        ∃ k w', WiredStep addr w (.entered k) w' ∨ WiredStep addr w (.ignored k) w') := by
  have hkept := kept_run hinj h
  refine ⟨accounted_run hinj h, ?_, fun l hl => hkept.leave hl, ?_⟩
  · rintro es₁ l es₂ c rfl hreg hkey
    obtain ⟨s, h₁, h₂⟩ := h.split
    cases h₂ with
    | cons hst hrest =>
      obtain ⟨-, -, sel, dpl, hgate⟩ := (kept_run hinj h₁).ignored hst
      obtain ⟨hc, hset⟩ := registered_run hreg h₁
      rw [hkey, hgate] at hset
      simp only [Option.some.injEq, Prod.mk.injEq] at hset
      have hnoop : ∀ c ∈ bootIrqs, c.2 ≠ .idtNoopIrq := by decide
      exact hnoop c hc (hinj hset.1).symm
  · intro hno hidle hif l hl
    exact hkept.take (serves_run hinj h hno) hidle hif hl

end Main

section Keyboard

/-- A stub is registered, and its line is raised and served. -/
def lineEvents (c : BitVec 32 × Handler) (l : Line) : List WiredEvent :=
  [.registered c, .raised l, .ran, .entered l]

/-- A key is pressed: the keyboard's stub is entered. -/
theorem keyboard_run (idt : Idt) (p : Pics) : ∃ w, w.serving = some (.master 1) ∧
    Run (WiredStep someAddr) (remapped someAddr idt bootSystem.machine p)
      (lineEvents (33, .stub .keyboard) (.master 1)) w := by
  let w₀ := remapped someAddr idt bootSystem.machine p
  let w₁ : Wired := { w₀ with idt := irqSet w₀.idt 33 (someAddr (.stub .keyboard)) }
  let w₂ : Wired := { w₁ with pics := (p.outportbs irqRemap).raise (.master 1) }
  let m₀ : Machine := { bootSystem.machine with cpu := { bootSystem.machine.cpu with eflags := 0x202 } }
  have hregister : WiredStep someAddr w₀ (.registered (33, .stub .keyboard)) w₁ :=
    .register (by decide)
  have hraise : WiredStep someAddr w₁ (.raised (.master 1)) w₂ :=
    .raise (by decide) ((remap_ready p).2.2 _)
  have hran : WiredStep someAddr w₂ .ran { w₂ with machine := m₀ } := .code m₀ rfl fun h => absurd rfl h
  obtain ⟨m, hm, -⟩ := enter_spec m₀ (someAddr (.stub .keyboard)) 33
  have hif : m₀.interruptible = true := (by decide : (0x202#32).getLsbD 9 = true)
  have hgate := @irqSet_enter someAddr w₀.idt (33, .stub .keyboard) 0x21
  rw [if_pos (by decide)] at hgate
  have hack : w₂.pics.acknowledge = some (.master 1, 0x21,
      { w₂.pics with master := w₂.pics.master.accept 1 }) := rfl
  have haccept : WiredStep someAddr { w₂ with machine := m₀ } (.entered (.master 1)) _ :=
    .accept hif hack hgate rfl hm
  exact ⟨_, rfl, .cons hregister (.cons hraise (.cons hran (.single haccept)))⟩

theorem lines_exact_keyboard : ∃ (p : Pics) (w w' : Wired) (idt : Idt),
    Run (WiredStep someAddr) (remapped someAddr idt bootSystem.machine p)
      (lineEvents (33, .stub .keyboard) (.master 1)) w ∧
    WiredStep someAddr w (.ended (some (.master 1))) w' := by
  let pic : Pic := ⟨fun _ => true, fun _ => true, fun _ => false, 8, 0, false, false, .mask⟩
  obtain ⟨w, hw, hrun⟩ := keyboard_run (fun _ => ⟨0, 0, 0, 0, 0⟩) ⟨pic, pic⟩
  obtain ⟨w', hleave⟩ := (lines_exact someAddr_injective hrun).2.2.1 _ hw
  exact ⟨_, w, w', _, hrun, hleave⟩

end Keyboard

end Levos.Arch
