import Levos.Framework.Fault
import Levos.Framework.Stack
import Mathlib.Logic.Function.Basic

namespace Levos.Arch

open Levos.Framework

/-- The registers that make up the state of a thread. -/
structure Regs where
  edi : BitVec 32
  esi : BitVec 32
  ebp : BitVec 32
  esp : BitVec 32
  ebx : BitVec 32
  edx : BitVec 32
  ecx : BitVec 32
  eax : BitVec 32
  eip : BitVec 32
  cs : BitVec 32
  eflags : BitVec 32
  cr3 : BitVec 32
  deriving DecidableEq

/-- `struct pt_regs`, in the order of its fields. -/
structure PtRegs where
  magic : BitVec 32
  cr3 : BitVec 32
  edi : BitVec 32
  esi : BitVec 32
  ebp : BitVec 32
  esp : BitVec 32
  ebx : BitVec 32
  edx : BitVec 32
  ecx : BitVec 32
  eax : BitVec 32
  eip : BitVec 32
  cs : BitVec 32
  eflags : BitVec 32
  deriving DecidableEq

/-- The 52 bytes of a packed `struct pt_regs` at `a`. -/
def PtRegs.read (m : AddressSpace) (a : BitVec 32) : PtRegs where
  magic := m.load a
  cr3 := m.load (a + 4)
  edi := m.load (a + 8)
  esi := m.load (a + 12)
  ebp := m.load (a + 16)
  esp := m.load (a + 20)
  ebx := m.load (a + 24)
  edx := m.load (a + 28)
  ecx := m.load (a + 32)
  eax := m.load (a + 36)
  eip := m.load (a + 40)
  cs := m.load (a + 44)
  eflags := m.load (a + 48)

/-- The processor, the memory and the variables of the kernel that interrupts use. All page
directories share their tables with `kernel_dir`, so there is one memory behind every `cr3`. -/
structure Machine where
  cpu : Regs
  mem : AddressSpace
  prePushalEsp : BitVec 32
  preIrqEsp : BitVec 32
  preIrqRegs : PtRegs
  currentIrq : BitVec 8
  current : Option Nat
  /-- The field `r` of each `struct thread`. -/
  thread : Nat → PtRegs

namespace Machine

def pushes (m : Machine) (ws : List (BitVec 32)) : Machine :=
  let s := ws.foldl AddressSpace.push (m.cpu.esp, m.mem)
  { m with cpu := { m.cpu with esp := s.1 }, mem := s.2 }

def push (m : Machine) (w : BitVec 32) : Machine := m.pushes [w]

def pop (m : Machine) : BitVec 32 × Machine :=
  (m.mem.load m.cpu.esp, { m with cpu := { m.cpu with esp := m.cpu.esp + 4 } })

def pushal (m : Machine) : Machine :=
  m.pushes [m.cpu.eax, m.cpu.ecx, m.cpu.edx, m.cpu.ebx, m.cpu.esp, m.cpu.ebp, m.cpu.esi, m.cpu.edi]

/-- The word that `pushal` saved for `esp` is skipped. -/
def popal (m : Machine) : Machine :=
  let (edi, m) := m.pop
  let (esi, m) := m.pop
  let (ebp, m) := m.pop
  let (_, m) := m.pop
  let (ebx, m) := m.pop
  let (edx, m) := m.pop
  let (ecx, m) := m.pop
  let (eax, m) := m.pop
  { m with cpu := { m.cpu with
      edi := edi, esi := esi, ebp := ebp, ebx := ebx, edx := edx, ecx := ecx, eax := eax } }

/-- `iretl` without a change of privilege. -/
def iretl (m : Machine) : Machine :=
  let (eip, m) := m.pop
  let (cs, m) := m.pop
  let (eflags, m) := m.pop
  { m with cpu := { m.cpu with eip := eip, cs := cs, eflags := eflags } }

/-- The processor enters a gate of type `0x8E`, which clears `IF` and `TF`. -/
def interrupt (m : Machine) (stub : BitVec 32) : Machine :=
  let m := m.pushes [m.cpu.eflags, m.cpu.cs, m.cpu.eip]
  { m with cpu := { m.cpu with eflags := m.cpu.eflags &&& ~~~0x300#32, cs := 8, eip := stub } }

def savePreIrqRegs (m : Machine) : Except Fault Machine :=
  let regs := { PtRegs.read m.mem m.preIrqEsp with esp := m.prePushalEsp + 12 }
  let m := { m with preIrqRegs := regs }
  if regs.magic ≠ 0x13371337 then .error (.panic "Wrong IRQ register magic! Stack corrupted!\n")
  else
    match m.current with
    | some t => .ok { m with thread := Function.update m.thread t regs }
    | none => .ok m

/-- `DEF_IRQ_HANDLER`, up to the call of the handler. -/
def stubEnter (m : Machine) (n : BitVec 8) : Except Fault Machine := do
  let m := { m with prePushalEsp := m.cpu.esp }
  let m := m.pushal
  let m := { m with cpu := { m.cpu with eax := m.cpu.cr3 } }
  let m := m.push m.cpu.eax
  let m := m.push 0x13371337
  let m := { m with preIrqEsp := m.cpu.esp }
  let m ← m.savePreIrqRegs
  return { m with currentIrq := n }

/-- `send_eoi`, without the ports. -/
def sendEoi (m : Machine) : Except Fault Unit :=
  if m.currentIrq = 0xFF then .error (.panic "Invalid IRQ context!\n") else .ok ()

/-- `DEF_IRQ_HANDLER`, from where the handler has returned. -/
def stubLeave (m : Machine) : Except Fault Machine := do
  m.sendEoi
  let (eax, m) := m.pop
  let m := { m with cpu := { m.cpu with eax := eax } }
  let (eax, m) := m.pop
  let m := { m with cpu := { m.cpu with eax := eax } }
  return m.popal.iretl

def archSchedSetupStack (m : Machine) (t : Nat) : Machine :=
  let r := m.thread t
  let s := [r.eflags, r.cs, r.eip].foldl AddressSpace.push (r.esp, m.mem)
  let tmp := s.1
  let s := [r.eax, r.ecx, r.edx, r.ebx, tmp, r.ebp, r.esi, r.edi].foldl AddressSpace.push s
  { m with mem := s.2, thread := Function.update m.thread t { r with esp := s.1 } }

/-- `arch_sched_setup_address_space`: `switch_page_dir` to the directory of the process. -/
def archSchedSetupAddressSpace (m : Machine) (dir : BitVec 32) : Machine :=
  { m with cpu := { m.cpu with cr3 := dir } }

/-- `ARCH_SWITCH_CONTEXT`. -/
def archSwitchContext (m : Machine) : Except Fault Machine :=
  match m.current with
  | none => .error .nullPointer
  | some t =>
    let r := m.thread t
    let m := { m with cpu := { m.cpu with eax := r.esp, ebx := r.cr3 } }
    let m := { m with cpu := { m.cpu with esp := m.cpu.eax } }
    let m := { m with cpu := { m.cpu with cr3 := m.cpu.ebx } }
    .ok m.popal.iretl

/-- A handler that returns: it may use all registers but `esp` and `cr3`. -/
def handlerReturns (m : Machine) (scratch : Regs) (mem : AddressSpace) : Machine :=
  { m with cpu := { scratch with esp := m.cpu.esp, cr3 := m.cpu.cr3 }, mem := mem }

/-- The end of `sched_schedule`, once `next` is selected: `mem` is the memory before, `frames` the
memory after the calls that follow `arch_sched_setup_stack`. -/
def schedSwitch (m : Machine) (next : Nat) (dir : BitVec 32) (scratch : Regs)
    (mem frames : AddressSpace) : Except Fault Machine := do
  let m := { m with cpu := scratch, mem := mem, current := some next }
  let m := m.archSchedSetupStack next
  let m := m.archSchedSetupAddressSpace dir
  m.sendEoi
  archSwitchContext { m with mem := frames }

/-- `syscall_hub`, with the function it calls. -/
def syscallHub (m : Machine) (f : PtRegs → BitVec 32) (scratch : Regs) (mem : AddressSpace) :
    Except Fault Machine :=
  match m.current with
  | none => .error .nullPointer
  | some t =>
    let r := m.thread t
    let r := { r with eax := f r }
    let m := { m with cpu := scratch, mem := mem, thread := Function.update m.thread t r }
    archSwitchContext (m.archSchedSetupStack t)

end Machine

/-- What `sched_mk_process` puts into a new thread: `arch_sched_mk_initial_regs`, the entry and the
stack page. -/
def initialRegs (entry page cr3 : BitVec 32) : PtRegs where
  magic := 0
  cr3 := cr3
  edi := 0
  esi := 0
  ebp := page + 4096
  esp := page + 4096
  ebx := 0
  edx := 0
  ecx := 0
  eax := 0
  eip := entry
  cs := 0x8
  eflags := 0x202

/-- The registers that `struct pt_regs` stands for. -/
def PtRegs.regs (r : PtRegs) : Regs where
  edi := r.edi
  esi := r.esi
  ebp := r.ebp
  esp := r.esp
  ebx := r.ebx
  edx := r.edx
  ecx := r.ecx
  eax := r.eax
  eip := r.eip
  cs := r.cs
  eflags := r.eflags
  cr3 := r.cr3

section Specs

open AddressSpace

variable {m m' : Machine}

/-- The words that `popal` and `iretl` take from the stack. -/
def frameWords (r : Regs) (tmp : BitVec 32) : List (BitVec 32) :=
  [r.edi, r.esi, r.ebp, tmp, r.ebx, r.edx, r.ecx, r.eax, r.eip, r.cs, r.eflags]

/-- What `popal` and `iretl` do with a frame. -/
theorem popal_iretl {r : Regs} {tmp : BitVec 32} (h : Holds m.mem m.cpu.esp (frameWords r tmp)) :
    m.popal.iretl = { m with cpu := { r with esp := m.cpu.esp + 44, cr3 := m.cpu.cr3 } } := by
  simp only [frameWords, Holds] at h
  obtain ⟨h1, h2, h3, -, h5, h6, h7, h8, h9, h10, h11, -⟩ := h
  simp only [Machine.popal, Machine.iretl, Machine.pop, h1, h2, h3, h5, h6, h7, h8, h9, h10, h11]
  simp only [BitVec.ofNat_eq_ofNat, BitVec.add_assoc, BitVec.reduceAdd]

/-- The saved frame: what the processor and the stub push, from `esp` downwards. -/
def savedFrame (r : Regs) : List (BitVec 32) :=
  0x13371337 :: r.cr3 :: frameWords r (r.esp - 12)

def savedRegs (r : Regs) : PtRegs where
  magic := 0x13371337
  cr3 := r.cr3
  edi := r.edi
  esi := r.esi
  ebp := r.ebp
  esp := r.esp
  ebx := r.ebx
  edx := r.edx
  ecx := r.ecx
  eax := r.eax
  eip := r.eip
  cs := r.cs
  eflags := r.eflags

@[simp] theorem savedRegs_regs (r : Regs) : (savedRegs r).regs = r := rfl

/-- `struct pt_regs` has its fields in the order in which the stub has pushed them. -/
theorem read_savedFrame {mem : AddressSpace} {a : BitVec 32} {r : Regs}
    (h : Holds mem a (savedFrame r)) : { PtRegs.read mem a with esp := r.esp } = savedRegs r := by
  simp only [savedFrame, frameWords, Holds, BitVec.ofNat_eq_ofNat, BitVec.add_assoc,
    BitVec.reduceAdd] at h
  obtain ⟨h1, h2, h3, h4, h5, -, h7, h8, h9, h10, h11, h12, h13, -⟩ := h
  simp only [PtRegs.read, savedRegs, BitVec.ofNat_eq_ofNat, h1, h2, h3, h4, h5, h7, h8, h9, h10,
    h11, h12, h13]

/-- An interrupt gets as far as its handler: the frame is saved below `esp`, and the registers are
saved in the thread. -/
theorem enter_spec (m : Machine) (stub : BitVec 32) (n : BitVec 8) :
    ∃ m₁, (m.interrupt stub).stubEnter n = .ok m₁ ∧ m₁.cpu.esp = m.cpu.esp - 52 ∧
      m₁.cpu.cr3 = m.cpu.cr3 ∧ m₁.current = m.current ∧ m₁.currentIrq = n ∧
      m₁.thread = m.current.elim m.thread (Function.update m.thread · (savedRegs m.cpu)) ∧
      Holds m₁.mem (m.cpu.esp - 52) (savedFrame m.cpu) ∧
      Only (m.cpu.esp - 52) 52 m.mem m₁.mem := by
  obtain ⟨mem, hpush, hholds, honly⟩ := foldl_push (m.cpu.esp, m.mem)
    [m.cpu.eflags, m.cpu.cs, m.cpu.eip, m.cpu.eax, m.cpu.ecx, m.cpu.edx, m.cpu.ebx,
      m.cpu.esp - 4 - 4 - 4, m.cpu.ebp, m.cpu.esi, m.cpu.edi, m.cpu.cr3, 0x13371337] (n := 52) rfl
    (by decide)
  have hframe : Holds mem (m.cpu.esp - 52) (savedFrame m.cpu) := by
    rw [savedFrame, frameWords, show m.cpu.esp - 12 = m.cpu.esp - 4 - 4 - 4 by bv_omega]
    exact hholds
  let m₀ : Machine := { m with
    cpu := { m.cpu with
      esp := m.cpu.esp - 52, eax := m.cpu.cr3, eip := stub, cs := 8
      eflags := m.cpu.eflags &&& ~~~0x300#32 }
    mem := mem
    prePushalEsp := m.cpu.esp - 4 - 4 - 4
    preIrqEsp := m.cpu.esp - 52 }
  have hstub : (m.interrupt stub).stubEnter n = do
      let m ← m₀.savePreIrqRegs
      return { m with currentIrq := n } := by
    have hfold := congrArg Prod.fst hpush
    have hmem := congrArg Prod.snd hpush
    simp only [List.foldl, AddressSpace.push] at hfold hmem
    rw [hfold] at hmem
    simp only [Machine.interrupt, Machine.stubEnter, Machine.pushal, Machine.push, Machine.pushes,
      List.foldl, AddressSpace.push, hfold, hmem, m₀]
    rfl
  have hread : { PtRegs.read m₀.mem m₀.preIrqEsp with esp := m₀.prePushalEsp + 12 } =
      savedRegs m.cpu := by
    rw [← read_savedFrame hframe, show m₀.prePushalEsp + 12 = m.cpu.esp by simp only [m₀]; bv_omega]
  have hmagic : (PtRegs.read m₀.mem m₀.preIrqEsp).magic = 0x13371337 := congrArg PtRegs.magic hread
  let m₁ : Machine := { m₀ with
    preIrqRegs := savedRegs m.cpu
    thread := m.current.elim m.thread (Function.update m.thread · (savedRegs m.cpu)) }
  have hsave : m₀.savePreIrqRegs = .ok m₁ := by
    simp only [Machine.savePreIrqRegs, hread]
    rw [if_neg (fun h => h hmagic)]
    cases hc : m.current <;> simp [m₁, m₀, hc]
  exact ⟨{ m₁ with currentIrq := n }, by rw [hstub, hsave]; rfl, rfl, rfl, rfl, rfl, rfl, hframe,
    honly⟩

/-- The registers come back when the handler has left the frame alone. -/
theorem stubLeave_spec {r : Regs} (hirq : m.currentIrq ≠ 0xFF)
    (h : Holds m.mem m.cpu.esp (savedFrame r)) (hesp : m.cpu.esp = r.esp - 52)
    (hcr3 : m.cpu.cr3 = r.cr3) : m.stubLeave = .ok { m with cpu := r } := by
  obtain ⟨-, -, h⟩ := h
  have heoi : m.sendEoi = .ok () := if_neg hirq
  have hframe := popal_iretl (m := { m with cpu := { m.cpu with
    eax := m.mem.load (m.cpu.esp + 4), esp := m.cpu.esp + 4 + 4 } }) h
  have hback : r.esp - 52 + 4 + 4 + 44 = r.esp := by bv_omega
  simp only [Machine.stubLeave, heoi, ok_bind, Machine.pop]
  rw [hframe]
  simp only [hesp, hback, hcr3]
  rfl

/-- `arch_sched_setup_stack` rebuilds the frame below the saved `esp`. -/
theorem archSchedSetupStack_spec {t : Nat} {r : PtRegs} (hr : m.thread t = r) :
    ∃ mem, m.archSchedSetupStack t = { m with
        mem := mem, thread := Function.update m.thread t { r with esp := r.esp - 44 } } ∧
      Holds mem (r.esp - 44) (frameWords r.regs (r.esp - 4 - 4 - 4)) ∧
      Only (r.esp - 44) 44 m.mem mem := by
  obtain ⟨mem, hpush, hholds, honly⟩ := foldl_push (r.esp, m.mem)
    [r.eflags, r.cs, r.eip, r.eax, r.ecx, r.edx, r.ebx, r.esp - 4 - 4 - 4, r.ebp, r.esi, r.edi]
    (n := 44) rfl (by decide)
  refine ⟨mem, ?_, by rw [frameWords]; exact hholds, honly⟩
  have hesp := congrArg Prod.fst hpush
  have hmem := congrArg Prod.snd hpush
  simp only [List.foldl, AddressSpace.push] at hesp hmem
  rw [hesp] at hmem
  simp only [Machine.archSchedSetupStack, hr, List.foldl, AddressSpace.push, hesp, hmem]
  rfl

/-- `ARCH_SWITCH_CONTEXT` takes over the registers from a rebuilt frame. -/
theorem archSwitchContext_spec {t : Nat} {r : PtRegs} {tmp : BitVec 32} (hcur : m.current = some t)
    (hr : m.thread t = { r with esp := r.esp - 44 })
    (h : Holds m.mem (r.esp - 44) (frameWords r.regs tmp)) :
    m.archSwitchContext = .ok { m with cpu := r.regs } := by
  have hframe := popal_iretl (m := { m with cpu := { m.cpu with
    eax := r.esp - 44, ebx := r.cr3, esp := r.esp - 44, cr3 := r.cr3 } }) h
  have hback : r.esp - 44 + 44 = r.esp := by bv_omega
  simp only [Machine.archSwitchContext, hcur, hr] at hframe ⊢
  rw [hframe]
  simp only [hback]
  rfl

/-- The selected thread goes on where it was, when the frame that was rebuilt for it is left
alone. -/
theorem schedSwitch_spec {next : Nat} {r : PtRegs} {dir : BitVec 32} {scratch : Regs}
    {mem frames : AddressSpace} (hirq : m.currentIrq ≠ 0xFF) (hr : m.thread next = r)
    (hframes : ∀ x, (x - (r.esp - 44)).toNat < 44 →
      frames x = ({ m with mem := mem }.archSchedSetupStack next).mem x) :
    m.schedSwitch next dir scratch mem frames = .ok { m with
      cpu := r.regs, mem := frames, current := some next
      thread := Function.update m.thread next { r with esp := r.esp - 44 } } := by
  obtain ⟨mem', hsetup, hholds, -⟩ :=
    archSchedSetupStack_spec (m := { m with cpu := scratch, mem := mem, current := some next }) hr
  have hmem : ({ m with mem := mem }.archSchedSetupStack next).mem = mem' :=
    congrArg Machine.mem hsetup
  rw [hmem] at hframes
  have hframe : Holds frames (r.esp - 44) (frameWords r.regs (r.esp - 4 - 4 - 4)) :=
    hholds.congr fun x hx => hframes x (Nat.lt_of_lt_of_eq hx rfl)
  have heoi (cpu : Regs) (mem : AddressSpace) (current : Option Nat) (thread : Nat → PtRegs) :
      { m with cpu := cpu, mem := mem, current := current, thread := thread }.sendEoi = .ok () :=
    if_neg hirq
  simp only [Machine.schedSwitch, hsetup, Machine.archSchedSetupAddressSpace]
  rw [heoi, ok_bind]
  have hself : Function.update m.thread next { r with esp := r.esp - 44 } next =
      { r with esp := r.esp - 44 } := Function.update_self ..
  exact archSwitchContext_spec (t := next) (r := r) (m := { m with
    cpu := { scratch with cr3 := dir }, mem := frames, current := some next
    thread := Function.update m.thread next { r with esp := r.esp - 44 } }) rfl hself hframe

/-- A system call goes on behind its `int`, with the result in `eax`. -/
theorem syscallHub_spec {t : Nat} {r : PtRegs} (f : PtRegs → BitVec 32) (scratch : Regs)
    (mem : AddressSpace) (hcur : m.current = some t) (hr : m.thread t = r) :
    ∃ mem' thread, m.syscallHub f scratch mem = .ok { m with
        cpu := { r.regs with eax := f r }, mem := mem', thread := thread } ∧
      ∀ u, u ≠ t → thread u = m.thread u := by
  obtain ⟨r', hr'⟩ : ∃ r' : PtRegs, { r with eax := f r } = r' := ⟨_, rfl⟩
  have hregs : { r.regs with eax := f r } = r'.regs := by rw [← hr']; rfl
  have hself (v : PtRegs) (g : Nat → PtRegs) : Function.update g t v t = v :=
    Function.update_self ..
  obtain ⟨mem', hsetup, hholds, -⟩ := archSchedSetupStack_spec (t := t) (r := r')
    (m := { m with cpu := scratch, mem := mem, thread := Function.update m.thread t r' })
    (hself r' m.thread)
  let thread := Function.update (Function.update m.thread t r') t { r' with esp := r'.esp - 44 }
  refine ⟨mem', thread, ?_, fun u hu => ?_⟩
  · simp only [Machine.syscallHub, hcur, hr, hr'] at hsetup ⊢
    rw [hsetup, hregs]
    exact archSwitchContext_spec (t := t) (r := r') (m := { m with
      cpu := scratch, mem := mem', current := some t, thread := thread }) rfl (hself _ _) hholds
  · simp only [thread]
    rw [Function.update_of_ne hu, Function.update_of_ne hu]

end Specs

end Levos.Arch
