import Levos.Framework.Run
import Levos.Framework.Task
import Levos.Kernel.Elf
import Levos.Kernel.FileSystem
import Levos.Lib.Strcmp

namespace Levos.Kernel.Shell

open Levos.Framework Levos.Lib Levos.Arch

/-- An argument of `_printk`. -/
inductive PrintArg
  | int (n : BitVec 32)
  | text (s : String)
  | string (s : CString)
  | pointer (s : BitVec 32)

/-- What `cmd_ps` prints of a thread. -/
structure ThreadLine where
  comm : CString
  pid : BitVec 32
  isCurrent : Bool

/-- What `cmd_lsdev` prints of a device. -/
structure DeviceLine where
  name : CString
  type : BitVec 32

/-- The code that the commands go on in, besides the system calls. No answer means that it does not
come back. `st` and `header` are where the variables of these names stand on the stack. -/
structure ShellBackend (σ : Type) extends Backend σ where
  printk : String → List PrintArg → σ → Option σ
  kmalloc : BitVec 32 → σ → Option (BitVec 32 × σ)
  st : BitVec 32
  header : BitVec 32
  statAt : BitVec 32 → σ → Ext2.Stat
  headerAt : BitVec 32 → σ → ElfHeader
  elfProbe : Ext2.File → σ → Option (Int × Ext2.File × σ)
  elfLoad : Ext2.File → σ → Option (Int × Ext2.File × σ)
  threadAt : Nat → σ → Option ThreadLine
  devices : σ → List (Option DeviceLine)
  schedMkProcess : String → σ → Option (BitVec 32 × σ)
  schedAddProcess : BitVec 32 → σ → Option (Int × σ)

variable {σ α : Type}

/-- A command of the shell, on the process that it runs in and the rest of the kernel. -/
abbrev Command (σ α : Type) := Task (Process × σ) α

/-- What runs outside the process's table. -/
def outside (f : σ → Option (α × σ)) : Command σ α := fun t =>
  .ok ((f t.2).map fun r => (r.1, t.1, r.2))

def look (f : σ → α) : Command σ α := outside fun s => some (f s, s)

/-- `_printk`. -/
def say (b : ShellBackend σ) (fmt : String) (args : List PrintArg) : Command σ Unit :=
  outside fun s => (b.printk fmt args s).map fun s => ((), s)

/-- The registers at `int $0x80`; the system calls look at no others. -/
def callRegs (sys a1 a2 a3 : BitVec 32) : PtRegs where
  magic := 0
  cr3 := 0
  edi := 0
  esi := 0
  ebp := 0
  esp := 0
  ebx := a1
  edx := a3
  ecx := a2
  eax := sys
  eip := 0
  cs := 0
  eflags := 0

/-- `call_syscall`. -/
def callSyscall (b : ShellBackend σ) (sys a1 a2 a3 : BitVec 32) : Command σ (BitVec 32) := fun t =>
  (syscallHub b.toBackend (callRegs sys a1 a2 a3) t.1 t.2).map fun res =>
    res.map fun r => (r.1.eax, r.2.1, r.2.2)

/-- Work on the file behind `file_table[fd]`. The console has no `read`. -/
def onFile (fd : BitVec 32) (f : Ext2.File → σ → Option (α × Ext2.File × σ)) : Command σ α := fun t =>
  match entry fd with
  | .error e => .error e
  | .ok i =>
    match t.1.fileTable i with
    | .null => .error .nullPointer
    | .code _ => .error .outOfBounds
    | .file .console => .error .nullPointer
    | .file (.ext2 file) => .ok ((f file t.2).map fun r => (r.1, t.1.set i (.file (.ext2 r.2.1)), r.2.2))

/-- The names of the error codes from 1 on. -/
def errnoNames : List String :=
  ["EPERM", "ENOENT", "ESRCH", "EINTR", "EIO", "ENXIO", "E2BIG", "ENOEXEC", "EBADF", "ECHILD", "EAGAIN",
    "ENOMEM", "EACCES", "EFAULT", "ENOTBLK", "EBUSY", "EEXIST", "EXDEV", "ENODEV", "ENOTDIR", "EISDIR",
    "EINVAL", "ENFILE", "EMFILE", "ENOTTY", "ETXTBSY", "EFBIG", "ENOSPC", "ESPIPE", "EROFS", "EMLINK",
    "EPIPE", "EDOM", "ERANGE", "ENOSYS"]

/-- `errno_to_string`. -/
def errnoToString (errno : Int) : String :=
  if errno = 0 then "SUCCESS" else errnoNames.getD (errno.natAbs - 1) "UNKNOWN"

section Commands

variable (b : ShellBackend σ)

/-- The loop of `cmd_ps`, with `n` entries of the queue to go. -/
def psFrom : Nat → Nat → Command σ Unit
  | 0, _ => pure ()
  | n + 1, i => do
    let thread ← look (b.threadAt i)
    match thread with
    | none => psFrom n (i + 1)
    | some p => do
      say b "%s [%d] %s\n" [.string p.comm, .int p.pid, .text (if p.isCurrent then "[current]" else "")]
      psFrom n (i + 1)

def cmdPs : Command σ Unit := do
  say b "NAME [PID] extra\n" []
  psFrom b 32 0

def devTypeText (type : BitVec 32) : String :=
  match type.toNat with
  | 3 => "[tty]"
  | 0 => "[pseudo]"
  | 1 => "[isa]"
  | 2 => "[pci]"
  | 4 => "[blk]"
  | 5 => "[intty]"
  | _ => "[unktype]"

/-- The loop of `cmd_lsdev`. -/
def lsdevFrom : List (Option DeviceLine) → Command σ Unit
  | [] => pure ()
  -- `i --` goes back to the entry that is empty
  | none :: _ => fun _ => .ok none
  | some d :: ds => do
    say b "%s %s\n" [.string d.name, .text (devTypeText d.type)]
    lsdevFrom ds

def cmdLsdev : Command σ Unit := do
  say b "NAME TYPE\n" []
  let devices ← look b.devices
  lsdevFrom b devices

/-- `file->isdir`. -/
def isdirOf : Except Int OpenFile → Except Fault Int
  | .error _ => .error .outOfBounds
  | .ok .console => .ok 0
  | .ok (.ext2 f) => .ok f.isdir

def cmdLs (arg : BitVec 32) : Command σ Unit := do
  let file ← outside (b.vfsOpen arg)
  let isdir ← Task.check (isdirOf file)
  if isdir = 0 then say b "%s" [.text (errnoToString ENOTDIR)]
  else pure ()

def cmdStat (arg : BitVec 32) : Command σ Unit := do
  let ret ← callSyscall b 18 arg b.st 0
  if ret.toInt < 0 then say b "Error while stat: %d\n" [.int ret]
  else
    say b "File: %s\n" [.pointer arg]
    let st ← look (b.statAt b.st)
    say b "Size: %d bytes\n" [.int st.size]

def cmdCat (arg : BitVec 32) : Command σ Unit := do
  let ret ← callSyscall b 18 arg b.st 0
  if ret.toInt < 0 then say b "Error while stat: %d\n" [.int ret]
  else
    let st ← look (b.statAt b.st)
    let buf ← outside (b.kmalloc st.size)
    let fd ← callSyscall b 5 arg 0 0
    if fd.toInt ≤ 0 then say b "open failed\n" []
    else
      let _ ← callSyscall b 3 fd buf st.size
      let _ ← callSyscall b 4 1 buf st.size
      pure ()

def cmdExit : Command σ Unit := do
  let _ ← callSyscall b 1 0 0 0
  pure ()

def cmdTestmt : Command σ Unit := do
  let p1 ← outside (b.schedMkProcess "p1")
  let p2 ← outside (b.schedMkProcess "p2")
  let _ ← outside (b.schedAddProcess p1)
  let _ ← outside (b.schedAddProcess p2)
  pure ()

def cmdElf (arg : BitVec 32) : Command σ Unit := do
  let fd ← callSyscall b 5 arg 0 0
  if fd.toInt ≤ 0 then say b "open failed: %d\n" [.int fd]
  else
    let isElf ← onFile fd b.elfProbe
    say b "file(%d) is %sELF\n" [.int fd, .text (if isElf = 0 then "not " else "")]
    if isElf = 0 then
      let _ ← callSyscall b 6 fd 0 0
      pure ()
    else
      let _ ← onFile fd fun f => b.readFile f b.header (BitVec.ofNat 32 elfHeaderSize)
      let header ← look (b.headerAt b.header)
      say b "ELF Type: %s\n" [.text (elfTypeAsString (header.type.setWidth 8))]
      say b "Entry Point: 0x%x\n" [.int header.entry]
      let ret ← onFile fd b.elfLoad
      say b "ELF RET: %s\n" [.text (errnoToString ret)]

end Commands

inductive ShellCommand
  | ps
  | lsdev
  | ls
  | exit
  | testmt
  | cat
  | stat
  | elf
  deriving DecidableEq

/-- The literals `"ps"`, `"lsdev"`, `"ls "`, `"exit"`, `"testmt"`, `"cat "`, `"stat "` and `"elf "`. -/
def ShellCommand.literal : ShellCommand → CString
  | .ps => ⟨[0x70, 0x73], by decide⟩
  | .lsdev => ⟨[0x6C, 0x73, 0x64, 0x65, 0x76], by decide⟩
  | .ls => ⟨[0x6C, 0x73, 0x20], by decide⟩
  | .exit => ⟨[0x65, 0x78, 0x69, 0x74], by decide⟩
  | .testmt => ⟨[0x74, 0x65, 0x73, 0x74, 0x6D, 0x74], by decide⟩
  | .cat => ⟨[0x63, 0x61, 0x74, 0x20], by decide⟩
  | .stat => ⟨[0x73, 0x74, 0x61, 0x74, 0x20], by decide⟩
  | .elf => ⟨[0x65, 0x6C, 0x66, 0x20], by decide⟩

open ShellCommand in
/-- The comparisons of `parse_input`. -/
def commandOf (cmd : CString) : Except Fault (Option ShellCommand) := do
  if (← strcmp ps.literal cmd) = 0 then return some .ps
  else if (← strcmp lsdev.literal cmd) = 0 then return some .lsdev
  else if (← strncmp ls.literal.at cmd.at 3) = 0 then return some .ls
  else if (← strcmp exit.literal cmd) = 0 then return some .exit
  else if (← strcmp testmt.literal cmd) = 0 then return some .testmt
  else if (← strncmp cat.literal.at cmd.at 4) = 0 then return some .cat
  else if (← strncmp stat.literal.at cmd.at 5) = 0 then return some .stat
  else if (← strncmp elf.literal.at cmd.at 4) = 0 then return some .elf
  else return none

/-- A command with its argument behind the literal, in a line at `cmd`. -/
def ShellCommand.run (b : ShellBackend σ) (cmd : BitVec 32) : ShellCommand → Command σ Unit
  | .ps => cmdPs b
  | .lsdev => cmdLsdev b
  | .ls => cmdLs b (cmd + 3)
  | .exit => cmdExit b
  | .testmt => cmdTestmt b
  | .cat => cmdCat b (cmd + 4)
  | .stat => cmdStat b (cmd + 5)
  | .elf => cmdElf b (cmd + 4)

/-- `parse_input`, of the line that stands at `cmd`. -/
def parseInput (b : ShellBackend σ) (cmd : BitVec 32) (line : CString) : Command σ Unit := do
  let command ← Task.check (commandOf line)
  match command with
  | none => pure ()
  | some command => command.run b cmd

/-- The line calls the command. -/
def ShellCommand.Named (c : ShellCommand) (line : CString) : Prop :=
  match c with
  | .ls | .cat | .stat | .elf => c.literal.bytes <+: line.bytes
  | _ => c.literal = line

/-- A `cat` gives back all its descriptors: there is no such file, or no descriptor is free. -/
def CatKeeps (b : ShellBackend σ) (arg : BitVec 32) (p : Process) (s : σ) : Prop :=
  (∀ n s', b.vfsStat arg b.st s = some (n, s') → (BitVec.ofInt 32 n).toInt < 0) ∨ freeEntry p = none

/-- An `elf` does: the file is not ELF, or no descriptor is free. -/
def ElfKeeps (b : ShellBackend σ) (arg : BitVec 32) (p : Process) (s : σ) : Prop :=
  (∀ f s₁ isElf f' s₂, b.vfsOpen arg s = some (.ok (.ext2 f), s₁) →
    b.elfProbe f s₁ = some (isElf, f', s₂) → isElf = 0) ∨ freeEntry p = none

def LineKeeps (b : ShellBackend σ) (cmd : BitVec 32) (line : CString) (p : Process) (s : σ) : Prop :=
  (ShellCommand.cat.Named line → CatKeeps b (cmd + 4) p s) ∧
    (ShellCommand.elf.Named line → ElfKeeps b (cmd + 4) p s)

/-- A line that was typed, with the rest of the kernel as it is then. -/
structure Typed (σ : Type) where
  line : CString
  kernel : σ

/-- A command that comes back. While the next line is typed the rest of the kernel may change. -/
def ShellStep (b : ShellBackend σ) (cmd : BitVec 32) (p : Process) (e : Typed σ) (p' : Process) : Prop :=
  ∃ s', (parseInput b cmd e.line).Returns (p, e.kernel) () (p', s')

/-- The table is as it was at the start, and no open is refused for want of a descriptor unless it would
have been at the start. -/
structure TableKept (b : ShellBackend σ) (p₀ p : Process) : Prop where
  table : p.fileTable = p₀.fileTable
  room : ∀ path s t', (callSyscall b 5 path 0 0).Returns (p, s) (BitVec.ofInt 32 (-EMFILE)) t' →
    freeEntry p₀ = none

section Dispatch

variable {c d : ShellCommand} {line : CString}

theorem ShellCommand.Named.begins (h : c.Named line) : c.literal.bytes <+: line.bytes := by
  cases c with
  | ls | cat | stat | elf => exact h
  | ps | lsdev | exit | testmt =>
    have heq : _ = line := h
    rw [heq]

/-- A line calls one command at most. -/
theorem ShellCommand.Named.unique (hc : c.Named line) (hd : d.Named line) : c = d := by
  have hliteral (c d : ShellCommand) (h : c.literal.bytes <+: d.literal.bytes) : c = d := by
    cases c <;> cases d <;> revert h <;> decide
  rcases List.prefix_or_prefix_of_prefix hc.begins hd.begins with h | h
  · exact hliteral c d h
  · exact (hliteral d c h).symm

/-- The answer is the command that the line calls. -/
def Finds (line : CString) (answer : Except Fault (Option ShellCommand)) : Prop :=
  ∃ found, answer = .ok found ∧ ∀ c, found = some c ↔ c.Named line

/-- One test of the chain, for the command `c`. -/
theorem Finds.test {α : Type} [DecidableEq α] {z : α} {x : Except Fault α}
    {rest : Except Fault (Option ShellCommand)} (hx : ∃ n, x = .ok n ∧ (n = z ↔ c.Named line))
    (hrest : ¬c.Named line → Finds line rest) :
    Finds line (x >>= fun n => if n = z then pure (some c) else rest) := by
  obtain ⟨n, hx, hnamed⟩ := hx
  rw [hx, ok_bind]
  by_cases hc : c.Named line
  · rw [if_pos (hnamed.mpr hc)]
    refine ⟨some c, rfl, ?_⟩
    intro d
    rw [Option.some.injEq]
    constructor
    · intro heq
      exact heq ▸ hc
    · intro hd
      exact hc.unique hd
  · rw [if_neg (fun hn => hc (hnamed.mp hn))]
    exact hrest hc

theorem commandOf_spec (line : CString) : Finds line (commandOf line) := by
  apply Finds.test (strcmp_spec ShellCommand.ps.literal line)
  intro hps
  apply Finds.test (strcmp_spec ShellCommand.lsdev.literal line)
  intro hlsdev
  apply Finds.test (strncmp_spec ShellCommand.ls.literal line)
  intro hls
  apply Finds.test (strcmp_spec ShellCommand.exit.literal line)
  intro hexit
  apply Finds.test (strcmp_spec ShellCommand.testmt.literal line)
  intro htestmt
  apply Finds.test (strncmp_spec ShellCommand.cat.literal line)
  intro hcat
  apply Finds.test (strncmp_spec ShellCommand.stat.literal line)
  intro hstat
  apply Finds.test (strncmp_spec ShellCommand.elf.literal line)
  intro helf
  refine ⟨none, rfl, ?_⟩
  intro c
  apply iff_of_false nofun
  cases c <;> assumption

end Dispatch

section Calls

variable {b : ShellBackend σ} {p p' : Process} {s s' : σ} {sys a1 a2 a3 path fd n : BitVec 32}
  {t t' : Process × σ}

/-- What a command sees of the table. -/
def tableOf (t : Process × σ) : Fin 128 → Slot := t.1.fileTable

theorem outside_returns {f : σ → Option (α × σ)} {a : α} :
    (outside f).Returns t a t' ↔ f t.2 = some (a, t'.2) ∧ t'.1 = t.1 := by
  rw [Task.Returns, outside, Except.ok.injEq]
  cases f t.2 with
  | none => simp
  | some r =>
    rw [Option.map_some, Option.some.injEq, Option.some.injEq, Prod.ext_iff, Prod.ext_iff, Prod.ext_iff]
    constructor
    · intro h
      exact ⟨⟨h.1, h.2.2⟩, h.2.1.symm⟩
    · intro h
      exact ⟨h.1.1, h.2.symm, h.1.2⟩

theorem outside_keeps (f : σ → Option (α × σ)) : (outside f).Keeps tableOf := by
  intro t a t' h
  rw [tableOf, (outside_returns.mp h).2]
  rfl

theorem look_keeps (f : σ → α) : (look f).Keeps tableOf := outside_keeps _

theorem say_keeps (fmt : String) (args : List PrintArg) : (say b fmt args).Keeps tableOf := outside_keeps _

theorem callSyscall_returns : (callSyscall b sys a1 a2 a3).Returns (p, s) n (p', s') ↔
    ∃ r', syscallHub b.toBackend (callRegs sys a1 a2 a3) p s = .ok (some (r', p', s')) ∧
      r'.eax = n := by
  rw [Task.Returns, callSyscall]
  cases syscallHub b.toBackend (callRegs sys a1 a2 a3) p s with
  | error e => simp [Except.map]
  | ok res =>
    cases res with
    | none => simp [Except.map]
    | some r =>
      simp only [Except.map, Option.map_some, Except.ok.injEq, Option.some.injEq]
      constructor
      · intro h
        cases h
        exact ⟨r.1, rfl, rfl⟩
      · intro h
        obtain ⟨r', hr, heax⟩ := h
        rw [hr, heax]

theorem stat_returns (h : (callSyscall b 18 path a2 a3).Returns (p, s) n (p', s')) :
    ∃ ret, b.vfsStat path a2 s = some (ret, s') ∧ n = BitVec.ofInt 32 ret ∧ p' = p := by
  obtain ⟨r', hhub, heax⟩ := callSyscall_returns.mp h
  rw [syscallHub_call (f := .stat) (by simp [callRegs]) rfl] at hhub
  have hstat : Syscall.call b.toBackend (callRegs 18 path a2 a3) p s .stat =
      .ok ((b.vfsStat path a2 s).map fun r => (r.1, p, r.2)) := rfl
  rw [hstat, ok_bind] at hhub
  cases hres : b.vfsStat path a2 s with
  | none =>
    rw [hres] at hhub
    cases hhub
  | some r =>
    rw [hres] at hhub
    cases hhub
    exact ⟨r.1, rfl, heax.symm, rfl⟩

/-- An open takes the lowest free descriptor for whatever `vfs_open` answers. -/
theorem open_returns (h : (callSyscall b 5 path a2 a3).Returns (p, s) n (p', s')) :
    ∃ filp, b.vfsOpen path s = some (filp, s') ∧
      (freeEntry p = none ∧ n = BitVec.ofInt 32 (-EMFILE) ∧ p' = p ∨
        ∃ i, freeEntry p = some i ∧ n = BitVec.ofInt 32 i.val ∧ p' = p.set i (slotOf filp)) := by
  obtain ⟨r', hhub, heax⟩ := callSyscall_returns.mp h
  rw [syscallHub_open rfl] at hhub
  cases hres : b.vfsOpen path s with
  | none =>
    have hnone : b.vfsOpen (callRegs 5 path a2 a3).ebx s = none := hres
    rw [hnone] at hhub
    cases hhub
  | some r =>
    have hsome : b.vfsOpen (callRegs 5 path a2 a3).ebx s = some r := hres
    rw [hsome] at hhub
    cases hfree : freeEntry p with
    | none =>
      simp only [Option.map_some, hfree] at hhub
      cases hhub
      exact ⟨r.1, rfl, .inl ⟨rfl, heax.symm, rfl⟩⟩
    | some i =>
      simp only [Option.map_some, hfree] at hhub
      cases hhub
      exact ⟨r.1, rfl, .inr ⟨i, rfl, heax.symm, rfl⟩⟩

/-- A read or a write does not empty an entry. -/
theorem fd_keeps_open {i : Fin 128} (hsys : sys.toNat = 3 ∨ sys.toNat = 4) (hi : entry fd = .ok i)
    (h : (callSyscall b sys fd a2 a3).Returns (p, s) n (p', s')) (j : Fin 128) :
    (p'.fileTable j).isNull = (p.fileTable j).isNull := by
  obtain ⟨r', hhub, -⟩ := callSyscall_returns.mp h
  cases hsys with
  | inl h3 =>
    have hread : (callRegs sys fd a2 a3).eax.toNat = 3 := h3
    cases syscallHub_read hread hi hhub with
    | inl hsame => rw [hsame]
    | inr hfile =>
      obtain ⟨f, f', hslot, hset⟩ := hfile
      rw [hset]
      by_cases hj : j = i
      · rw [hj, hslot, Process.set_self]
        rfl
      · rw [Process.set_of_ne hj]
  | inr h4 =>
    have hwrite : (callRegs sys fd a2 a3).eax.toNat = 4 := h4
    rw [syscallHub_write hwrite hi hhub]

theorem close_returns {i : Fin 128} (hi : entry fd = .ok i) (hopen : p.fileTable i ≠ .null)
    (h : (callSyscall b 6 fd a2 a3).Returns (p, s) n (p', s')) : p' = p.set i .null := by
  obtain ⟨r', hhub, -⟩ := callSyscall_returns.mp h
  have hclose : (callRegs 6 fd a2 a3).eax.toNat = 6 := rfl
  rw [syscallHub_close hclose hi, if_neg (fun hnull => hopen (isNull_iff.mp hnull))] at hhub
  cases hhub
  rfl

theorem exit_keeps : (callSyscall b 1 a1 a2 a3).Keeps tableOf := by
  intro (p, s) n (p', s') h
  obtain ⟨r', hhub, -⟩ := callSyscall_returns.mp h
  rw [syscallHub_call (f := .exit) (by simp [callRegs]) rfl] at hhub
  have hexit : Syscall.call b.toBackend (callRegs 1 a1 a2 a3) p s .exit =
      .ok ((b.rmProcess p s).map fun s => (0x13371337, p, s)) := rfl
  rw [hexit, ok_bind] at hhub
  cases hres : b.rmProcess p s with
  | none =>
    rw [hres] at hhub
    cases hhub
  | some s =>
    rw [hres] at hhub
    cases hhub
    rfl

theorem stat_keeps : (callSyscall b 18 path a2 a3).Keeps tableOf := by
  intro (p, s) n (p', s') h
  obtain ⟨ret, -, -, hp⟩ := stat_returns h
  rw [hp]
  rfl

theorem onFile_returns {f : Ext2.File → σ → Option (α × Ext2.File × σ)} {a : α} {i : Fin 128}
    (hi : entry fd = .ok i) (h : (onFile fd f).Returns (p, s) a (p', s')) :
    ∃ file file', p.fileTable i = .file (.ext2 file) ∧ f file s = some (a, file', s') ∧
      p' = p.set i (.file (.ext2 file')) := by
  rw [Task.Returns, onFile, hi] at h
  cases hslot : p.fileTable i with
  | null =>
    simp only [hslot] at h
    cases h
  | code e =>
    simp only [hslot] at h
    cases h
  | file g =>
    cases g with
    | console =>
      simp only [hslot] at h
      cases h
    | ext2 file =>
      simp only [hslot] at h
      cases hres : f file s with
      | none =>
        rw [hres] at h
        cases h
      | some r =>
        rw [hres] at h
        cases h
        exact ⟨file, r.2.1, rfl, hres, rfl⟩

end Calls

section Keeping

variable {b : ShellBackend σ} {arg cmd : BitVec 32} {p p' : Process} {s s' : σ}

theorem ps_keeps (n i : Nat) : (psFrom b n i).Keeps tableOf := by
  induction n generalizing i with
  | zero => exact .pure ()
  | succ n ih =>
    apply Task.Keeps.bind (look_keeps _)
    intro thread
    cases thread with
    | none => exact ih (i + 1)
    | some p => exact .bind (say_keeps _ _) fun _ => ih (i + 1)

theorem lsdev_keeps (devices : List (Option DeviceLine)) : (lsdevFrom b devices).Keeps tableOf := by
  induction devices with
  | nil => exact .pure ()
  | cons d ds ih =>
    cases d with
    | none =>
      intro t a t' h
      cases h
    | some d => exact .bind (say_keeps _ _) fun _ => ih

/-- The commands that open no descriptor leave the table alone. -/
theorem run_keeps {c : ShellCommand} (hcat : c ≠ .cat) (helf : c ≠ .elf) :
    (c.run b cmd).Keeps tableOf := by
  cases c with
  | ps => exact .bind (say_keeps _ _) fun _ => ps_keeps 32 0
  | lsdev => exact .bind (say_keeps _ _) fun _ => .bind (look_keeps _) fun ds => lsdev_keeps ds
  | ls =>
    apply Task.Keeps.bind (outside_keeps _)
    intro file
    exact .bind (.check _) fun isdir => .ite (say_keeps _ _) (.pure ())
  | exit => exact .bind exit_keeps fun _ => .pure ()
  | testmt =>
    apply Task.Keeps.bind (outside_keeps _)
    intro p1
    apply Task.Keeps.bind (outside_keeps _)
    intro p2
    exact .bind (outside_keeps _) fun _ => .bind (outside_keeps _) fun _ => .pure ()
  | cat => exact absurd rfl hcat
  | stat =>
    apply Task.Keeps.bind stat_keeps
    intro ret
    apply Task.Keeps.ite (say_keeps _ _)
    exact .bind (say_keeps _ _) fun _ => .bind (look_keeps _) fun _ => say_keeps _ _
  | elf => exact absurd rfl helf

/-- The descriptor of an entry. -/
theorem entry_descriptor (i : Fin 128) : entry (BitVec.ofInt 32 i.val) = .ok i := by
  have hint : (BitVec.ofInt 32 (i.val : Int)).toInt = i.val :=
    BitVec.toInt_ofInt_eq_self (by decide) (by omega) (by omega)
  have hrange :
      0 ≤ (BitVec.ofInt 32 (i.val : Int)).toInt ∧ (BitVec.ofInt 32 (i.val : Int)).toInt < 128 := by
    omega
  obtain ⟨j, hj, hval⟩ := entry_ok hrange
  have hij : j = i := Fin.ext (by omega)
  rw [hj, hij]

/-- An open with a descriptor left leaves it in the table. -/
theorem open_cases {fd : BitVec 32} (h : (callSyscall b 5 arg 0 0).Returns (p, s) fd (p', s')) :
    (freeEntry p = none ∧ fd.toInt ≤ 0 ∧ p' = p) ∨
    ∃ i filp, freeEntry p = some i ∧ ¬fd.toInt ≤ 0 ∧ entry fd = .ok i ∧
      b.vfsOpen arg s = some (filp, s') ∧ p' = p.set i (slotOf filp) := by
  obtain ⟨filp, hopen, hcases⟩ := open_returns h
  cases hcases with
  | inl hnone =>
    obtain ⟨hfree, hfd, hp⟩ := hnone
    exact .inl ⟨hfree, by rw [hfd]; decide, hp⟩
  | inr hsome =>
    obtain ⟨i, hfree, hfd, hp⟩ := hsome
    have hint : (BitVec.ofInt 32 (i.val : Int)).toInt = i.val :=
      BitVec.toInt_ofInt_eq_self (by decide) (by omega) (by omega)
    have hi : 3 ≤ i.val := (freeEntry_some hfree).1
    refine .inr ⟨i, filp, hfree, ?_, ?_, hopen, hp⟩
    · rw [hfd, hint]
      omega
    · rw [hfd]
      exact entry_descriptor i

/-- A `cat` that comes back has given back its descriptor exactly when it took none. -/
theorem cat_table_iff (h : (cmdCat b arg).Returns (p, s) () (p', s')) :
    p'.fileTable = p.fileTable ↔ CatKeeps b arg p s := by
  obtain ⟨ret, ⟨p₁, s₁⟩, hstat, h⟩ := Task.returns_bind.mp h
  obtain ⟨n, hn, hret, hp₁⟩ := stat_returns hstat
  rw [hp₁] at h
  by_cases hneg : ret.toInt < 0
  · rw [if_pos hneg] at h
    apply iff_of_true
    · exact say_keeps _ _ _ _ _ h
    · left
      intro n' s' hn'
      cases hn.symm.trans hn'
      rwa [← hret]
  · rw [if_neg hneg] at h
    obtain ⟨st, ⟨p₂, s₂⟩, hst, h⟩ := Task.returns_bind.mp h
    obtain ⟨buf, ⟨p₃, s₃⟩, hbuf, h⟩ := Task.returns_bind.mp h
    obtain ⟨fd, ⟨p₄, s₄⟩, hopen, h⟩ := Task.returns_bind.mp h
    have hp₂ : p₂ = p := (outside_returns.mp hst).2
    have hp₃ : p₃ = p := (outside_returns.mp hbuf).2.trans hp₂
    rw [hp₃] at hopen
    cases open_cases hopen with
    | inl hfull =>
      obtain ⟨hfree, hfd, hp₄⟩ := hfull
      rw [if_pos hfd, hp₄] at h
      exact iff_of_true (say_keeps _ _ _ _ _ h) (.inr hfree)
    | inr htaken =>
      obtain ⟨i, filp, hfree, hfd, hi, -, hp₄⟩ := htaken
      rw [if_neg hfd] at h
      obtain ⟨_, ⟨p₅, s₅⟩, hread, h⟩ := Task.returns_bind.mp h
      obtain ⟨_, ⟨p₆, s₆⟩, hwrite, h⟩ := Task.returns_bind.mp h
      obtain ⟨-, hlast⟩ := Task.returns_pure.mp h
      cases hlast
      apply iff_of_false
      · intro heq
        have hopen₄ : (p₄.fileTable i).isNull = false := by
          rw [hp₄, Process.set_self]
          cases filp <;> rfl
        have hopen₆ : (p'.fileTable i).isNull = false := by
          rw [fd_keeps_open (.inr rfl) rfl hwrite i, fd_keeps_open (.inl rfl) hi hread i, hopen₄]
        rw [heq, (freeEntry_some hfree).2.1] at hopen₆
        cases hopen₆
      · intro hkeeps
        cases hkeeps with
        | inl hstat => exact hneg (hret ▸ hstat n s₁ hn)
        | inr hnone => cases hfree.symm.trans hnone

/-- An `elf` that comes back has given back its descriptor exactly when it took none, or found that the
file is not ELF. -/
theorem elf_table_iff (h : (cmdElf b arg).Returns (p, s) () (p', s')) :
    p'.fileTable = p.fileTable ↔ ElfKeeps b arg p s := by
  obtain ⟨fd, ⟨p₁, s₁⟩, hopen, h⟩ := Task.returns_bind.mp h
  cases open_cases hopen with
  | inl hfull =>
    obtain ⟨hfree, hfd, hp₁⟩ := hfull
    rw [if_pos hfd, hp₁] at h
    exact iff_of_true (say_keeps _ _ _ _ _ h) (.inr hfree)
  | inr htaken =>
    obtain ⟨i, filp, hfree, hfd, hi, hvfs, hp₁⟩ := htaken
    rw [if_neg hfd] at h
    obtain ⟨isElf, ⟨p₂, s₂⟩, hprobe, h⟩ := Task.returns_bind.mp h
    obtain ⟨_, ⟨p₃, s₃⟩, hsay, h⟩ := Task.returns_bind.mp h
    obtain ⟨file, file', hslot, hanswer, hp₂⟩ := onFile_returns hi hprobe
    have hp₃ : p₃ = p₂ := (outside_returns.mp hsay).2
    have hp₁₂ : p₂ = p.set i (.file (.ext2 file')) := by rw [hp₂, hp₁, Process.set_set]
    rw [hp₁, Process.set_self] at hslot
    have hfilp : filp = .ok (.ext2 file) := slotOf_file hslot
    rw [hp₃, hp₁₂] at h
    by_cases hnot : isElf = 0
    · rw [if_pos hnot] at h
      obtain ⟨_, ⟨p₄, s₄⟩, hclose, h⟩ := Task.returns_bind.mp h
      obtain ⟨-, hlast⟩ := Task.returns_pure.mp h
      cases hlast
      have hopened : (p.set i (.file (.ext2 file'))).fileTable i ≠ .null := by simp
      apply iff_of_true
      · rw [close_returns hi hopened hclose, Process.set_set]
        exact Process.set_same (freeEntry_some hfree).2.1
      · left
        intro f s₁' isElf' f' s₂' hvfs' hprobe'
        rw [hvfs, hfilp] at hvfs'
        cases hvfs'
        cases hanswer.symm.trans hprobe'
        exact hnot
    · rw [if_neg hnot] at h
      obtain ⟨_, ⟨p₄, s₄⟩, hread, h⟩ := Task.returns_bind.mp h
      obtain ⟨header, ⟨p₅, s₅⟩, hheader, h⟩ := Task.returns_bind.mp h
      obtain ⟨_, ⟨p₆, s₆⟩, htype, h⟩ := Task.returns_bind.mp h
      obtain ⟨_, ⟨p₇, s₇⟩, hentry, h⟩ := Task.returns_bind.mp h
      obtain ⟨ret, ⟨p₈, s₈⟩, hload, h⟩ := Task.returns_bind.mp h
      obtain ⟨_, file₈, -, -, hp₈⟩ := onFile_returns hi hload
      have hp' : p' = p₈ := (outside_returns.mp h).2
      apply iff_of_false
      · intro heq
        have hfree' := (freeEntry_some hfree).2.1
        rw [← heq, hp', hp₈, Process.set_self] at hfree'
        cases hfree'
      · intro hkeeps
        cases hkeeps with
        | inl hprobe => exact hnot (hprobe file s₁ isElf file' s₂ (by rw [hvfs, hfilp]) hanswer)
        | inr hnone => cases hfree.symm.trans hnone

/-- A line leaves the table as it was exactly when its command gives back its descriptor. -/
theorem line_table_iff {line : CString} (h : (parseInput b cmd line).Returns (p, s) () (p', s')) :
    p'.fileTable = p.fileTable ↔ LineKeeps b cmd line p s := by
  obtain ⟨found, hfound, hnamed⟩ := commandOf_spec line
  obtain ⟨_, t₁, hcheck, h⟩ := Task.returns_bind.mp h
  obtain ⟨hok, ht₁⟩ := Task.returns_check.mp hcheck
  cases hfound.symm.trans hok
  rw [← ht₁] at h
  rw [LineKeeps, ← hnamed, ← hnamed]
  cases found with
  | none =>
    obtain ⟨-, hlast⟩ := Task.returns_pure.mp h
    cases hlast
    simp
  | some c =>
    by_cases hcat : c = .cat
    · rw [hcat] at h ⊢
      rw [cat_table_iff h]
      simp
    · by_cases helf : c = .elf
      · rw [helf] at h ⊢
        rw [elf_table_iff h]
        simp
      · apply iff_of_true
        · exact run_keeps hcat helf _ _ _ h
        · simp [hcat, helf]

/-- Open answers that no descriptor is free only where none is. -/
theorem open_full {path : BitVec 32} {t' : Process × σ}
    (h : (callSyscall b 5 path 0 0).Returns (p, s) (BitVec.ofInt 32 (-EMFILE)) t') :
    freeEntry p = none := by
  have hreturns : (callSyscall b 5 path 0 0).Returns (p, s) (BitVec.ofInt 32 (-EMFILE)) (t'.1, t'.2) := h
  cases open_cases hreturns with
  | inl hfull => exact hfull.1
  | inr htaken =>
    obtain ⟨i, filp, -, hfd, -⟩ := htaken
    exact absurd (by decide) hfd

theorem TableKept.start (b : ShellBackend σ) (p : Process) : TableKept b p p :=
  ⟨rfl, fun _ _ _ h => open_full h⟩

theorem tableKept_iff : TableKept b p p' ↔ p'.fileTable = p.fileTable := by
  constructor
  · exact TableKept.table
  · intro htable
    refine ⟨htable, ?_⟩
    intro path s t' h
    have hfull := open_full h
    rwa [freeEntry, htable] at hfull

end Keeping

/-- Over a session of the shell, in which other threads may change the rest of the kernel between the
lines, the process's table stays as it was exactly as long as every command gives back its
descriptor. -/
theorem shell_table_iff (b : ShellBackend σ) (cmd : BitVec 32) (p : Process) (lines : List (Typed σ)) :
    AtEveryPoint (ShellStep b cmd) p lines (fun _ q => TableKept b p q) ↔
      EachStep (ShellStep b cmd) p lines fun q e _ => LineKeeps b cmd e.line q e.kernel := by
  apply atEveryPoint_iff (P := fun _ q => TableKept b p q)
  · exact .start b p
  · intro pre e q q' hbefore hstep
    obtain ⟨s', hreturns⟩ := hstep
    rw [tableKept_iff, ← hbefore.table]
    exact line_table_iff hreturns

/-- The shell over the file systems. Printing takes all it is given, no thread and no device is listed,
and what the reads store in memory is `st` and `header`. -/
def shellFiles (text : BitVec 32 → CString) (st : Ext2.Stat) (header : ElfHeader) : ShellBackend Files :=
  { fileSystem text with
    printk := fun _ _ s => some s
    kmalloc := fun _ s => some (if s.room then 0x2000 else 0, s)
    st := 0x3000
    header := 0x4000
    statAt := fun _ _ => st
    headerAt := fun _ _ => header
    elfProbe := fun f s => (elfProbe f s.room (fun _ => 0) (fun _ => 0) s.strings).toOption.map fun r =>
      (r.1, r.2.1, { s with strings := r.2.2 })
    elfLoad := fun f s => (elfLoad f ⟨s.room, s.room, s.room, s.room⟩ (.all 0) s.strings).toOption.map
      fun r => (r.1.ret, f, { s with strings := r.2 })
    threadAt := fun _ _ => none
    devices := fun _ => []
    schedMkProcess := fun _ _ => none
    schedAddProcess := fun _ s => some (0, s) }

/-- `cat /`. -/
def catRoot : CString := ⟨[0x63, 0x61, 0x74, 0x20, 0x2F], by decide⟩

/-- One `cat` of a file that is there leaves descriptor 3 in use. -/
theorem cat_leaks :
    ∃ v, Ext2.mount emptyDevice = .ok (.ok v) ∧
      ∃ p', ShellStep (shellFiles (fun _ => Ext2.rootPath) emptyStat ⟨0, 0, 0, 0⟩) 0x1000 (freshProcess 2)
          ⟨catRoot, ⟨rootMounted v, ⟨[], none⟩, true⟩⟩ p' ∧
        p'.fileTable 3 ≠ .null ∧ p'.fileTable ≠ (freshProcess 2).fileTable := by
  obtain ⟨v, hv, p', s', hrun, hopen⟩ : ∃ v, Ext2.mount emptyDevice = .ok (.ok v) ∧ ∃ p' s',
      parseInput (shellFiles (fun _ => Ext2.rootPath) emptyStat ⟨0, 0, 0, 0⟩) 0x1000 catRoot
        (freshProcess 2, ⟨rootMounted v, ⟨[], none⟩, true⟩) = .ok (some ((), p', s')) ∧
      (p'.fileTable 3).isNull = false := ⟨_, rfl, _, _, rfl, by rfl⟩
  have hused : p'.fileTable 3 ≠ .null := by
    intro hnull
    rw [hnull] at hopen
    cases hopen
  refine ⟨v, hv, p', ⟨s', hrun⟩, hused, ?_⟩
  intro heq
  exact hused (congrFun heq 3)

end Levos.Kernel.Shell
