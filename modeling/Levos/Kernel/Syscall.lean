import Levos.Arch.Context
import Levos.Ext2.File

namespace Levos.Kernel

open Levos.Framework Levos.Arch

/-- What a `struct file *` that is not an error code points to: `console_file`, or a file that
`ext2_open` made. -/
inductive OpenFile
  | console
  | ext2 (f : Ext2.File)

/-- An entry of a process's `file_table`: null, a file, or an error code that went for a pointer. -/
inductive Slot
  | null
  | file (f : OpenFile)
  | code (e : Int)

def Slot.isNull : Slot → Bool
  | .null => true
  | _ => false

/-- `struct process`, as far as the system calls look at it. -/
structure Process where
  pid : Int
  fileTable : Fin 128 → Slot

/-- The code that the system calls go on in: the VFS layer, the `read` of `ext2_fops`, the write to
the consoles and `sched_rm_process`. No answer means that it does not come back. -/
structure Backend (σ : Type) where
  vfsOpen : BitVec 32 → σ → Option (Except Int OpenFile × σ)
  vfsStat : BitVec 32 → BitVec 32 → σ → Option (Int × σ)
  readFile : Ext2.File → BitVec 32 → BitVec 32 → σ → Option (Int × Ext2.File × σ)
  consoleWrite : BitVec 32 → BitVec 32 → σ → Option (Int × σ)
  rmProcess : Process → σ → Option σ

variable {σ : Type}

/-- The answer of a system call, the process and the rest of the kernel; none when the code that the
call goes on in does not come back. -/
abbrev Answer (σ : Type) := Option (Int × Process × σ)

/-- The place of `file_table[fd]`. -/
def entry (fd : BitVec 32) : Except Fault (Fin 128) :=
  if h : 0 ≤ fd.toInt ∧ fd.toInt.toNat < 128 then .ok ⟨fd.toInt.toNat, h.2⟩ else .error .outOfBounds

def Process.set (p : Process) (i : Fin 128) (f : Slot) : Process :=
  { p with fileTable := Function.update p.fileTable i f }

/-- `syscall_null`. -/
def syscallNull (p : Process) (s : σ) : Except Fault (Answer σ) := .ok (some (-ENOSYS, p, s))

/-- `syscall_exit`. -/
def syscallExit (b : Backend σ) (p : Process) (s : σ) : Except Fault (Answer σ) :=
  .ok ((b.rmProcess p s).map fun s => (0x13371337, p, s))

/-- `syscall_write`. Both kinds of file have a `write`; `ext2_write_file` only answers. -/
def syscallWrite (b : Backend σ) (r : PtRegs) (p : Process) (s : σ) : Except Fault (Answer σ) := do
  let fd ← entry r.ebx
  match p.fileTable fd with
  | .null => return some (-EBADF, p, s)
  | .file .console => return (b.consoleWrite r.ecx r.edx s).map fun (n, s) => (n, p, s)
  | .file (.ext2 _) => return some (-EROFS, p, s)
  | .code _ => .error .outOfBounds

/-- `syscall_stat`. -/
def syscallStat (b : Backend σ) (r : PtRegs) (p : Process) (s : σ) : Except Fault (Answer σ) :=
  .ok ((b.vfsStat r.ebx r.ecx s).map fun (n, s) => (n, p, s))

/-- The scan of `syscall_open` for a free entry. -/
def freeEntry (p : Process) : Option (Fin 128) :=
  (List.finRange 128).find? fun i => decide (3 ≤ i.val) && (p.fileTable i).isNull

/-- What `vfs_open` answered, as the pointer that it is. -/
def slotOf : Except Int OpenFile → Slot
  | .ok f => .file f
  | .error e => .code e

/-- `syscall_open`. The answer of `vfs_open` is not looked at. -/
def syscallOpen (b : Backend σ) (r : PtRegs) (p : Process) (s : σ) : Except Fault (Answer σ) :=
  .ok ((b.vfsOpen r.ebx s).map fun (filp, s) =>
    match freeEntry p with
    | some i => ((i.val : Int), p.set i (slotOf filp), s)
    | none => (-EMFILE, p, s))

/-- `syscall_read`. `console_fops` has no `read`. -/
def syscallRead (b : Backend σ) (r : PtRegs) (p : Process) (s : σ) : Except Fault (Answer σ) := do
  let fd ← entry r.ebx
  match p.fileTable fd with
  | .null => return some (-EBADF, p, s)
  | .file .console => .error .nullPointer
  | .file (.ext2 f) =>
    return (b.readFile f r.ecx r.edx s).map fun (n, f, s) => (n, p.set fd (.file (.ext2 f)), s)
  | .code _ => .error .outOfBounds

/-- `syscall_close`. -/
def syscallClose (r : PtRegs) (p : Process) (s : σ) : Except Fault (Answer σ) := do
  let fd ← entry r.ebx
  if (p.fileTable fd).isNull then return some (-EBADF, p, s)
  else return some (0, p.set fd .null, s)

inductive Syscall
  | exit
  | read
  | write
  | open
  | close
  | stat
  deriving DecidableEq

/-- `syscalls`. -/
def syscalls (n : Nat) : Option Syscall :=
  match n with
  | 1 => some .exit
  | 3 => some .read
  | 4 => some .write
  | 5 => some .open
  | 6 => some .close
  | 18 => some .stat
  | _ => none

def Syscall.call (b : Backend σ) (r : PtRegs) (p : Process) (s : σ) : Syscall → Except Fault (Answer σ)
  | .exit => syscallExit b p s
  | .read => syscallRead b r p s
  | .write => syscallWrite b r p s
  | .open => syscallOpen b r p s
  | .close => syscallClose r p s
  | .stat => syscallStat b r p s

/-- `syscall_hub`, up to the switch back to the thread: the answer goes to `eax`. -/
def syscallHub (b : Backend σ) (r : PtRegs) (p : Process) (s : σ) :
    Except Fault (Option (PtRegs × Process × σ)) :=
  if r.eax.toNat < 256 then do
    let res ← match syscalls r.eax.toNat with
      | none => syscallNull p s
      | some f => f.call b r p s
    return res.map fun (n, p, s) => ({ r with eax := BitVec.ofInt 32 n }, p, s)
  else .error .outOfBounds

end Levos.Kernel
