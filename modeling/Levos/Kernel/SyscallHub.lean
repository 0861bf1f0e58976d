import Levos.Kernel.Syscall

namespace Levos.Kernel

open Levos.Framework Levos.Arch

variable {σ : Type} {b : Backend σ} {r : PtRegs} {p : Process} {s : σ}

/-- The calls that take a file descriptor: `read`, `write` and `close`. -/
def TakesFd (n : Nat) : Prop := n = 3 ∨ n = 4 ∨ n = 6

/-- The operation is not there: the console cannot be read. -/
def Lacks (n : Nat) (f : Slot) : Prop := n = 3 ∧ f = .file .console

/-- The descriptor is outside the table, or names an empty entry, or a file without the operation. -/
def BadFd (r : PtRegs) (p : Process) : Prop :=
  ∀ fd, entry r.ebx = .ok fd → p.fileTable fd = .null ∨ Lacks r.eax.toNat (p.fileTable fd)

/-- The system call answers a negative number and changes nothing. -/
def Refused (b : Backend σ) (r : PtRegs) (p : Process) (s : σ) : Prop :=
  ∃ r', syscallHub b r p s = .ok (some (r', p, s)) ∧ r'.eax.toInt < 0

/-- The hub stays inside its tables, calls no null function, and refuses what it has to refuse. -/
structure HubRight (b : Backend σ) (r : PtRegs) (p : Process) (s : σ) : Prop where
  safe : ∃ res, syscallHub b r p s = .ok res
  unknown : (∀ n, r.eax.toNat < 256 → syscalls r.eax.toNat ≠ some n) →
    syscallHub b r p s = .ok (some ({ r with eax := BitVec.ofInt 32 (-ENOSYS) }, p, s))
  badFd : TakesFd r.eax.toNat → BadFd r p → Refused b r p s

/-- What a system call has to bring along: a number inside the table; with `read`, `write` and `close`
a descriptor inside the file table; and there an entry that is empty or a file with the operation. -/
structure HubFits (r : PtRegs) (p : Process) : Prop where
  number : r.eax.toNat < 256
  fd : TakesFd r.eax.toNat → 0 ≤ r.ebx.toInt ∧ r.ebx.toInt < 128
  real : r.eax.toNat = 3 ∨ r.eax.toNat = 4 → ∀ fd e, entry r.ebx = .ok fd →
    p.fileTable fd ≠ .code e
  readable : r.eax.toNat = 3 → ∀ fd, entry r.ebx = .ok fd → p.fileTable fd ≠ .file .console

section Entry

theorem entry_ok {fd : BitVec 32} (h : 0 ≤ fd.toInt ∧ fd.toInt < 128) :
    ∃ i, entry fd = .ok i ∧ (i.val : Int) = fd.toInt := by
  have hlt : 0 ≤ fd.toInt ∧ fd.toInt.toNat < 128 := by omega
  refine ⟨⟨fd.toInt.toNat, hlt.2⟩, ?_, ?_⟩
  · rw [entry, dif_pos hlt]
  · exact Int.toNat_of_nonneg h.1

theorem entry_error {fd : BitVec 32} (h : ¬(0 ≤ fd.toInt ∧ fd.toInt < 128)) :
    entry fd = .error .outOfBounds := by
  rw [entry, dif_neg (by omega)]

end Entry

section Calls

/-- The hub hands a number inside the table to its system call. -/
theorem syscallHub_call {f : Syscall} (hlt : r.eax.toNat < 256)
    (hf : syscalls r.eax.toNat = some f) :
    syscallHub b r p s = (do
      let res ← f.call b r p s
      return res.map fun (n, p, s) => ({ r with eax := BitVec.ofInt 32 n }, p, s)) := by
  rw [syscallHub, if_pos hlt, hf]

theorem syscallHub_null (hlt : r.eax.toNat < 256) (hf : syscalls r.eax.toNat = none) :
    syscallHub b r p s =
      .ok (some ({ r with eax := BitVec.ofInt 32 (-ENOSYS) }, p, s)) := by
  rw [syscallHub, if_pos hlt, hf]
  rfl

/-- The numbers of the table, and their system calls. -/
theorem syscalls_cases (n : Nat) :
    n = 1 ∧ syscalls n = some .exit ∨ n = 3 ∧ syscalls n = some .read ∨
    n = 4 ∧ syscalls n = some .write ∨ n = 5 ∧ syscalls n = some .open ∨
    n = 6 ∧ syscalls n = some .close ∨ n = 18 ∧ syscalls n = some .stat ∨
    syscalls n = none ∧ ¬TakesFd n := by
  unfold syscalls TakesFd
  split <;> simp_all

/-- A call that takes a descriptor goes wrong outside the table. -/
theorem outside_error {f : Syscall} (hlt : r.eax.toNat < 256)
    (hf : syscalls r.eax.toNat = some f) (hfd : f = .read ∨ f = .write ∨ f = .close)
    (h : ¬(0 ≤ r.ebx.toInt ∧ r.ebx.toInt < 128)) :
    syscallHub b r p s = .error .outOfBounds := by
  rw [syscallHub_call hlt hf]
  rcases hfd with rfl | rfl | rfl
  · simp only [Syscall.call, syscallRead, entry_error h, error_bind]
  · simp only [Syscall.call, syscallWrite, entry_error h, error_bind]
  · simp only [Syscall.call, syscallClose, entry_error h, error_bind]

theorem refused_of {n : Int} (hlt : r.eax.toNat < 256) {f : Syscall}
    (hf : syscalls r.eax.toNat = some f) (hcall : f.call b r p s = .ok (some (n, p, s)))
    (hn : (BitVec.ofInt 32 n).toInt < 0) : Refused b r p s := by
  refine ⟨{ r with eax := BitVec.ofInt 32 n }, ?_, hn⟩
  rw [syscallHub_call hlt hf, hcall]
  rfl

/-- An empty entry is refused. -/
theorem null_refused {f : Syscall} {fd : Fin 128} (hlt : r.eax.toNat < 256)
    (hf : syscalls r.eax.toNat = some f) (hfd : f = .read ∨ f = .write ∨ f = .close)
    (hentry : entry r.ebx = .ok fd) (hnull : p.fileTable fd = .null) : Refused b r p s := by
  refine refused_of (n := -EBADF) hlt hf ?_ (by decide)
  rcases hfd with rfl | rfl | rfl
  · simp only [Syscall.call, syscallRead, hentry, ok_bind, hnull]
    rfl
  · simp only [Syscall.call, syscallWrite, hentry, ok_bind, hnull]
    rfl
  · simp only [Syscall.call, syscallClose, hentry, ok_bind, hnull, Slot.isNull]
    rfl

/-- What the calls with a descriptor do inside the table: they fault exactly at an error code and, to
read, at the console. -/
theorem inside_spec {f : Syscall} {fd : Fin 128} (hlt : r.eax.toNat < 256)
    (hf : syscalls r.eax.toNat = some f) (hfd : f = .read ∨ f = .write ∨ f = .close)
    (hentry : entry r.ebx = .ok fd) :
    (∃ res, syscallHub b r p s = .ok res) ↔
      (f = .read ∨ f = .write → ∀ e, p.fileTable fd ≠ .code e) ∧
      (f = .read → p.fileTable fd ≠ .file .console) := by
  rw [syscallHub_call hlt hf]
  rcases hfd with rfl | rfl | rfl
  · simp only [Syscall.call, syscallRead, hentry, ok_bind]
    cases hslot : p.fileTable fd with
    | null => simp [pure, Except.pure]
    | file f => cases f <;> simp [pure, Except.pure]
    | code e => simp
  · simp only [Syscall.call, syscallWrite, hentry, ok_bind]
    cases hslot : p.fileTable fd with
    | null => simp [pure, Except.pure]
    | file f => cases f <;> simp [pure, Except.pure]
    | code e => simp
  · simp only [Syscall.call, syscallClose, hentry, ok_bind]
    cases (p.fileTable fd).isNull <;> simp [pure, Except.pure]

/-- The hub is right about a call with a descriptor exactly when the call fits. -/
theorem fdCall_right_iff {f : Syscall} (hlt : r.eax.toNat < 256) (hf : syscalls r.eax.toNat = some f)
    (hn : r.eax.toNat = 3 ∧ f = .read ∨ r.eax.toNat = 4 ∧ f = .write ∨
      r.eax.toNat = 6 ∧ f = .close) :
    HubRight b r p s ↔ HubFits r p := by
  have hfd : f = .read ∨ f = .write ∨ f = .close := by
    rcases hn with ⟨-, h⟩ | ⟨-, h⟩ | ⟨-, h⟩ <;> simp [h]
  have htakes : TakesFd r.eax.toNat := by
    rcases hn with ⟨h, -⟩ | ⟨h, -⟩ | ⟨h, -⟩ <;> simp [TakesFd, h]
  by_cases hin : 0 ≤ r.ebx.toInt ∧ r.ebx.toInt < 128
  · obtain ⟨fd, hentry, -⟩ := entry_ok hin
    have hsafe := inside_spec (b := b) (p := p) (s := s) hlt hf hfd hentry
    constructor
    · intro hright
      obtain ⟨hreal, hreadable⟩ := hsafe.mp hright.safe
      refine ⟨hlt, fun _ => hin, fun h fd' e hfd' => ?_, fun h fd' hfd' => ?_⟩
      · cases hentry.symm.trans hfd'
        refine hreal ?_ e
        rcases hn with ⟨h', hf'⟩ | ⟨h', hf'⟩ | ⟨h', -⟩
        · exact .inl hf'
        · exact .inr hf'
        · omega
      · cases hentry.symm.trans hfd'
        refine hreadable ?_
        rcases hn with ⟨-, hf'⟩ | ⟨h', -⟩ | ⟨h', -⟩
        · exact hf'
        · omega
        · omega
    · intro hfits
      refine ⟨hsafe.mpr ⟨fun h e => ?_, fun h => ?_⟩, fun hnone => absurd hf (hnone f hlt),
        fun _ hbad => ?_⟩
      · refine hfits.real ?_ fd e hentry
        rcases hn with ⟨h', -⟩ | ⟨h', -⟩ | ⟨-, hf'⟩
        · exact .inl h'
        · exact .inr h'
        · rw [hf'] at h
          rcases h with h | h <;> cases h
      · refine hfits.readable ?_ fd hentry
        rcases hn with ⟨h', -⟩ | ⟨-, hf'⟩ | ⟨-, hf'⟩
        · exact h'
        · exact absurd (h.symm.trans hf') (by decide)
        · exact absurd (h.symm.trans hf') (by decide)
      · rcases hbad fd hentry with hnull | ⟨h3, hconsole⟩
        · exact null_refused hlt hf hfd hentry hnull
        · exact absurd hconsole (hfits.readable h3 fd hentry)
  · constructor
    · intro hright
      obtain ⟨res, hres⟩ := hright.safe
      rw [outside_error hlt hf hfd hin] at hres
      cases hres
    · intro hfits
      exact absurd (hfits.fd htakes) hin

/-- The hub is right about every call without a descriptor. -/
theorem noFd_right_iff (hlt : r.eax.toNat < 256) (hn : ¬TakesFd r.eax.toNat)
    (hsafe : ∃ res, syscallHub b r p s = .ok res) : HubRight b r p s ↔ HubFits r p := by
  have h34 : ¬(r.eax.toNat = 3 ∨ r.eax.toNat = 4) := fun h =>
    hn (by rcases h with h | h <;> simp [TakesFd, h])
  refine iff_of_true ⟨hsafe, fun hnone => ?_, fun h => absurd h hn⟩
    ⟨hlt, fun h => absurd h hn, fun h => absurd h h34, fun h => absurd (.inl h) h34⟩
  refine syscallHub_null hlt ?_
  cases hf : syscalls r.eax.toNat with
  | none => rfl
  | some f => exact absurd hf (hnone f hlt)

end Calls

/-- The hub is right exactly when the registers and the entry they name fit. -/
theorem syscallHub_right_iff (b : Backend σ) (r : PtRegs) (p : Process) (s : σ) :
    HubRight b r p s ↔ HubFits r p := by
  by_cases hlt : r.eax.toNat < 256
  · rcases syscalls_cases r.eax.toNat with ⟨hn, hf⟩ | ⟨hn, hf⟩ | ⟨hn, hf⟩ | ⟨hn, hf⟩ | ⟨hn, hf⟩ |
      ⟨hn, hf⟩ | ⟨hf, hn⟩
    · refine noFd_right_iff hlt (by simp [TakesFd, hn]) ?_
      rw [syscallHub_call hlt hf]
      exact ⟨_, rfl⟩
    · exact fdCall_right_iff hlt hf (.inl ⟨hn, rfl⟩)
    · exact fdCall_right_iff hlt hf (.inr (.inl ⟨hn, rfl⟩))
    · refine noFd_right_iff hlt (by simp [TakesFd, hn]) ?_
      rw [syscallHub_call hlt hf]
      exact ⟨_, rfl⟩
    · exact fdCall_right_iff hlt hf (.inr (.inr ⟨hn, rfl⟩))
    · refine noFd_right_iff hlt (by simp [TakesFd, hn]) ?_
      rw [syscallHub_call hlt hf]
      exact ⟨_, rfl⟩
    · exact noFd_right_iff hlt hn ⟨_, syscallHub_null hlt hf⟩
  · have herror : syscallHub b r p s = .error .outOfBounds := if_neg hlt
    constructor
    · intro hright
      obtain ⟨res, hres⟩ := hright.safe
      cases herror.symm.trans hres
    · intro hfits
      exact absurd hfits.number hlt

/-- Only descriptor 1 is open. -/
def Fresh (p : Process) : Prop :=
  (∃ f, p.fileTable 1 = .file f) ∧ ∀ i, i ≠ 1 → p.fileTable i = .null

/-- A process as `sched_mk_process` leaves it: only the console is open, as descriptor 1. -/
def freshProcess (pid : Int) : Process where
  pid := pid
  fileTable := fun i => if i = 1 then .file .console else .null

theorem freshProcess_fresh (pid : Int) : Fresh (freshProcess pid) :=
  ⟨⟨.console, rfl⟩, fun _ hi => if_neg hi⟩

/-- A backend that never comes back. -/
def silent : Backend Unit where
  vfsOpen := fun _ _ => none
  vfsStat := fun _ _ _ => none
  readFile := fun _ _ _ _ => none
  consoleWrite := fun _ _ _ => none
  rmProcess := fun _ _ => none

/-- `read(1, 0, 16)`. -/
def readConsole : PtRegs := ⟨0, 0, 0, 0, 0, 0, 1, 16, 0, 3, 0, 0, 0⟩

/-- The console has no `read`, so the hub calls the null function. -/
theorem syscallHub_readConsole :
    syscallHub silent readConsole (freshProcess 2) () = .error .nullPointer ∧
      ¬HubRight silent readConsole (freshProcess 2) () := by
  have herror : syscallHub silent readConsole (freshProcess 2) () = .error .nullPointer := rfl
  refine ⟨herror, fun hright => ?_⟩
  obtain ⟨res, hres⟩ := hright.safe
  cases herror.symm.trans hres

end Levos.Kernel
