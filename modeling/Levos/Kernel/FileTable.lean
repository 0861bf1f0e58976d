import Levos.Kernel.SyscallHub
import Mathlib.Data.List.FinRange

namespace Levos.Kernel

open Levos.Framework Levos.Arch

variable {σ : Type} {b : Backend σ} {r r' : PtRegs} {p p' : Process} {s s' : σ}

/-- Every entry that is not null is a real file. -/
def Clean (p : Process) : Prop := ∀ i e, p.fileTable i ≠ .code e

/-- `open`, `close`, `read` and `write`. -/
def FileCall (r : PtRegs) : Prop := r.eax.toNat = 5 ∨ TakesFd r.eax.toNat

/-- The lowest free descriptor that `open` may give out. -/
def LowestFree (p : Process) (i : Fin 128) : Prop :=
  3 ≤ i.val ∧ p.fileTable i = .null ∧ ∀ j : Fin 128, 3 ≤ j.val → p.fileTable j = .null → i ≤ j

/-- What a file call has to do to the table. -/
structure CallRight (b : Backend σ) (r : PtRegs) (p : Process) (s : σ) : Prop where
  safe : ∃ res, syscallHub b r p s = .ok res
  opened : r.eax.toNat = 5 → ∀ f s' i, b.vfsOpen r.ebx s = some (.ok f, s') → LowestFree p i →
    syscallHub b r p s =
      .ok (some ({ r with eax := BitVec.ofNat 32 i.val }, p.set i (.file f), s'))
  failed : r.eax.toNat = 5 → ∀ filp s', b.vfsOpen r.ebx s = some (filp, s') →
    (∃ e, filp = .error e) ∨ (∀ i, ¬LowestFree p i) →
    ∃ r', syscallHub b r p s = .ok (some (r', p, s')) ∧ r'.eax.toInt < 0
  closed : r.eax.toNat = 6 → ∀ i, entry r.ebx = .ok i → p.fileTable i ≠ .null →
    syscallHub b r p s = .ok (some ({ r with eax := 0 }, p.set i .null, s))
  kept : r.eax.toNat = 3 ∨ r.eax.toNat = 4 → ∀ r' p' s',
    syscallHub b r p s = .ok (some (r', p', s')) →
    ∀ i, (p'.fileTable i).isNull = (p.fileTable i).isNull ∧
      (entry r.ebx ≠ .ok i → p'.fileTable i = p.fileTable i)

/-- A file call fits when its descriptor is in the table, when it does not read the console, and, to
open, when the file system opens the path or no entry is free. -/
structure CallFits (b : Backend σ) (r : PtRegs) (p : Process) (s : σ) : Prop where
  fd : TakesFd r.eax.toNat → 0 ≤ r.ebx.toInt ∧ r.ebx.toInt < 128
  readable : r.eax.toNat = 3 → ∀ i, entry r.ebx = .ok i → p.fileTable i ≠ .file .console
  opens : r.eax.toNat = 5 → ∀ e s', b.vfsOpen r.ebx s = some (.error e, s') →
    ∀ i : Fin 128, 3 ≤ i.val → p.fileTable i ≠ .null

section Entries

theorem Fresh.clean (h : Fresh p) : Clean p := by
  intro i e hcode
  obtain ⟨⟨f, hf⟩, hnull⟩ := h
  by_cases hi : i = 1
  · rw [hi, hf] at hcode
    cases hcode
  · rw [hnull i hi] at hcode
    cases hcode

theorem isNull_iff {f : Slot} : f.isNull = true ↔ f = .null := by
  cases f <;> simp [Slot.isNull]

theorem freeEntry_some {i : Fin 128} (h : freeEntry p = some i) : LowestFree p i := by
  obtain ⟨hi, k, hk, hget, hfirst⟩ := List.find?_eq_some_iff_getElem.mp h
  rw [Bool.and_eq_true, decide_eq_true_eq, isNull_iff] at hi
  refine ⟨hi.1, hi.2, fun j hj hnull => ?_⟩
  rw [List.getElem_finRange] at hget
  by_contra hlt
  have hki : k = i.val := congrArg Fin.val hget
  have hbefore := hfirst j.val (by rw [hki]; exact Nat.lt_of_not_le hlt)
  rw [List.getElem_finRange] at hbefore
  simp only [Fin.cast_mk, Fin.eta] at hbefore
  simp [hj, hnull, Slot.isNull] at hbefore

theorem freeEntry_none (h : freeEntry p = none) (i : Fin 128) (hi : 3 ≤ i.val) :
    p.fileTable i ≠ .null := by
  intro hnull
  have := List.find?_eq_none.mp h i (List.mem_finRange i)
  simp [hi, hnull, Slot.isNull] at this

theorem LowestFree.unique {i j : Fin 128} (hi : LowestFree p i) (hj : LowestFree p j) : i = j :=
  Fin.le_antisymm (hi.2.2 j hj.1 hj.2.1) (hj.2.2 i hi.1 hi.2.1)

theorem LowestFree.freeEntry {i : Fin 128} (h : LowestFree p i) : freeEntry p = some i := by
  cases hfree : Levos.Kernel.freeEntry p with
  | none => exact absurd h.2.1 (freeEntry_none hfree i h.1)
  | some j => rw [(freeEntry_some hfree).unique h]

@[simp] theorem Process.set_self (p : Process) (i : Fin 128) (f : Slot) : (p.set i f).fileTable i = f :=
  Function.update_self ..

theorem Process.set_of_ne {i j : Fin 128} {f : Slot} (h : j ≠ i) :
    (p.set i f).fileTable j = p.fileTable j := Function.update_of_ne h ..

theorem Process.set_set (p : Process) (i : Fin 128) (f g : Slot) : (p.set i f).set i g = p.set i g := by
  simp [Process.set]

/-- Storing what an entry holds changes nothing. -/
theorem Process.set_same {i : Fin 128} {f : Slot} (h : p.fileTable i = f) :
    (p.set i f).fileTable = p.fileTable := by
  rw [← h]
  exact Function.update_eq_self ..

theorem slotOf_file {filp : Except Int OpenFile} {f : OpenFile} (h : slotOf filp = .file f) :
    filp = .ok f := by
  cases filp with
  | error e => cases h
  | ok g =>
    cases h
    rfl

theorem Clean.set {i : Fin 128} {f : Slot} (h : Clean p) (hf : ∀ e, f ≠ .code e) :
    Clean (p.set i f) := by
  intro j e hcode
  by_cases hj : j = i
  · rw [hj, Process.set_self] at hcode
    exact hf e hcode
  · rw [Process.set_of_ne hj] at hcode
    exact h j e hcode

end Entries

section Open

theorem syscallHub_open (hn : r.eax.toNat = 5) :
    syscallHub b r p s = .ok ((b.vfsOpen r.ebx s).map fun (filp, s) =>
      match freeEntry p with
      | some i => ({ r with eax := BitVec.ofInt 32 i.val }, p.set i (slotOf filp), s)
      | none => ({ r with eax := BitVec.ofInt 32 (-EMFILE) }, p, s)) := by
  rw [syscallHub_call (f := .open) (by omega) (by rw [hn]; rfl)]
  simp only [Syscall.call, syscallOpen, ok_bind]
  cases b.vfsOpen r.ebx s with
  | none => rfl
  | some res =>
    cases hfree : freeEntry p with
    | none => simp only [Option.map_some]; rfl
    | some i => simp only [Option.map_some]; rfl

/-- `open` does what it has to do exactly when the file system opens the path, or nothing is free. -/
theorem open_right_iff (hn : r.eax.toNat = 5) : CallRight b r p s ↔ CallFits b r p s := by
  have hfd : ¬TakesFd r.eax.toNat := by simp [TakesFd, hn]
  have hhub := syscallHub_open (b := b) (p := p) (s := s) hn
  constructor
  · intro hright
    refine ⟨fun h => absurd h hfd, fun h => by omega, fun _ e s' hopen i hi hnull => ?_⟩
    obtain ⟨r', hfail, -⟩ := hright.failed hn _ s' hopen (.inl ⟨e, rfl⟩)
    rw [hhub, hopen] at hfail
    cases hfree : freeEntry p with
    | none => exact freeEntry_none hfree i hi hnull
    | some j =>
      -- the error code stands in the entry that was free
      simp only [Option.map_some, hfree, Except.ok.injEq, Option.some.injEq, Prod.mk.injEq] at hfail
      have hset : (p.set j (slotOf (.error e))).fileTable j = .code e := Process.set_self ..
      rw [hfail.2.1, (freeEntry_some hfree).2.1] at hset
      cases hset
  · intro hfits
    refine ⟨⟨_, hhub⟩, fun _ f s' i hopen hi => ?_, fun _ filp s' hopen hbad => ?_,
      fun h => by omega, fun h => by omega⟩
    · rw [hhub, hopen]
      simp only [Option.map_some, hi.freeEntry]
      rfl
    · have hfree : freeEntry p = none := by
        cases hfree : freeEntry p with
        | none => rfl
        | some i =>
          have hlow := freeEntry_some hfree
          rcases hbad with ⟨e, rfl⟩ | hbad
          · exact absurd hlow.2.1 (hfits.opens hn e s' hopen i hlow.1)
          · exact absurd hlow (hbad i)
      rw [hhub, hopen]
      simp only [Option.map_some, hfree]
      exact ⟨_, rfl, (by decide : (BitVec.ofInt 32 (-EMFILE)).toInt < 0)⟩

end Open

section Descriptor

theorem syscallHub_write (hn : r.eax.toNat = 4) {i : Fin 128} (hi : entry r.ebx = .ok i)
    (hok : syscallHub b r p s = .ok (some (r', p', s'))) : p' = p := by
  rw [syscallHub_call (f := .write) (by omega) (by rw [hn]; rfl)] at hok
  simp only [Syscall.call, syscallWrite, hi, ok_bind] at hok
  cases hslot : p.fileTable i with
  | null =>
    simp only [hslot] at hok
    cases hok
    rfl
  | code e =>
    simp only [hslot] at hok
    cases hok
  | file f =>
    cases f with
    | console =>
      simp only [hslot] at hok
      cases hwrite : b.consoleWrite r.ecx r.edx s with
      | none =>
        rw [hwrite] at hok
        cases hok
      | some res =>
        rw [hwrite] at hok
        cases hok
        rfl
    | ext2 f =>
      simp only [hslot] at hok
      cases hok
      rfl

/-- A read leaves the table alone, but for the position of the file that it reads. -/
theorem syscallHub_read (hn : r.eax.toNat = 3) {i : Fin 128} (hi : entry r.ebx = .ok i)
    (hok : syscallHub b r p s = .ok (some (r', p', s'))) :
    p' = p ∨ ∃ f f', p.fileTable i = .file (.ext2 f) ∧ p' = p.set i (.file (.ext2 f')) := by
  rw [syscallHub_call (f := .read) (by omega) (by rw [hn]; rfl)] at hok
  simp only [Syscall.call, syscallRead, hi, ok_bind] at hok
  cases hslot : p.fileTable i with
  | null =>
    simp only [hslot] at hok
    cases hok
    exact .inl rfl
  | code e =>
    simp only [hslot] at hok
    cases hok
  | file f =>
    cases f with
    | console =>
      simp only [hslot] at hok
      cases hok
    | ext2 f =>
      simp only [hslot] at hok
      cases hread : b.readFile f r.ecx r.edx s with
      | none =>
        rw [hread] at hok
        cases hok
      | some res =>
        rw [hread] at hok
        cases hok
        exact .inr ⟨f, _, rfl, rfl⟩

theorem syscallHub_close (hn : r.eax.toNat = 6) {i : Fin 128} (hi : entry r.ebx = .ok i) :
    syscallHub b r p s =
      if (p.fileTable i).isNull then
        .ok (some ({ r with eax := BitVec.ofInt 32 (-EBADF) }, p, s))
      else .ok (some ({ r with eax := 0 }, p.set i .null, s)) := by
  rw [syscallHub_call (f := .close) (by omega) (by rw [hn]; rfl)]
  simp only [Syscall.call, syscallClose, hi, ok_bind]
  split <;> rfl

theorem takesFd_call {n : Nat} (h : TakesFd n) : ∃ f, syscalls n = some f ∧
    (n = 3 ∧ f = .read ∨ n = 4 ∧ f = .write ∨ n = 6 ∧ f = .close) := by
  rcases h with rfl | rfl | rfl
  · exact ⟨.read, rfl, .inl ⟨rfl, rfl⟩⟩
  · exact ⟨.write, rfl, .inr (.inl ⟨rfl, rfl⟩)⟩
  · exact ⟨.close, rfl, .inr (.inr ⟨rfl, rfl⟩)⟩

/-- A call with a descriptor does what it has to do to a table of real files exactly when it fits. -/
theorem fd_right_iff (hclean : Clean p) (hn : TakesFd r.eax.toNat) :
    CallRight b r p s ↔ CallFits b r p s := by
  obtain ⟨f, hf, hcase⟩ := takesFd_call hn
  have hlt : r.eax.toNat < 256 := by
    rcases hn with h | h | h <;> omega
  have h5 : r.eax.toNat ≠ 5 := by
    rcases hn with h | h | h <;> omega
  have hfd : f = .read ∨ f = .write ∨ f = .close := by
    rcases hcase with ⟨-, h⟩ | ⟨-, h⟩ | ⟨-, h⟩ <;> simp [h]
  constructor
  · intro hright
    have hin : 0 ≤ r.ebx.toInt ∧ r.ebx.toInt < 128 := by
      by_contra hout
      obtain ⟨res, hres⟩ := hright.safe
      cases (outside_error hlt hf hfd hout).symm.trans hres
    refine ⟨fun _ => hin, fun h3 i hi => ?_, fun h => absurd h h5⟩
    refine ((inside_spec hlt hf hfd hi).mp hright.safe).2 ?_
    rcases hcase with ⟨-, h⟩ | ⟨h, -⟩ | ⟨h, -⟩
    · exact h
    · omega
    · omega
  · intro hfits
    obtain ⟨i, hi, -⟩ := entry_ok (hfits.fd hn)
    refine ⟨(inside_spec hlt hf hfd hi).mpr ⟨fun _ => hclean i, fun hread => ?_⟩,
      fun h => absurd h h5, fun h => absurd h h5, fun h6 j hj hnull => ?_, fun h34 r' p' s' hok j => ?_⟩
    · refine hfits.readable ?_ i hi
      rcases hcase with ⟨h, -⟩ | ⟨-, h⟩ | ⟨-, h⟩
      · exact h
      · exact absurd (hread.symm.trans h) (by decide)
      · exact absurd (hread.symm.trans h) (by decide)
    · rw [syscallHub_close h6 hj, if_neg (fun h => hnull (isNull_iff.mp h))]
    · rcases h34 with h3 | h4
      · rcases syscallHub_read h3 hi hok with rfl | ⟨g, g', hg, rfl⟩
        · exact ⟨rfl, fun _ => rfl⟩
        · by_cases hji : j = i
          · subst hji
            refine ⟨by rw [Process.set_self, hg]; rfl, fun hne => absurd hi hne⟩
          · exact ⟨by rw [Process.set_of_ne hji], fun _ => Process.set_of_ne hji⟩
      · rw [syscallHub_write h4 hi hok]
        exact ⟨rfl, fun _ => rfl⟩

end Descriptor

section Run

/-- A fitting file call keeps the table free of error codes. -/
theorem Clean.call (hclean : Clean p) (hcall : FileCall r) (hfits : CallFits b r p s)
    (hok : syscallHub b r p s = .ok (some (r', p', s'))) : Clean p' := by
  rcases hcall with h5 | hn
  · rw [syscallHub_open h5] at hok
    cases hopen : b.vfsOpen r.ebx s with
    | none =>
      rw [hopen] at hok
      cases hok
    | some res =>
      obtain ⟨filp, s₁⟩ := res
      rw [hopen] at hok
      cases hfree : freeEntry p with
      | none =>
        simp only [Option.map_some, hfree] at hok
        cases hok
        exact hclean
      | some i =>
        simp only [Option.map_some, hfree] at hok
        cases hok
        refine hclean.set fun e he => ?_
        cases filp with
        | ok f => cases he
        | error e' =>
          have hlow := freeEntry_some hfree
          exact hfits.opens h5 e' _ hopen i hlow.1 hlow.2.1
  · obtain ⟨i, hi, -⟩ := entry_ok (hfits.fd hn)
    rcases hn with h3 | h4 | h6
    · rcases syscallHub_read h3 hi hok with rfl | ⟨g, g', hg, rfl⟩
      · exact hclean
      · exact hclean.set fun e he => by cases he
    · rw [syscallHub_write h4 hi hok]
      exact hclean
    · rw [syscallHub_close h6 hi] at hok
      split at hok
      · cases hok
        exact hclean
      · cases hok
        exact hclean.set fun e he => by cases he

/-- Along a sequence of file calls every entry that is not null is a real file, and every call does
what it has to do to the table. -/
def RunRight (b : Backend σ) : List PtRegs → Process → σ → Prop
  | [], p, _ => Clean p
  | r :: rs, p, s => Clean p ∧ CallRight b r p s ∧
    ∀ r' p' s', syscallHub b r p s = .ok (some (r', p', s')) → RunRight b rs p' s'

/-- Every call of a sequence fits, in the state it comes to. -/
def RunFits (b : Backend σ) : List PtRegs → Process → σ → Prop
  | [], _, _ => True
  | r :: rs, p, s => CallFits b r p s ∧
    ∀ r' p' s', syscallHub b r p s = .ok (some (r', p', s')) → RunFits b rs p' s'

theorem runRight_iff (rs : List PtRegs) (hcalls : ∀ r ∈ rs, FileCall r) (hclean : Clean p) :
    RunRight b rs p s ↔ RunFits b rs p s := by
  induction rs generalizing p s with
  | nil => exact iff_of_true hclean trivial
  | cons r rs ih =>
    have hcall := hcalls r (by simp)
    have hstep : CallRight b r p s ↔ CallFits b r p s := by
      rcases hcall with h5 | hn
      · exact open_right_iff h5
      · exact fd_right_iff hclean hn
    rw [RunRight, RunFits, hstep]
    constructor
    · rintro ⟨-, hfits, hrest⟩
      exact ⟨hfits, fun r' p' s' hok =>
        (ih (fun q hq => hcalls q (by simp [hq])) (hclean.call hcall hfits hok)).mp
          (hrest r' p' s' hok)⟩
    · rintro ⟨hfits, hrest⟩
      exact ⟨hclean, hfits, fun r' p' s' hok =>
        (ih (fun q hq => hcalls q (by simp [hq])) (hclean.call hcall hfits hok)).mpr
          (hrest r' p' s' hok)⟩

/-- From a table with only descriptor 1 open, a sequence of file calls keeps the table as it should be
exactly when every call of it fits. -/
theorem fileTable_right_iff (b : Backend σ) {p : Process} (hp : Fresh p) (rs : List PtRegs)
    (hcalls : ∀ r ∈ rs, FileCall r) (s : σ) : RunRight b rs p s ↔ RunFits b rs p s :=
  runRight_iff rs hcalls hp.clean

end Run

/-- `open(path, ..)` and `close(fd)`. -/
def openCall (path : BitVec 32) : PtRegs := ⟨0, 0, 0, 0, 0, 0, path, 0, 0, 5, 0, 0, 0⟩

def closeCall (fd : BitVec 32) : PtRegs := ⟨0, 0, 0, 0, 0, 0, fd, 0, 0, 6, 0, 0, 0⟩

/-- A file system that has no room for another file. -/
def roomless : Backend Unit :=
  { silent with vfsOpen := fun _ s => some (.error (-ENOMEM), s) }

/-- The error code of a failed open is bound to descriptor 3. -/
theorem open_code :
    syscallHub roomless (openCall 0x1000) (freshProcess 2) () = .ok (some
      ({ openCall 0x1000 with eax := 3 }, (freshProcess 2).set 3 (.code (-ENOMEM)), ())) ∧
    ¬RunRight roomless [openCall 0x1000] (freshProcess 2) () := by
  have hopen : syscallHub roomless (openCall 0x1000) (freshProcess 2) () = .ok (some
      ({ openCall 0x1000 with eax := 3 }, (freshProcess 2).set 3 (.code (-ENOMEM)), ())) := rfl
  exact ⟨hopen, fun hright => hright.2.2 _ _ _ hopen 3 (-ENOMEM) rfl⟩

/-- A file system that opens every path. -/
def willing (f : Ext2.File) : Backend Unit :=
  { silent with vfsOpen := fun _ s => some (.ok (.ext2 f), s) }

/-- Opening a file and closing it again. -/
theorem fileTable_openClose :
    ∃ f, RunRight (willing f) [openCall 0x1000, closeCall 3] (freshProcess 2) () := by
  let f : Ext2.File := ⟨⟨fun _ _ => 0, 2, 1024, 2, 8, 8⟩, ⟨[], by decide⟩, -1, 0⟩
  refine ⟨f, (fileTable_right_iff (willing f) (freshProcess_fresh 2) _ ?_ ()).mpr ?_⟩
  · intro r hr
    rcases List.mem_pair.mp hr with rfl | rfl
    · exact .inl rfl
    · exact .inr (.inr (.inr rfl))
  · refine ⟨⟨fun h => ?_, fun h => ?_, fun _ e s' h => ?_⟩, fun r' p' s' hok =>
      ⟨⟨fun _ => by decide, fun h => ?_, fun h => ?_⟩, fun _ _ _ _ => trivial⟩⟩
    · rcases h with h | h | h <;> cases h
    · cases h
    · cases h
    · cases h
    · cases h

end Levos.Kernel
