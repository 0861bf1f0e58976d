import Levos.Framework.Run
import Levos.Liballoc.MakeProcess

namespace Levos.Liballoc

open Levos.Framework Levos.Memory

/-- The kernel, with the pids of the processes that `sched_mk_process` has created. -/
structure Processes where
  kernel : Kernel
  pids : List (BitVec 32)

/-- Between two calls of `sched_mk_process` the rest of the kernel works with the heap. -/
inductive ProcessEvent
  | make (cr3 : BitVec 32) (comm entry : Nat)
  | heap (s : State)

/-- The `pid` of the process at `p`. -/
def Kernel.pidOf (k : Kernel) (p : Nat) : BitVec 32 := k.heap.mm.mem.word (p + 4)

def ProcessStep (s : Processes) : ProcessEvent → Processes → Prop
  | .make cr3 comm entry, s' => ∃ p k, schedMkProcess s.kernel cr3 comm entry = .ok (p, k) ∧
      s' = ⟨k, if p = 0 then s.pids else s.pids ++ [k.pidOf p]⟩
  | .heap h, s' => h.Ready ∧ s' = ⟨{ s.kernel with heap := h }, s.pids⟩

namespace ProcessEvent

/-- A call is all or nothing, and what it creates has a pid of its own. -/
def Right (s : Processes) : ProcessEvent → Prop
  | .make cr3 comm entry => MakesRight s.kernel cr3 comm entry ∧
      ∀ p k, schedMkProcess s.kernel cr3 comm entry = .ok (p, k) → p ≠ 0 → k.pidOf p ∉ s.pids
  | .heap _ => True

/-- A call has nothing to do, or each of its allocations has the memory it needs and there are fewer
processes than pids. -/
def Met (s : Processes) : ProcessEvent → Prop
  | .make cr3 comm entry =>
    comm = 0 ∨ entry = 0 ∨ (Provided s.kernel cr3 comm entry ∧ s.pids.length < 2 ^ 32)
  | .heap _ => True

end ProcessEvent

/-- The pids are the values that `global_pid` went through. -/
structure Numbered (s : Processes) : Prop where
  ready : s.kernel.heap.Ready
  pids : ∃ g, s.kernel.globalPid = g + s.pids.length ∧
    s.pids = (List.range s.pids.length).map fun i => BitVec.ofNat 32 (g + i)

section Numbered

variable {s s' : Processes} {e : ProcessEvent} {cr3 : BitVec 32} {comm entry : Nat}

/-- The next pid is new until all pids were given. -/
theorem Numbered.fresh (h : Numbered s) :
    BitVec.ofNat 32 s.kernel.globalPid ∉ s.pids ↔ s.pids.length < 2 ^ 32 := by
  obtain ⟨g, hg, hpids⟩ := h.pids
  generalize s.pids.length = n at hg hpids
  rw [hg, hpids, List.mem_map]
  constructor
  · intro hnew
    by_contra hlt
    apply hnew
    refine ⟨n - 2 ^ 32, List.mem_range.mpr (by omega), ?_⟩
    apply BitVec.eq_of_toNat_eq
    rw [BitVec.toNat_ofNat, BitVec.toNat_ofNat]
    omega
  · rintro hlt ⟨i, hi, heq⟩
    have hi' := List.mem_range.mp hi
    have hnat := congrArg BitVec.toNat heq
    rw [BitVec.toNat_ofNat, BitVec.toNat_ofNat] at hnat
    omega

/-- Call by call. -/
theorem Numbered.right_iff (h : Numbered s) : e.Right s ↔ e.Met s := by
  cases e with
  | heap t => exact Iff.rfl
  | make cr3 comm entry =>
    simp only [ProcessEvent.Right, ProcessEvent.Met, makesRight_iff h.ready]
    by_cases hnull : comm = 0 ∨ entry = 0
    · have hcall : schedMkProcess s.kernel cr3 comm entry = .ok (0, s.kernel) := by
        rw [schedMkProcess, if_pos hnull]
      have hzero (p : Nat) (k : Kernel) (hp : schedMkProcess s.kernel cr3 comm entry = .ok (p, k)) :
          p = 0 := by
        rw [hcall] at hp
        exact (congrArg Prod.fst (Except.ok.inj hp)).symm
      constructor
      · intro _
        tauto
      · intro _
        exact ⟨by tauto, fun p k hp hp0 => absurd (hzero p k hp) hp0⟩
    · obtain ⟨hcomm, hentry⟩ : comm ≠ 0 ∧ entry ≠ 0 := by tauto
      simp only [hcomm, hentry, false_or]
      apply and_congr_right
      intro hprovided
      obtain ⟨p, k', hcall, hp0, hcreated⟩ := schedMkProcess_created h.ready hcomm hentry hprovided
      obtain ⟨t, threads, dir, f, -, hfields, -⟩ := hcreated.parts
      rw [← h.fresh, ← hfields.pid]
      constructor
      · intro hall
        exact hall p k' hcall hp0
      · intro hnew q k hq _
        cases hcall.symm.trans hq
        exact hnew

theorem Numbered.step (h : Numbered s) (hright : e.Right s) (hstep : ProcessStep s e s') :
    Numbered s' := by
  cases e with
  | heap t =>
    obtain ⟨ht, rfl⟩ := hstep
    exact ⟨ht, h.pids⟩
  | make cr3 comm entry =>
    obtain ⟨p, k, hcall, rfl⟩ := hstep
    have hmet := h.right_iff.mp hright
    by_cases hnull : comm = 0 ∨ entry = 0
    · rw [schedMkProcess, if_pos hnull] at hcall
      cases hcall
      exact h
    · obtain ⟨hcomm, hentry⟩ : comm ≠ 0 ∧ entry ≠ 0 := by tauto
      have hprovided := (hmet.resolve_left hcomm).resolve_left hentry
      obtain ⟨q, k', hcall', hq0, hcreated⟩ :=
        schedMkProcess_created h.ready hcomm hentry hprovided.1
      cases hcall.symm.trans hcall'
      obtain ⟨t, threads, dir, f, -, hfields, -⟩ := hcreated.parts
      obtain ⟨g, hg, hpids⟩ := h.pids
      refine ⟨hcreated.ready, g, ?_, ?_⟩
      · simp only [if_neg hq0, List.length_append, List.length_singleton]
        rw [hcreated.counted, hg]
        omega
      · simp only [if_neg hq0, List.length_append, List.length_singleton, List.range_succ, List.map_append,
          List.map_singleton]
        rw [← hpids, ← hg]
        exact congrArg (fun w => s.pids ++ [w]) hfields.pid

end Numbered

/-- In a run each call is all or nothing and gives out a pid of its own exactly when each has the memory
it needs and pids are left. -/
theorem processes_right_iff {k : Kernel} (es : List ProcessEvent) (hk : k.heap.Ready) :
    EachLabel ProcessStep ⟨k, []⟩ es (fun s e => e.Right s) ↔
      EachLabel ProcessStep ⟨k, []⟩ es fun s e => e.Met s := by
  have hstart : Numbered ⟨k, []⟩ := ⟨hk, k.globalPid, rfl, rfl⟩
  apply eachLabel_iff hstart
  · exact fun s e _ h => h.right_iff
  · exact fun s e s' _ h hright hstep => h.step hright hstep

/-- Some block has room for `n` bytes. -/
def State.hasRoom (s : State) (n : Nat) : Bool := s.majors.any fun M => (M.room (n + 32)).isSome

theorem Granted.of_hasRoom {s : State} {n : Nat} (h : s.hasRoom n = true) : Granted s n := by
  intro hfull
  obtain ⟨M, hM, hroom⟩ := List.any_eq_true.mp h
  rw [hfull M hM] at hroom
  cases hroom

/-- Where memory has all its page tables, a free run is enough. -/
theorem runMeets_of_free {s : Mm} {f n : Nat} (h16 : 16 ≤ s.nframes) (hrun : Memory.FreeRun s f n)
    (htbl : ∀ g < s.nframes, s.tbl (g / 1024) ≠ 0) : RunMeets s n := by
  obtain ⟨g, hg, hlowest⟩ := Memory.exists_lowest ⟨f, hrun⟩
  have hend := hg.1
  have hnone : s.tablesMissing g n = 0 := tablesMissing_zero fun j hj => htbl (g + j) (by omega)
  exact .inl ⟨h16, g, hg, hlowest, .inl hnone⟩

/-- 0x120 frames of memory with their page table, the first `n` of them in use, and paging switched on. -/
def usedMemory (n : Nat) : Mm where
  mem := fun x =>
    if 0x100000 ≤ x ∧ x < 0x100040 then BitVec.ofNat 8 (2 ^ (n - 8 * (x - 0x100000)) - 1)
    else if x = 0x102001 then 0x40#8 else if x = 0x102002 then 0x10#8
    else if x = 0x103001 ∨ x = 0x103002 then 0x10#8 else 0#8
  nframes := 0x120
  frames := 0x100000
  kernelDir := 0x101000
  currentDirectory := 0x101000
  plp := 0x105000
  heapOnline := true

/-- The heap has an empty block there, on the frames from 0x105 on. -/
def usedKernel (n : Nat) : Kernel where
  heap := ⟨usedMemory n, 0, [⟨0x105000, 16, 24, []⟩], none⟩
  globalPid := 0
  consoleFile := 0x1000

section UsedKernel

variable {n : Nat}

theorem usedMemory_used {g : Nat} (hg : g < 0x120) : (usedMemory n).used g = decide (g < n) := by
  have hbase : (usedMemory n).frames = 0x100000 := rfl
  have hbyte : (usedMemory n).mem (0x100000 + g / 8) = BitVec.ofNat 8 (2 ^ (n - 8 * (g / 8)) - 1) := by
    refine (if_pos ⟨by omega, by omega⟩).trans ?_
    rw [Nat.add_sub_cancel_left]
  rw [Mm.used, hbase, Memory.bit_eq_byte, hbyte, BitVec.getLsbD_ofNat, Nat.testBit_two_pow_sub_one,
    decide_eq_true (by omega), Bool.true_and, decide_eq_decide]
  omega

theorem usedMemory_tbl {t : Nat} (ht : t < 1024) :
    (usedMemory n).tbl t = if t = 0 then 0x104000 else 0 := by
  have hmem (x : Nat) (h1 : 0x102000 ≤ x) (h2 : x < 0x103000) : (usedMemory n).mem x =
      if x = 0x102001 then 0x40#8 else if x = 0x102002 then 0x10#8 else 0#8 := by
    simp only [usedMemory, show ¬(0x100000 ≤ x ∧ x < 0x100040) by omega,
      show ¬(x = 0x103001 ∨ x = 0x103002) by omega, if_false]
  have hdir : (usedMemory n).kernelDir = 0x101000 := rfl
  rw [Mm.tbl, Mm.table, Memory.word, hdir, hmem _ (by omega) (by omega), hmem _ (by omega) (by omega),
    hmem _ (by omega) (by omega), hmem _ (by omega) (by omega)]
  by_cases h0 : t = 0
  · subst h0
    rfl
  · have hne (c : Nat) (hc : c < 4) : ¬(0x101000 + 4096 + 4 * t + c = 0x102001) ∧
        ¬(0x101000 + 4096 + 4 * t + c = 0x102002) := by omega
    have hfirst := hne 0 (by decide)
    rw [Nat.add_zero] at hfirst
    simp only [hne 1 (by decide), hne 2 (by decide), hne 3 (by decide), hfirst, if_false, h0]
    rfl

theorem usedMemory_managed (hn : 0x105 ≤ n) : Managed (usedMemory n) := by
  have hplp : (usedMemory n).plp = 0x105000 := rfl
  have hnframes : (usedMemory n).nframes = 0x120 := rfl
  have hframes : (usedMemory n).frames = 0x100000 := rfl
  have hdir : (usedMemory n).kernelDir = 0x101000 := rfl
  have hsize : pageDirSize = 8196 := rfl
  have hwords : (usedMemory n).frameWords = 18 := by
    rw [Mm.frameWords, hnframes]
    decide
  refine ⟨⟨by omega, by omega, by omega, ?_, ?_, ?_⟩, rfl, by omega, by omega, by omega, ?_⟩
  · intro t ht hne
    rw [usedMemory_tbl ht] at hne ⊢
    split_ifs at hne ⊢
    · unfold pageTableSize
      omega
    · exact absurd rfl hne
  · intro t ht
    rw [usedMemory_tbl ht]
    split_ifs <;> rfl
  · intro t ht u hu hne heq
    rw [usedMemory_tbl ht] at hne heq
    rw [usedMemory_tbl hu] at heq
    split_ifs at * <;> omega
  · intro f hf
    rw [usedMemory_used (by omega), decide_eq_true_eq]
    omega

theorem usedKernel_ready (hn : 0x115 ≤ n) : (usedKernel n).heap.Ready := by
  have hone (M : Major) (hM : M ∈ (usedKernel n).heap.majors) : M = ⟨0x105000, 16, 24, []⟩ :=
    List.mem_singleton.mp hM
  have hplp : (usedKernel n).heap.mm.plp = 0x105000 := rfl
  have hnframes : (usedKernel n).heap.mm.nframes = 0x120 := rfl
  refine ⟨⟨usedMemory_managed (by omega), ?_, ?_, ?_⟩, rfl⟩
  · intro M hM
    rw [hone M hM]
    exact ⟨by decide, by decide, by simp [Packed, majorHeader, Major.stop], by simp, fun _ => rfl⟩
  · intro M hM
    rw [hone M hM]
    refine ⟨Nat.le_of_eq hplp, 0x105, rfl, ?_, ?_⟩
    · rw [hnframes]
      decide
    · intro g h1 h2
      simp only at h2
      refine (usedMemory_used (by omega)).trans ?_
      rw [decide_eq_true_eq]
      omega
  · exact List.pairwise_singleton _ _

end UsedKernel

/-- With frames left all that `sched_mk_process` asks for is there. -/
theorem usedKernel_provided : Provided (usedKernel 0x115) 0 1 1 := by
  refine ⟨.of_hasRoom (by decide +kernel), ?_⟩
  intro p s₁ h₁
  have hobs : (do
      let r ← (usedKernel 0x115).heap.kmalloc processSize
      return r.2.hasRoom threadSize) = .ok true := by decide +kernel
  simp only [h₁, ok_bind] at hobs
  refine ⟨.of_hasRoom (Except.ok.inj hobs), ?_⟩
  intro t s₂ h₂
  have hobs : (do
      let r ← (usedKernel 0x115).heap.kmalloc processSize
      let r ← r.2.kmalloc threadSize
      return r.2.hasRoom 4) = .ok true := by decide +kernel
  simp only [h₁, h₂, ok_bind] at hobs
  refine ⟨.of_hasRoom (Except.ok.inj hobs), ?_⟩
  intro threads s₃ h₃
  have hobs : (do
      let p ← (usedKernel 0x115).heap.kmalloc processSize
      let t ← p.2.kmalloc threadSize
      let a ← t.2.kmalloc 4
      return ((usedKernel 0x115).initialised a.2 p.1 t.1 a.1 1 0).hasRoom pageDirSize) = .ok true := by
    decide +kernel
  simp only [h₁, h₂, h₃, ok_bind] at hobs
  refine ⟨.of_hasRoom (Except.ok.inj hobs), ?_⟩
  intro e s₄ h₄
  have hobs : (do
      let p ← (usedKernel 0x115).heap.kmalloc processSize
      let t ← p.2.kmalloc threadSize
      let a ← t.2.kmalloc 4
      let d ← ((usedKernel 0x115).initialised a.2 p.1 t.1 a.1 1 0).archSchedMakeAddressSpace p.1
      let s := setInsPtr d.2 t.1 1
      return (s.mm.nframes, s.mm.used 277, s.mm.tbl 0)) = .ok (0x120, false, 0x104000) := by
    decide +kernel
  simp only [h₁, h₂, h₃, h₄, ok_bind] at hobs
  obtain ⟨hcount, hfree, htbl⟩ : (setInsPtr s₄ t 1).mm.nframes = 0x120 ∧
      (setInsPtr s₄ t 1).mm.used 277 = false ∧ (setInsPtr s₄ t 1).mm.tbl 0 = 0x104000 := by
    simpa [pure, Except.pure] using hobs
  refine runMeets_of_free (f := 277) (by omega) ⟨by omega, ?_⟩ ?_
  · intro j hj
    obtain rfl : j = 0 := by omega
    exact hfree
  · intro g hg
    rw [show g / 1024 = 0 by omega, htbl]
    decide

/-- A process is created. -/
theorem usedKernel_process :
    EachLabel ProcessStep ⟨usedKernel 0x115, []⟩ [.make 0 1 1] fun s e => e.Right s := by
  apply (processes_right_iff _ (usedKernel_ready (by decide))).mpr
  apply EachLabel.cons
  · exact .inr (.inr ⟨usedKernel_provided, by decide⟩)
  · exact fun _ _ => EachLabel.nil

/-- With no frame left for the stack `sched_mk_process` does not come back: it clears a page at the last
address of all, where there is none. -/
theorem usedKernel_stack :
    (usedKernel 0x120).heap.Ready ∧ schedMkProcess (usedKernel 0x120) 0 1 1 = .error pageFault ∧
      ¬EachLabel ProcessStep ⟨usedKernel 0x120, []⟩ [.make 0 1 1] fun s e => e.Right s := by
  have hobs : (match schedMkProcess (usedKernel 0x120) 0 1 1 with
      | .error e => some e
      | .ok _ => none) = some pageFault := by decide +kernel
  have hfault : schedMkProcess (usedKernel 0x120) 0 1 1 = .error pageFault := by
    cases hcall : schedMkProcess (usedKernel 0x120) 0 1 1 with
    | error e =>
      rw [hcall] at hobs
      exact congrArg Except.error (Option.some.inj hobs)
    | ok r =>
      rw [hcall] at hobs
      cases hobs
  refine ⟨usedKernel_ready (by decide), hfault, ?_⟩
  intro hright
  obtain ⟨r, k, hcall, -⟩ := (hright [] (.make 0 1 1) [] ⟨usedKernel 0x120, []⟩ rfl (.nil _)).1
  cases hfault.symm.trans hcall

end Levos.Liballoc
