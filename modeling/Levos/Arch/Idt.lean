import Levos.Arch.Resume
import Levos.Framework.ByteMemory
import Mathlib.Data.BitVec
import Mathlib.Data.List.FinRange
import Mathlib.Data.List.Nodup

namespace Levos.Arch

/-- `struct idt_e`. -/
structure IdtEntry where
  baseLow : BitVec 16
  sel : BitVec 16
  nil : BitVec 8
  flags : BitVec 8
  baseHigh : BitVec 16
  deriving DecidableEq

abbrev Idt := BitVec 8 → IdtEntry

def idtSetInt (idt : Idt) (n : BitVec 8) (base : BitVec 32) (sel : BitVec 16) (flags : BitVec 8) : Idt :=
  Function.update idt n
    { baseLow := (base &&& 0xFFFF).truncate 16
      baseHigh := ((base >>> 16) &&& 0xFFFF).truncate 16
      sel := sel
      nil := 0
      flags := flags ||| 0x60 }

/-- `irq_set`: of the number `i`, `idt_set_int` takes the low byte. -/
def irqSet (idt : Idt) (i : BitVec 32) (h : BitVec 32) : Idt :=
  idtSetInt idt (i.truncate 8) h 0x08 0x8E

/-- The functions that gates lead to: the exceptions of `exceptions_init` by their numbers, and the
stubs of `DEF_IRQ_HANDLER`. -/
inductive Handler
  | idtNoopIrq
  | exception (k : Fin 16)
  | stub (irq : Irq)
  deriving DecidableEq

section Boot

-- where the linker has put the functions
variable (addr : Handler → BitVec 32)

/-- `idt_init`, up to `lidt`. What `post_schedule_noirq` does is a call at its end, which `-O2` makes a jump
to the stub. -/
def idtInit (idt : Idt) : Idt :=
  let idt := (List.range 256).foldl
    (fun idt i => idtSetInt idt (BitVec.ofNat 8 i) (addr .idtNoopIrq) 0x08 0x8E) idt
  idtSetInt idt 0x2F (addr (.stub .schedule)) 0x08 0x8E

def exceptionsInit : List (BitVec 32 × Handler) :=
  (List.finRange 16).map fun k => (BitVec.ofNat 32 k.val, .exception k)

def pitInit : List (BitVec 32 × Handler) := [(32, .stub .timer)]

def ataInit : List (BitVec 32 × Handler) := [(0x20 + 14, .stub .ide)]

def keyboardInit : List (BitVec 32 × Handler) := [(33, .stub .keyboard)]

def syscallInit : List (BitVec 32 × Handler) := [(0x80, .stub .syscall)]

/-- The calls of `irq_set` during the boot, in their order. -/
def bootIrqs : List (BitVec 32 × Handler) :=
  exceptionsInit ++ pitInit ++ ataInit ++ keyboardInit ++ syscallInit

def irqSets (idt : Idt) (calls : List (BitVec 32 × Handler)) : Idt :=
  calls.foldl (fun idt c => irqSet idt c.1 (addr c.2)) idt

/-- What the boot leaves in the table. -/
def bootIdt (idt : Idt) : Idt := irqSets addr (idtInit addr idt) bootIrqs

end Boot

/-- The processor goes through a gate: the code it enters, if the gate is a present interrupt gate of
32 bits, and the privilege that `int` needs. -/
def IdtEntry.enter (e : IdtEntry) : Option (BitVec 32 × BitVec 16 × BitVec 2) :=
  if e.flags.getLsbD 7 && e.flags.extractLsb' 0 5 == 0x0E#5 then
    some (e.baseHigh ++ e.baseLow, e.sel, e.flags.extractLsb' 5 2)
  else none

/-- The handler that the boot registers for a vector. -/
def bootHandler (v : BitVec 8) : Handler :=
  if h : v.toNat < 16 then .exception ⟨v.toNat, h⟩
  else if v = 0x20 then .stub .timer
  else if v = 0x21 then .stub .keyboard
  else if v = 0x2E then .stub .ide
  else if v = 0x2F then .stub .schedule
  else if v = 0x80 then .stub .syscall
  else .idtNoopIrq

section Specs

variable {addr : Handler → BitVec 32} {idt : Idt} {calls : List (BitVec 32 × Handler)}

theorem enter_of_flags (e : IdtEntry) (h : e.flags = 0xEE) :
    e.enter = some (e.baseHigh ++ e.baseLow, e.sel, 3) := by
  rw [IdtEntry.enter, h]
  rfl

/-- A gate leads to the function it was set to, in ring 0, and any ring may use it. -/
theorem idtSetInt_enter (idt : Idt) (n : BitVec 8) (base : BitVec 32) :
    (idtSetInt idt n base 0x08 0x8E n).enter = some (base, 8, 3) := by
  have hbase : ((base >>> 16) &&& 0xFFFF).truncate 16 ++ (base &&& 0xFFFF).truncate 16 = base :=
    @Framework.append_halves 16 base 0xFFFF (by decide)
  rw [idtSetInt, Function.update_self, enter_of_flags _ rfl, hbase]

theorem idtSetInt_of_ne {n v : BitVec 8} (h : v ≠ n) (base : BitVec 32) (sel : BitVec 16)
    (flags : BitVec 8) : idtSetInt idt n base sel flags v = idt v := Function.update_of_ne h ..

/-- After any calls of `irq_set`, a gate leads where the last call for its number modulo 256 says. -/
theorem irqSets_enter (idt : Idt) (calls : List (BitVec 32 × Handler)) (v : BitVec 8) :
    (irqSets addr idt calls v).enter =
      match calls.reverse.find? fun c => c.1.truncate 8 = v with
      | some c => some (addr c.2, 8, 3)
      | none => (idt v).enter := by
  induction calls using List.reverseRecOn with
  | nil => rfl
  | append_singleton calls c ih =>
    rw [irqSets, List.foldl_append, List.reverse_concat, List.find?_cons]
    by_cases hv : c.1.truncate 8 = v
    · simp only [List.foldl_cons, List.foldl_nil, hv, decide_true]
      rw [irqSet, hv]
      exact idtSetInt_enter ..
    · simp only [List.foldl_cons, List.foldl_nil, hv, decide_false]
      rw [irqSet, idtSetInt_of_ne fun he => hv he.symm]
      exact ih

theorem irqSet_enter (idt : Idt) (c : BitVec 32 × Handler) (v : BitVec 8) :
    (irqSet idt c.1 (addr c.2) v).enter =
      if c.1.truncate 8 = v then some (addr c.2, 8, 3) else (idt v).enter := by
  have hone := @irqSets_enter addr idt [c] v
  by_cases hv : c.1.truncate 8 = v
  · rw [if_pos hv]
    simpa [irqSets, hv] using hone
  · rw [if_neg hv]
    simpa [irqSets, hv] using hone

theorem idtInit_eq (idt : Idt) : idtInit addr idt = irqSets addr idt
    ((List.range 256).map (fun i => (BitVec.ofNat 32 i, .idtNoopIrq)) ++ [(0x2F, .stub .schedule)]) := by
  have hcut (i : Nat) : (BitVec.ofNat 32 i).truncate 8 = BitVec.ofNat 8 i := by
    apply BitVec.eq_of_toNat_eq
    simp only [BitVec.truncate_eq_setWidth, BitVec.toNat_setWidth, BitVec.toNat_ofNat]
    omega
  rw [irqSets, List.foldl_append, List.foldl_map]
  simp only [irqSet, hcut]
  rfl

/-- The empty gates of `idt_init` all lead to `idt_noop_irq`. -/
theorem idtInit_enter (idt : Idt) (v : BitVec 8) :
    (idtInit addr idt v).enter =
      some (addr (if v = 0x2F then .stub .schedule else .idtNoopIrq), 8, 3) := by
  rw [idtInit_eq, irqSets_enter, List.reverse_concat, List.find?_cons]
  by_cases hv : v = 0x2F
  · subst hv
    rfl
  · have hlast : decide ((0x2F : BitVec 32).truncate 8 = v) = false := decide_eq_false fun he => hv he.symm
    rw [hlast, if_neg hv]
    dsimp only
    cases hfind : ((List.range 256).map fun i => (BitVec.ofNat 32 i, Handler.idtNoopIrq)).reverse.find?
        fun c => c.1.truncate 8 = v with
    | some c =>
      have hmem := List.mem_of_find?_eq_some hfind
      rw [List.mem_reverse, List.mem_map] at hmem
      obtain ⟨i, -, rfl⟩ := hmem
      rfl
    | none =>
      have hnot := List.find?_eq_none.mp hfind (BitVec.ofNat 32 v.toNat, .idtNoopIrq) (by
        rw [List.mem_reverse, List.mem_map]
        exact ⟨v.toNat, List.mem_range.mpr v.isLt, rfl⟩)
      simp at hnot

/-- With one call for each number, the call for a number is found wherever it stands. -/
theorem find_key (hkeys : (calls.map fun c => c.1.truncate 8).Nodup) (v : BitVec 8)
    (c : BitVec 32 × Handler) : calls.reverse.find? (fun c => c.1.truncate 8 = v) = some c ↔
      c ∈ calls ∧ c.1.truncate 8 = v := by
  refine ⟨fun h => ⟨List.mem_reverse.mp (List.mem_of_find?_eq_some h), by simpa using List.find?_some h⟩,
    fun ⟨hc, hv⟩ => ?_⟩
  cases hfind : calls.reverse.find? fun c => c.1.truncate 8 = v with
  | none =>
    have hnot := List.find?_eq_none.mp hfind c (List.mem_reverse.mpr hc)
    exact absurd (decide_eq_true hv) hnot
  | some d =>
    have hd : d ∈ calls := List.mem_reverse.mp (List.mem_of_find?_eq_some hfind)
    have hdv : d.1.truncate 8 = v := by simpa using List.find?_some hfind
    exact congrArg some (List.inj_on_of_nodup_map hkeys hd hc (hdv.trans hv.symm))

/-- Calls for different numbers may come in any order. -/
theorem irqSets_perm {calls' : List (BitVec 32 × Handler)} (h : calls.Perm calls')
    (hkeys : (calls.map fun c => c.1.truncate 8).Nodup) (idt : Idt) (v : BitVec 8) :
    (irqSets addr idt calls v).enter = (irqSets addr idt calls' v).enter := by
  have hkeys' := (h.map fun c => c.1.truncate 8).nodup_iff.mp hkeys
  have hfind : calls.reverse.find? (fun c => c.1.truncate 8 = v) =
      calls'.reverse.find? fun c => c.1.truncate 8 = v := by
    apply Option.ext
    intro c
    rw [find_key hkeys, find_key hkeys', h.mem_iff]
  rw [irqSets_enter, irqSets_enter, hfind]

/-- The handler of a vector is that of the last call for it. -/
theorem bootHandler_eq (v : BitVec 8) : bootHandler v =
    match bootIrqs.reverse.find? fun c => c.1.truncate 8 = v with
    | some c => c.2
    | none => if v = 0x2F then .stub .schedule else .idtNoopIrq := by
  have hall : ∀ n : Fin (2 ^ 8), bootHandler (BitVec.ofFin n) =
      match bootIrqs.reverse.find? fun c => c.1.truncate 8 = BitVec.ofFin n with
      | some c => c.2
      | none => if BitVec.ofFin n = 0x2F then .stub .schedule else .idtNoopIrq := by
    decide +kernel
  exact hall v.toFin

theorem bootIdt_enter (idt : Idt) (addr : Handler → BitVec 32) (v : BitVec 8) :
    (bootIdt addr idt v).enter = some (addr (bootHandler v), 8, 3) := by
  rw [bootIdt, irqSets_enter, idtInit_enter, bootHandler_eq]
  split <;> rfl

end Specs

/-- The drivers register their handlers, in any order: every vector leads to its own handler. -/
theorem boot_vectors (addr : Handler → BitVec 32) (idt : Idt) (calls : List (BitVec 32 × Handler))
    (h : calls.Perm bootIrqs) (v : BitVec 8) :
    (irqSets addr (idtInit addr idt) calls v).enter = some (addr (bootHandler v), 8, 3) := by
  have hboot : (bootIrqs.map fun c => c.1.truncate 8).Nodup := by decide
  have hkeys := (h.map fun c => c.1.truncate 8).nodup_iff.mpr hboot
  rw [irqSets_perm h hkeys]
  exact bootIdt_enter idt addr v

/-- Some places for the functions. -/
def someAddr : Handler → BitVec 32
  | .idtNoopIrq => 0x100000
  | .exception k => 0x100010 + BitVec.ofNat 32 k
  | .stub irq => 0x100100 + irq.number.zeroExtend 32

theorem someAddr_injective : Function.Injective someAddr := by
  have hexc : ∀ j k : Fin 16, someAddr (.exception j) = someAddr (.exception k) → j = k := by decide
  have hnoop : ∀ k : Fin 16, someAddr (.exception k) ≠ someAddr .idtNoopIrq := by decide
  have hstub (irq : Irq) : someAddr (.stub irq) ≠ someAddr .idtNoopIrq ∧
      ∀ k : Fin 16, someAddr (.stub irq) ≠ someAddr (.exception k) := by
    cases irq <;> decide
  have hstubs (irq irq' : Irq) (h : someAddr (.stub irq) = someAddr (.stub irq')) : irq = irq' := by
    cases irq <;> cases irq' <;> first | rfl | (revert h; decide)
  intro f g h
  cases f with
  | idtNoopIrq =>
    cases g with
    | idtNoopIrq => rfl
    | exception k => exact absurd h.symm (hnoop k)
    | stub irq => exact absurd h.symm (hstub irq).1
  | exception j =>
    cases g with
    | idtNoopIrq => exact absurd h (hnoop j)
    | exception k => rw [hexc j k h]
    | stub irq => exact absurd h.symm ((hstub irq).2 j)
  | stub irq =>
    cases g with
    | idtNoopIrq => exact absurd h (hstub irq).1
    | exception k => exact absurd h ((hstub irq).2 k)
    | stub irq' => rw [hstubs irq irq' h]

theorem boot_vectors_reverse : (irqSets someAddr (idtInit someAddr fun _ => ⟨0, 0, 0, 0, 0⟩)
    bootIrqs.reverse 0x21).enter = some (someAddr (.stub .keyboard), 8, 3) :=
  boot_vectors someAddr _ _ (List.reverse_perm _) 0x21

end Levos.Arch
