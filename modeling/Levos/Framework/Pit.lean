import Levos.Framework.Fault
import Mathlib.Data.BitVec
import Mathlib.Logic.Function.Basic

namespace Levos.Framework

/-- The counters of a timer. -/
inductive Pit.Index
  | c0
  | c1
  | c2
  deriving DecidableEq

/-- Which bytes of its count a counter is given. -/
inductive Pit.Access
  | lsb
  | msb
  | data
  deriving DecidableEq

/-- A counter of an 8253: how it counts, the low byte that it was given while the high one is still to come,
and the count that it was given since its mode was set. -/
structure Pit.Counter where
  mode : BitVec 3
  bcd : Bool
  access : Pit.Access
  low : Option (BitVec 8)
  count : Option (BitVec 16)

/-- An 8253 timer. -/
structure Pit where
  counter : Pit.Index → Pit.Counter

namespace Pit

/-- A byte of the count. -/
def Counter.load (c : Counter) (v : BitVec 8) : Counter :=
  match c.access, c.low with
  | .lsb, _ => { c with count := some (0#8 ++ v) }
  | .msb, _ => { c with count := some (v ++ 0#8) }
  | .data, none => { c with low := some v }
  | .data, some l => { c with low := none, count := some (v ++ l) }

/-- The number that the four digits of a count stand for. -/
def decimal (n : BitVec 16) : Nat :=
  n.toNat % 16 + 10 * (n.toNat / 16 % 16) + 100 * (n.toNat / 256 % 16) + 1000 * (n.toNat / 4096)

def indexOf (n : BitVec 2) : Option Index :=
  match n.toNat with
  | 0 => some .c0
  | 1 => some .c1
  | 2 => some .c2
  | _ => none

def accessOf (n : BitVec 2) : Option Access :=
  match n.toNat with
  | 1 => some .lsb
  | 2 => some .msb
  | 3 => some .data
  | _ => none

def set (s : Pit) (k : Index) (c : Counter) : Pit := ⟨Function.update s.counter k c⟩

/-- A control word. One that latches a count, or names no counter, leaves the counters as they are. -/
def command (s : Pit) (v : BitVec 8) : Pit :=
  match indexOf (v.extractLsb' 6 2), accessOf (v.extractLsb' 4 2) with
  | some k, some a => s.set k ⟨v.extractLsb' 1 3, v.getLsbD 0, a, none, none⟩
  | _, _ => s

def data (s : Pit) (k : Index) (v : BitVec 8) : Pit := s.set k ((s.counter k).load v)

def outportb (s : Pit) (port : BitVec 16) (v : BitVec 8) : Pit :=
  match port.toNat with
  | 0x40 => s.data .c0 v
  | 0x41 => s.data .c1 v
  | 0x42 => s.data .c2 v
  | 0x43 => s.command v
  | _ => s

section Counters

variable {s : Pit} {j k : Index} {c : Counter}

@[simp] theorem set_self : (s.set k c).counter k = c := Function.update_self ..

theorem set_of_ne (h : j ≠ k) : (s.set k c).counter j = s.counter j := Function.update_of_ne h ..

end Counters

/-- A counter whose mode was just set, which takes both bytes of a count. -/
def Counter.fresh (mode : BitVec 3) : Counter := ⟨mode, false, .data, none, none⟩

end Pit

end Levos.Framework
