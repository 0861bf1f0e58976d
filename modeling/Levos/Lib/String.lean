import Levos.Framework.Heap

namespace Levos.Lib

open Levos.Framework

/-- A C string, without its terminating zero. -/
structure CString where
  bytes : List (BitVec 8)
  noNul : 0 ∉ bytes
  deriving DecidableEq

instance byte_lawfulBEq : LawfulBEq (BitVec 8) := inferInstance

/-- `strncmp`. It does not stop at a zero. -/
def strncmpFrom (str1 str2 : Nat → Except Fault (BitVec 8)) : Nat → Nat → Except Fault Int
  | _, 0 => .ok 0
  | i, n + 1 => do
    let a ← str1 i
    let b ← str2 i
    if a ≠ b then return (a.toNat - b.toNat : Int) else strncmpFrom str1 str2 (i + 1) n

def strncmp (str1 str2 : Nat → Except Fault (BitVec 8)) (n : Nat) : Except Fault Int :=
  strncmpFrom str1 str2 0 n

/-- The heap with the cursor `sp` of `strtok`. -/
structure Strings where
  heap : Heap
  sp : Option Ptr

/-- The bytes that the cursor still has before it. -/
def Strings.ahead (s : Strings) : List (BitVec 8) :=
  match s.sp with
  | none => []
  | some p => s.heap.rest p

/-- The loop of `strtok` over the delimiters in front of a token. -/
def skipDelims (h : Heap) (delim : List (BitVec 8)) : Nat → Ptr → Except Fault Ptr
  | 0, _ => .error .diverges
  | fuel + 1, p => do
    let c ← h.load p
    if c ∈ delim then skipDelims h delim fuel p.next else return p

/-- The loop of `strtok` over the token, which ends it with a zero. -/
def cutToken (h : Heap) (delim : List (BitVec 8)) : Nat → Ptr → Except Fault (Ptr × Heap)
  | 0, _ => .error .diverges
  | fuel + 1, p => do
    let c ← h.load p
    if c = 0 then return (p, h)
    else if c ∈ delim then
      let h ← h.store p 0
      return (p.next, h)
    else cutToken h delim fuel p.next

/-- `strtok`. A string that is handed over is not looked at while the cursor stands in another. -/
def strtok (str : Option Ptr) (delim : List (BitVec 8)) (s : Strings) :
    Except Fault (Option Ptr × Strings) :=
  if delim = [] then .ok (none, s)
  else
    match (if s.sp = none then str else s.sp) with
    | none => .ok (none, s)
    | some sp => do
      let start ← skipDelims s.heap delim ((s.heap.rest sp).length + 1) sp
      if (← s.heap.load start) = 0 then return (none, { s with sp := none })
      else
        let (sp, heap) ← cutToken s.heap delim ((s.heap.rest start).length + 1) start
        return (some start, { heap := heap, sp := some sp })

end Levos.Lib
