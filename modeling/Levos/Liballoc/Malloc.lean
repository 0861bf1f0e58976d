import Levos.Memory.Layout
import Mathlib.Algebra.Group.Int.Defs

namespace Levos.Liballoc

open Levos.Framework Levos.Memory

/-- `struct liballoc_minor`: a block that was given out. Its neighbours and its owner are given by
the lists it stands in. -/
structure Minor where
  addr : Nat
  size : Nat
  reqSize : Nat
  deriving DecidableEq

/-- `struct liballoc_major`, with its minors from `first` on. -/
structure Major where
  addr : Nat
  pages : Nat
  usage : Nat
  minors : List Minor
  deriving DecidableEq

/-- The variables of liballoc, with the majors from `l_memRoot` on. The headers are written to
memory as well, but they are read here: no owner of a block writes there. -/
structure State where
  mm : Mm
  lock : Nat
  majors : List Major
  bestBet : Option Nat

/-- `sizeof(struct liballoc_major)` and `sizeof(struct liballoc_minor)`. -/
def majorHeader : Nat := 24
def minorHeader : Nat := 24

def pageCount : Nat := 16

def liballocMagic : BitVec 32 := 0xc001c0de#32
def liballocDead : BitVec 32 := 0xdeaddead#32

/-- A difference on `unsigned int`. -/
def sub32 (a b : Nat) : Nat := wrap (a + (2 ^ 32 - b))

def Major.size (M : Major) : Nat := wrap (M.pages * 4096)

/-- `ALIGN`: the aligned pointer, and what is stored 16 bytes before it. -/
def align (a : Nat) : Nat × Nat :=
  let ptr := wrap (a + 16)
  let diff := if ptr % 16 ≠ 0 then 16 - ptr % 16 else 0
  (wrap (ptr + diff), diff + 16)

/-- The pointer that the caller of `new_malloc` gets for a minor. -/
def Minor.ptr (m : Minor) : Nat := (align (wrap (m.addr + minorHeader))).1

def setWords (m : Memory) (a : Nat) : List Nat → Memory
  | [] => m
  | w :: ws => setWords (m.setWord a (BitVec.ofNat 32 w)) (a + 4) ws

def liballocLock (s : State) : Except Fault State :=
  if s.lock = 1 then .error (.panic "liballoc lock is acquired!!!!!!\n") else .ok { s with lock := 1 }

def liballocUnlock (s : State) : Except Fault State :=
  if s.lock ≠ 1 then .error (.panic "liballoc locking inconsistency!\n")
  else .ok { s with lock := 0 }

/-- The pages that `allocate_new_page` asks for. -/
def pagesFor (size : Nat) : Nat :=
  let st := wrap (wrap (size + majorHeader) + minorHeader)
  let st := if st % 4096 = 0 then st / 4096 else st / 4096 + 1
  if st < pageCount then pageCount else st

def allocateNewPage (s : State) (size : Nat) : Except Fault (Option Major × State) := do
  let st := pagesFor size
  let (maj, mm) ← mmAllocPages s.mm st
  if maj = 0 then return (none, { s with mm := mm })
  -- the header goes to whatever page came back
  else if mm.present maj then
    let M : Major := ⟨maj, st, majorHeader, []⟩
    let mem := setWords mm.mem maj [0, 0, st, M.size, majorHeader, 0]
    return (some M, { s with mm := { mm with mem := mem } })
  else .error pageFault

/-- The new block is the next one of the last. -/
def State.push (s : State) (N : Major) : State :=
  let mem := match s.majors.getLast? with
    | none => s.mm.mem
    | some M => (s.mm.mem.setWord (M.addr + 4) (BitVec.ofNat 32 N.addr)).setWord N.addr
        (BitVec.ofNat 32 M.addr)
  { s with majors := s.majors ++ [N], mm := { s.mm with mem := mem } }

/-- The cases in which `new_malloc` finds a place: a brand new block, space before the first minor,
behind the last one, and between minor `k` and the next. -/
inductive Place
  | case2
  | case3
  | case4₁
  | case4₂ (k : Nat)
  deriving DecidableEq

/-- The loop over the minors of a block, from minor `k` on. -/
def scanMinors (M : Major) (size : Nat) : Nat → List Minor → Option Place
  | _, [] => none
  | _, [m] =>
    if sub32 (sub32 (sub32 (wrap (M.addr + M.size)) m.addr) minorHeader) m.size ≥
      wrap (size + minorHeader) then some .case4₁ else none
  | k, m :: n :: ms =>
    if sub32 (sub32 (sub32 n.addr m.addr) minorHeader) m.size ≥ wrap (size + minorHeader) then
      some (.case4₂ k)
    else scanMinors M size (k + 1) (n :: ms)

def Major.place (M : Major) (size : Nat) : Option Place :=
  match M.minors with
  | [] => some .case2
  | m :: ms =>
    if sub32 (sub32 m.addr M.addr) majorHeader ≥ wrap (size + minorHeader) then some .case3
    else scanMinors M size 0 (m :: ms)

/-- The case in which a block serves a request: none if it lacks the space, case 1, or if the space
is not in one piece, case 5. -/
def Major.room (M : Major) (size : Nat) : Option Place :=
  if sub32 M.size M.usage < wrap (size + minorHeader) then none else M.place size

/-- `l_bestBet` behind a look at block `M`, when the best so far has `bestSize` bytes free. -/
def State.better (s : State) (M : Major) (bestSize : Nat) : State :=
  if bestSize < sub32 M.size M.usage then { s with bestBet := some M.addr } else s

@[simp] theorem State.better_mm (s : State) (M : Major) (n : Nat) : (s.better M n).mm = s.mm := by
  unfold State.better
  split_ifs <;> rfl

@[simp] theorem State.better_lock (s : State) (M : Major) (n : Nat) :
    (s.better M n).lock = s.lock := by
  unfold State.better
  split_ifs <;> rfl

@[simp] theorem State.better_majors (s : State) (M : Major) (n : Nat) :
    (s.better M n).majors = s.majors := by
  unfold State.better
  split_ifs <;> rfl

/-- The loop of `new_malloc` over the blocks, from block `i` on: the block and the case that serve
the request, nothing if there is no memory left. -/
def search (size : Nat) : Nat → Nat → Bool → Nat → State →
    Except Fault (Option (Nat × Place) × State)
  | 0, _, _, _, _ => .error .diverges
  | fuel + 1, i, startedBet, bestSize, s =>
    match s.majors[i]? with
    | none => .ok (none, s)
    | some M =>
      let diff := sub32 M.size M.usage
      let s := s.better M bestSize
      let bestSize := max bestSize diff
      match M.room size with
      | some pl => .ok (some (i, pl), s)
      | none =>
        if i + 1 < s.majors.length then search size fuel (i + 1) startedBet bestSize s
        else if startedBet then search size fuel 0 false bestSize s
        else do
          let (N, s) ← allocateNewPage s size
          match N with
          | none => return (none, s)
          | some N =>
            -- case 1 falls through to case 2, case 5 goes round the loop
            if diff < wrap (size + minorHeader) then return (some (i + 1, .case2), s.push N)
            else search size fuel (i + 1) startedBet bestSize (s.push N)

/-- Where the loop begins: block, `startedBet` and `bestSize`. -/
def startAt (s : State) (size : Nat) : Nat × Bool × Nat :=
  match s.bestBet.bind fun b => s.majors.findIdx? fun M => M.addr = b with
  | none => (0, false, 0)
  | some j =>
    match s.majors[j]? with
    | none => (0, false, 0)
    | some M =>
      let bestSize := sub32 M.size M.usage
      if bestSize > wrap (size + minorHeader) then (j, true, bestSize) else (0, false, bestSize)

/-- From the first block on to the place. -/
def findPlace (s : State) (size : Nat) : Except Fault (Option (Nat × Place) × State) :=
  let (i, startedBet, bestSize) := startAt s size
  search size (2 * s.majors.length + 3) i startedBet bestSize s

/-- The number of minors that stay in front of the new one. -/
def Place.before (ms : List Minor) : Place → Nat
  | .case2 => 0
  | .case3 => 0
  | .case4₁ => ms.length
  | .case4₂ k => k + 1

/-- Where the new minor comes to lie behind the minors `pre` of its block. -/
def Major.behind (M : Major) (pre : List Minor) : Nat :=
  match pre.getLast? with
  | none => wrap (M.addr + majorHeader)
  | some m => wrap (wrap (m.addr + minorHeader) + m.size)

def addrOf (m : Option Minor) : Nat := m.elim 0 Minor.addr

/-- The header of the minor `x`, the pointers to it in its neighbours or in its block, and the usage
of the block. -/
def linkMinor (mem : Memory) (maj usage : Nat) (prev next : Option Minor) (x : Minor) : Memory :=
  let mem := match prev with
    | none => mem.setWord (maj + 20) (BitVec.ofNat 32 x.addr)
    | some y => mem.setWord (y.addr + 4) (BitVec.ofNat 32 x.addr)
  let mem := match next with
    | none => mem
    | some y => mem.setWord y.addr (BitVec.ofNat 32 x.addr)
  let mem := setWords mem x.addr
    [addrOf prev, addrOf next, maj, liballocMagic.toNat, x.size, x.reqSize]
  mem.setWord (maj + 16) (BitVec.ofNat 32 usage)

def setByte (mem : Memory) (a : Nat) (v : BitVec 8) : Memory := fun x => if x = a then v else mem x

/-- The minors in front of the new one, and those behind it. -/
def Major.pre (M : Major) (pl : Place) : List Minor := M.minors.take (pl.before M.minors)

def Major.post (M : Major) (pl : Place) : List Minor := M.minors.drop (pl.before M.minors)

def Major.newMinor (M : Major) (pl : Place) (size reqSize : Nat) : Minor :=
  ⟨M.behind (M.pre pl), size, reqSize⟩

def Major.occupied (M : Major) (pl : Place) (size reqSize : Nat) : Major :=
  { M with
    usage := wrap (M.usage + wrap (size + minorHeader))
    minors := M.pre pl ++ M.newMinor pl size reqSize :: M.post pl }

/-- What the ends of cases 2, 3, 4.1 and 4.2 write: the headers, and the byte that `ALIGN` leaves
before the pointer. -/
def occupyMem (mem : Memory) (M : Major) (pl : Place) (size reqSize : Nat) : Memory :=
  let x := M.newMinor pl size reqSize
  let mem := linkMinor mem M.addr (M.occupied pl size reqSize).usage (M.pre pl).getLast?
    (M.post pl).head? x
  let (p, info) := align (wrap (x.addr + minorHeader))
  setByte mem (sub32 p 16) (BitVec.ofNat 8 info)

/-- The ends of cases 2, 3, 4.1 and 4.2, with the pointer that is returned. All of them but
case 4.1 clear the bytes that were asked for. -/
def occupy (s : State) (i : Nat) (M : Major) (pl : Place) (size reqSize : Nat) :
    Except Fault (Nat × State) :=
  let p := (M.newMinor pl size reqSize).ptr
  let mem := occupyMem s.mm.mem M pl size reqSize
  let majors := s.majors.set i (M.occupied pl size reqSize)
  if pl = .case4₁ then .ok (p, { s with mm := { s.mm with mem := mem }, majors := majors })
  else if p + reqSize > 2 ^ 32 then .error .outOfBounds
  else .ok (p, { s with mm := { s.mm with mem := mem.fill p 0 reqSize }, majors := majors })

/-- The first block, if there is none yet and memory for one. -/
def ensureRoot (s : State) (size : Nat) : Except Fault State :=
  if s.majors.isEmpty then do
    let (root, s) ← allocateNewPage s size
    match root with
    | none => return s
    | some N => return s.push N
  else .ok s

/-- `new_malloc` while it holds the lock. -/
def mallocLocked (s : State) (size reqSize : Nat) : Except Fault (Nat × State) := do
  let s ← ensureRoot s size
  if s.majors.isEmpty then return (0, s)
  let (place, s) ← findPlace s size
  match place with
  | none => return (0, s)
  | some (i, pl) =>
    match s.majors[i]? with
    | none => .error .nullPointer
    | some M => occupy s i M pl size reqSize

/-- `new_malloc`. A size that wraps to 0 makes it call itself for one byte. -/
def newMalloc (s : State) (reqSize : Nat) : Except Fault (Nat × State) := do
  let size := wrap (reqSize + 32)
  let s ← liballocLock s
  if size = 0 then
    let s ← liballocUnlock s
    let s ← liballocLock s
    let (p, s) ← mallocLocked s 33 1
    return (p, ← liballocUnlock s)
  else
    let (p, s) ← mallocLocked s size reqSize
    return (p, ← liballocUnlock s)

/-- `UNALIGN`; the stored byte is a signed one. -/
def unalign (mem : Memory) (ptr : Nat) : Nat :=
  let diff := (mem (sub32 ptr 16)).toNat
  if diff < 32 then sub32 ptr diff else ptr

/-- `int` from `unsigned int`. -/
def toInt (x : Nat) : Int := if x < 2 ^ 31 then x else x - 2 ^ 32

/-- The block and the position in it of the minor at `a`. -/
def findMinor (s : State) (a : Nat) : Option (Nat × Nat) :=
  let hit (M : Major) := M.minors.findIdx? fun m => m.addr = a
  (s.majors.findIdx? fun M => (hit M).isSome).bind fun i =>
    (s.majors[i]?.bind hit).map fun k => (i, k)

/-- The block has lost its last minor: it is taken out of the list and its pages are given back. -/
def dropMajor (s : State) (i : Nat) (M : Major) : Except Fault State := do
  let prev := if i = 0 then none else s.majors[i - 1]?
  let next := s.majors[i + 1]?
  let mem := match prev with
    | none => s.mm.mem
    | some L => s.mm.mem.setWord (L.addr + 4) (BitVec.ofNat 32 (next.elim 0 Major.addr))
  let mem := match next with
    | none => mem
    | some N => mem.setWord N.addr (BitVec.ofNat 32 (prev.elim 0 Major.addr))
  let mm ← mmFreePages { s.mm with mem := mem } M.addr M.pages
  return { s with
    mm := mm
    majors := s.majors.eraseIdx i
    bestBet := if s.bestBet = some M.addr then none else s.bestBet }

/-- `l_bestBet` after minor of block `M` was freed. -/
def betterBet (s : State) (M : Major) : Option Nat :=
  match s.bestBet.bind fun b => s.majors.find? fun M => M.addr = b with
  | none => s.bestBet
  | some B =>
    if toInt (sub32 M.size M.usage) > toInt (sub32 B.size B.usage) then some M.addr else s.bestBet

/-- The block without its minor `k`. -/
def Major.vacated (M : Major) (k : Nat) : Major :=
  { M with
    usage := sub32 M.usage (wrap ((M.minors[k]?).elim 0 Minor.size + minorHeader))
    minors := M.minors.take k ++ M.minors.drop (k + 1) }

/-- What `new_free` writes for that: the usage, the mark of a dead minor at `min`, and the pointers
to it in its neighbours or in its block. -/
def vacateMem (mem : Memory) (M : Major) (k min : Nat) : Memory :=
  let prev := (M.minors.take k).getLast?
  let next := (M.minors.drop (k + 1)).head?
  let mem := mem.setWord (M.addr + 16) (BitVec.ofNat 32 (M.vacated k).usage)
  let mem := mem.setWord (min + 12) liballocDead
  let mem := match next with
    | none => mem
    | some n => mem.setWord n.addr (BitVec.ofNat 32 (addrOf prev))
  match prev with
  | none => mem.setWord (M.addr + 20) (BitVec.ofNat 32 (addrOf next))
  | some m => mem.setWord (m.addr + 4) (BitVec.ofNat 32 (addrOf next))

/-- `new_free` while it holds the lock. A header that is not one of liballoc's own, but carries the
magic number, leaves the code without a meaning. -/
def freeLocked (s : State) (min : Nat) : Except Fault State :=
  if s.mm.mem.word (min + 12) ≠ liballocMagic then .ok s
  else
    match findMinor s min with
    | none => .error .uninitialised
    | some (i, k) =>
      match s.majors[i]? with
      | none => .error .uninitialised
      | some M =>
        let s : State := { s with
          mm := { s.mm with mem := vacateMem s.mm.mem M k min }
          majors := s.majors.set i (M.vacated k) }
        if (M.vacated k).minors.isEmpty then dropMajor s i (M.vacated k)
        else .ok { s with bestBet := betterBet s (M.vacated k) }

def newFree (s : State) (ptr : Nat) : Except Fault State :=
  if ptr = 0 then .ok s
  else do
    let ptr := unalign s.mm.mem ptr
    let s ← liballocLock s
    let s ← freeLocked s (sub32 ptr minorHeader)
    liballocUnlock s

end Levos.Liballoc
