import Mathlib.Data.BitVec
import Mathlib.Data.List.FinRange
import Mathlib.Logic.Function.Basic

namespace Levos.Framework

/-- What an 8259A takes the next byte on its data port for. -/
inductive Pic.Await
  | mask
  | icw2
  | icw3
  | icw4
  deriving DecidableEq

/-- An 8259A interrupt controller: the requests, the lines in service, the mask, the vector of line 0
and the wiring of the pair. -/
structure Pic where
  irr : Fin 8 → Bool
  isr : Fin 8 → Bool
  imr : Fin 8 → Bool
  base : BitVec 8
  wiring : BitVec 8
  autoEoi : Bool
  needsIcw4 : Bool
  awaits : Pic.Await

namespace Pic

/-- The first of the lines in `ls`: line 0 has the highest priority. -/
def highest (ls : Fin 8 → Bool) : Option (Fin 8) := (List.finRange 8).find? ls

/-- The highest unmasked request, when no line of its priority or above is in service. -/
def request (p : Pic) : Option (Fin 8) :=
  (highest fun l => p.irr l && !p.imr l).filter fun l => decide (∀ k ≤ l, p.isr k = false)

/-- The processor takes the request of line `l`. -/
def accept (p : Pic) (l : Fin 8) : Pic :=
  { p with
    irr := Function.update p.irr l false
    isr := Function.update p.isr l !p.autoEoi }

/-- A non-specific end of interrupt. -/
def endOfInterrupt (p : Pic) : Pic :=
  match highest p.isr with
  | none => p
  | some l => { p with isr := Function.update p.isr l false }

/-- A byte on the command port: `ICW1`, or a command. Of the commands only the ends of interrupt are
here, without rotation. -/
def command (p : Pic) (v : BitVec 8) : Pic :=
  if v.getLsbD 4 then
    { irr := fun _ => false, isr := fun _ => false, imr := fun _ => false, base := p.base, wiring := 0
      autoEoi := false, needsIcw4 := v.getLsbD 0, awaits := .icw2 }
  else if v.getLsbD 3 then p
  else if v &&& 0xE0#8 = 0x20#8 then p.endOfInterrupt
  else p

/-- A byte on the data port: the rest of the initialisation, or a mask. -/
def data (p : Pic) (v : BitVec 8) : Pic :=
  match p.awaits with
  | .mask => { p with imr := fun l => v.getLsbD l }
  | .icw2 => { p with base := v &&& 0xF8#8, awaits := .icw3 }
  | .icw3 => { p with wiring := v, awaits := if p.needsIcw4 then .icw4 else .mask }
  | .icw4 => { p with autoEoi := v.getLsbD 1, awaits := .mask }

def raise (p : Pic) (l : Fin 8) : Pic := { p with irr := Function.update p.irr l true }

section Highest

variable {ls : Fin 8 → Bool} {l : Fin 8}

theorem highest_eq_none : highest ls = none ↔ ∀ l, ls l = false := by
  simp [highest, List.find?_eq_none]

theorem highest_eq_some : highest ls = some l ↔ ls l = true ∧ ∀ k < l, ls k = false := by
  have hlt (i : Nat) (hi : i < (List.finRange 8).length) :
      (List.finRange 8)[i] = ⟨i, by simpa using hi⟩ := by simp
  rw [highest, List.find?_eq_some_iff_getElem]
  refine ⟨?_, ?_⟩
  · rintro ⟨hl, i, hi, heq, hbefore⟩
    rw [hlt i hi] at heq
    refine ⟨hl, fun k hk => ?_⟩
    have hki : k.val < i := by
      rw [← heq] at hk
      exact hk
    have := hbefore k.val hki
    rw [hlt k.val (by simp)] at this
    simpa using this
  · rintro ⟨hl, hbefore⟩
    refine ⟨hl, l.val, by simp, by simp, ?_⟩
    intro j hj
    have := hbefore ⟨j, by omega⟩ hj
    simpa using this

/-- The only line. -/
theorem highest_single (h : ∀ k, ls k = true ↔ k = l) : highest ls = some l :=
  highest_eq_some.mpr ⟨(h l).mpr rfl, fun k hk => by
    have : ¬ls k = true := fun hk' => (Fin.ne_of_lt hk) ((h k).mp hk')
    simpa using this⟩

end Highest

variable {p : Pic} {l : Fin 8}

theorem request_eq_some : p.request = some l ↔ (p.irr l = true ∧ p.imr l = false) ∧
    (∀ k < l, p.irr k = true → p.imr k = true) ∧ ∀ k ≤ l, p.isr k = false := by
  rw [request, Option.filter_eq_some_iff, highest_eq_some]
  simp [and_assoc]

theorem request_eq_none (hisr : ∀ k, p.isr k = false) :
    p.request = none ↔ ∀ l, p.irr l = true → p.imr l = true := by
  rw [request, Option.filter_eq_none_iff]
  refine ⟨fun h l hl => ?_, fun h l hl => ?_⟩
  · by_contra hmask
    cases hhigh : highest fun l => p.irr l && !p.imr l with
    | none =>
      have hnone := highest_eq_none.mp hhigh l
      simp [hl, hmask] at hnone
    | some k => exact h k hhigh (decide_eq_true fun j _ => hisr j)
  · have hsome := (highest_eq_some.mp hl).1
    rw [Bool.and_eq_true] at hsome
    rw [h l hsome.1] at hsome
    simp at hsome

theorem endOfInterrupt_none (h : ∀ k, p.isr k = false) : p.endOfInterrupt = p := by
  rw [endOfInterrupt, highest_eq_none.mpr h]

/-- With one line in service, the end of interrupt is its end. -/
theorem endOfInterrupt_single (h : ∀ k, p.isr k = true ↔ k = l) :
    p.endOfInterrupt = { p with isr := fun _ => false } := by
  rw [endOfInterrupt, highest_single h]
  simp only [mk.injEq, true_and, and_true]
  funext k
  by_cases hk : k = l
  · rw [hk]
    exact Function.update_self ..
  · rw [Function.update_of_ne hk]
    have hnot : ¬p.isr k = true := fun hk' => hk ((h k).mp hk')
    simpa using hnot

end Pic

/-- Two controllers, the second one behind line 2 of the first. -/
structure Pics where
  master : Pic
  slave : Pic

/-- An input of one of the two controllers. -/
inductive Pics.Line
  | master (l : Fin 8)
  | slave (l : Fin 8)
  deriving DecidableEq

namespace Pics

/-- The number of a line in the order of the priorities. -/
def Line.rank : Line → Nat
  | master l => if l ≤ 2 then l else l + 8
  | slave l => l + 2

def pending (p : Pics) : Line → Bool
  | .master l => p.master.irr l
  | .slave l => p.slave.irr l

/-- What the first controller sees: the output of the second one is its line 2. -/
def view (p : Pics) : Pic :=
  { p.master with irr := Function.update p.master.irr 2 p.slave.request.isSome }

/-- The processor takes an interrupt: which line it is, the vector, and the controllers afterwards. -/
def acknowledge (p : Pics) : Option (Line × BitVec 8 × Pics) :=
  match p.view.request with
  | none => none
  | some l =>
    if l = 2 ∧ p.master.wiring.getLsbD 2 ∧ p.slave.wiring = 2 then
      p.slave.request.map fun k =>
        (.slave k, p.slave.base + BitVec.ofNat 8 k, ⟨p.master.accept 2, p.slave.accept k⟩)
    else some (.master l, p.master.base + BitVec.ofNat 8 l, { p with master := p.master.accept l })

/-- A device raises its line. -/
def raise (p : Pics) : Line → Pics
  | .master l => { p with master := p.master.raise l }
  | .slave l => { p with slave := p.slave.raise l }

/-- A byte on one of the four ports. -/
def outportb (p : Pics) (port : BitVec 16) (v : BitVec 8) : Pics :=
  if port = 0x20 then { p with master := p.master.command v }
  else if port = 0x21 then { p with master := p.master.data v }
  else if port = 0xA0 then { p with slave := p.slave.command v }
  else if port = 0xA1 then { p with slave := p.slave.data v }
  else p

def outportbs (p : Pics) (ws : List (BitVec 16 × BitVec 8)) : Pics :=
  ws.foldl (fun p w => p.outportb w.1 w.2) p

/-- The pair is set up with the vectors from `b` and `c` on, and no line is masked. -/
structure Ready (p : Pics) (b c : BitVec 8) : Prop where
  master : p.master.awaits = .mask ∧ p.master.base = b ∧ p.master.wiring.getLsbD 2 = true ∧
    p.master.autoEoi = false
  slave : p.slave.awaits = .mask ∧ p.slave.base = c ∧ p.slave.wiring = 2 ∧ p.slave.autoEoi = false
  masks : ∀ l, p.master.imr l = false ∧ p.slave.imr l = false
  cascade : p.master.irr 2 = false

/-- The lines in service are those of `on`: a line of the second controller keeps line 2 of the first
one in service. -/
structure Serves (p : Pics) (on : Option Line) : Prop where
  master : ∀ k, p.master.isr k = true ↔ on = some (.master k) ∨ k = 2 ∧ ∃ l, on = some (.slave l)
  slave : ∀ k, p.slave.isr k = true ↔ on = some (.slave k)

section Pair

variable {p q : Pics} {l : Line} {v b c : BitVec 8}

/-- The line of the first controller by which a line comes in. -/
def Line.input : Line → Fin 8
  | master l => l
  | slave _ => 2

def Line.vector (b c : BitVec 8) : Line → BitVec 8
  | master l => b + BitVec.ofNat 8 l
  | slave l => c + BitVec.ofNat 8 l

theorem Serves.idle (h : p.Serves none) :
    (∀ k, p.master.isr k = false) ∧ ∀ k, p.slave.isr k = false := by
  refine ⟨fun k => ?_, fun k => ?_⟩
  · have hk := (h.master k).not.mpr (by simp)
    simpa using hk
  · have hk := (h.slave k).not.mpr (by simp)
    simpa using hk

theorem Ready.slave_request (hr : p.Ready b c) (hs : p.Serves none) :
    p.slave.request = none ↔ ∀ l, p.slave.irr l = false := by
  rw [Pic.request_eq_none hs.idle.2]
  refine forall_congr' fun l => ?_
  rw [(hr.masks l).2]
  simp

theorem view_irr_two (p : Pics) : p.view.irr 2 = p.slave.request.isSome := by
  simp [view]

theorem view_irr_of_ne (p : Pics) {k : Fin 8} (hk : k ≠ 2) : p.view.irr k = p.master.irr k :=
  Function.update_of_ne hk ..

/-- The request the first controller has of the second one stands for one of its lines. -/
theorem view_request {k : Fin 8} (h : p.view.request = some k) :
    (k = 2 ∧ ∃ j, p.slave.request = some j) ∨ (k ≠ 2 ∧ p.master.irr k = true) := by
  have hirr : p.view.irr k = true := (Pic.request_eq_some.mp h).1.1
  by_cases hk : k = 2
  · rw [hk, view_irr_two] at hirr
    exact .inl ⟨hk, Option.isSome_iff_exists.mp hirr⟩
  · rw [view_irr_of_ne p hk] at hirr
    exact .inr ⟨hk, hirr⟩

/-- While nothing is in service, an interrupt reaches the processor as soon as a line is pending. -/
theorem Ready.acknowledge_none (hr : p.Ready b c) (hs : p.Serves none) :
    p.acknowledge = none ↔ ∀ l, p.pending l = false := by
  have hview : p.view.request = none ↔ ∀ k, p.view.irr k = false := by
    have hisr (k : Fin 8) : p.view.isr k = false := hs.idle.1 k
    have himr (k : Fin 8) : p.view.imr k = false := (hr.masks k).1
    simp [Pic.request_eq_none hisr, himr]
  have hack : p.acknowledge = none ↔ p.view.request = none := by
    rw [acknowledge]
    cases hreq : p.view.request with
    | none => simp
    | some k =>
      rcases view_request hreq with ⟨hk, j, hj⟩ | ⟨hk, -⟩
      · simp [hk, hr.master.2.2.1, hr.slave.2.2.1, hj]
      · simp [hk]
  rw [hack, hview]
  refine ⟨fun h l => ?_, fun h k => ?_⟩
  · cases l with
    | master k =>
      by_cases hk : k = 2
      · rw [hk]
        exact hr.cascade
      · have hirr := h k
        rwa [view_irr_of_ne p hk] at hirr
    | slave k =>
      have hnone := h 2
      rw [view_irr_two, Option.isSome_eq_false_iff, Option.isNone_iff_eq_none] at hnone
      exact (hr.slave_request hs).mp hnone k
  · by_cases hk : k = 2
    · have hnone := (hr.slave_request hs).mpr fun l => h (.slave l)
      rw [hk, view_irr_two, hnone]
      rfl
    · rw [view_irr_of_ne p hk]
      exact h (.master k)

/-- Line 2 of the first controller is never pending. -/
theorem Ready.ne_cascade (hr : p.Ready b c) (h : p.pending l = true) : l ≠ .master 2 := by
  rintro rfl
  rw [pending, hr.cascade] at h
  cases h

/-- The request of a controller goes in front of the others that are pending there. -/
theorem request_le {p : Pic} {j k : Fin 8} (hmask : ∀ l, p.imr l = false) (h : p.request = some j)
    (hk : p.irr k = true) : j ≤ k := by
  by_contra hlt
  have hmasked := (Pic.request_eq_some.mp h).2.1 k (Fin.not_le.mp hlt) hk
  rw [hmask k] at hmasked
  cases hmasked

/-- An interrupt that is taken was pending and is not any more. -/
theorem Ready.acknowledge_some (hr : p.Ready b c) (h : p.acknowledge = some (l, v, q)) :
    v = l.vector b c ∧ l ≠ .master 2 ∧ q.Ready b c ∧ q.pending = Function.update p.pending l false ∧
      p.pending l = true := by
  obtain ⟨hm1, hm2, hm3, hm4⟩ := hr.master
  obtain ⟨hs1, hs2, hs3, hs4⟩ := hr.slave
  rw [acknowledge] at h
  cases hreq : p.view.request with
  | none =>
    rw [hreq] at h
    cases h
  | some k =>
    rw [hreq] at h
    rcases view_request hreq with ⟨rfl, j, hj⟩ | ⟨hk, hirr⟩
    · simp only [hm3, hs3, hj, and_self, if_true, Option.map_some, Option.some.injEq] at h
      cases h
      have hpend : p.slave.irr j = true := (Pic.request_eq_some.mp hj).1.1
      refine ⟨by rw [hs2]; rfl, by simp, ?_, ?_, hpend⟩
      · exact ⟨hr.master, hr.slave, hr.masks, by simp [Pic.accept]⟩
      · funext i
        cases i with
        | master i =>
          by_cases hi : i = 2
          · simp [pending, Pic.accept, hi, hr.cascade]
          · simp [pending, Pic.accept, hi]
        | slave i =>
          by_cases hi : i = j <;> simp [pending, Pic.accept, hi]
    · simp only [hk, false_and, if_false, Option.some.injEq] at h
      cases h
      refine ⟨by rw [hm2]; rfl, by simp [hk], ?_, ?_, hirr⟩
      · refine ⟨hr.master, hr.slave, hr.masks, ?_⟩
        have hne : 2 ≠ k := fun he => hk he.symm
        simp [Pic.accept, hne, hr.cascade]
      · funext i
        cases i with
        | master i => by_cases hi : i = k <;> simp [pending, Pic.accept, hi]
        | slave i => simp [pending]

/-- While nothing is in service, the interrupt that is taken is the pending one of the highest priority. -/
theorem Ready.acknowledge_first (hr : p.Ready b c) (hs : p.Serves none)
    (h : p.acknowledge = some (l, v, q)) :
    q.Serves (some l) ∧ ∀ k, p.pending k = true → l.rank ≤ k.rank := by
  obtain ⟨hm1, hm2, hm3, hm4⟩ := hr.master
  obtain ⟨hs1, hs2, hs3, hs4⟩ := hr.slave
  obtain ⟨hidle1, hidle2⟩ := hs.idle
  rw [acknowledge] at h
  cases hreq : p.view.request with
  | none =>
    rw [hreq] at h
    cases h
  | some k =>
    rw [hreq] at h
    have hmask (i : Fin 8) : p.view.imr i = false := (hr.masks i).1
    have hfirst (i : Fin 8) (hi : p.view.irr i = true) : k ≤ i := request_le hmask hreq hi
    rcases view_request hreq with ⟨rfl, j, hj⟩ | ⟨hk, hirr⟩
    · simp only [hm3, hs3, hj, and_self, if_true, Option.map_some, Option.some.injEq] at h
      cases h
      refine ⟨⟨fun i => ?_, fun i => ?_⟩, ?_⟩
      · by_cases hi : i = 2 <;> simp [Pic.accept, hi, hm4, hidle1]
      · by_cases hi : i = j
        · simp [Pic.accept, hi, hs4]
        · have hne : j ≠ i := fun he => hi he.symm
          simp [Pic.accept, hi, hne, hidle2]
      · intro i hi
        cases i with
        | master i =>
          have hi2 : i ≠ 2 := by
            rintro rfl
            rw [pending, hr.cascade] at hi
            cases hi
          have hle := hfirst i (by rw [view_irr_of_ne p hi2]; exact hi)
          simp only [Line.rank]
          split_ifs <;> omega
        | slave i =>
          have hle := request_le (fun l => (hr.masks l).2) hj hi
          simp only [Line.rank]
          omega
    · simp only [hk, false_and, if_false, Option.some.injEq] at h
      cases h
      refine ⟨⟨fun i => ?_, fun i => by simp [hidle2]⟩, ?_⟩
      · by_cases hi : i = k
        · simp [Pic.accept, hi, hm4]
        · have hne : k ≠ i := fun he => hi he.symm
          simp [Pic.accept, hi, hne, hidle1]
      · intro i hi
        cases i with
        | master i =>
          have hi2 : i ≠ 2 := by
            rintro rfl
            rw [pending, hr.cascade] at hi
            cases hi
          have hle := hfirst i (by rw [view_irr_of_ne p hi2]; exact hi)
          simp only [Line.rank]
          split_ifs <;> omega
        | slave i =>
          have hsome : p.slave.request ≠ none := by
            intro hnone
            have hzero := (hr.slave_request hs).mp hnone i
            rw [pending, hzero] at hi
            cases hi
          have hle := hfirst 2 (by
            rw [view_irr_two]
            exact Option.isSome_iff_ne_none.mpr hsome)
          simp only [Line.rank]
          split_ifs <;> omega

/-- The first controller has the line that is taken in service. -/
theorem Ready.acknowledge_isr (hr : p.Ready b c) (h : p.acknowledge = some (l, v, q)) :
    q.master.isr = Function.update p.master.isr l.input true := by
  rw [acknowledge] at h
  cases hreq : p.view.request with
  | none =>
    rw [hreq] at h
    cases h
  | some i =>
    rw [hreq] at h
    dsimp only at h
    split at h
    · obtain ⟨j, -, hj⟩ := Option.map_eq_some_iff.mp h
      cases hj
      simp [Pic.accept, Line.input, hr.master.2.2.2]
    · cases h
      simp [Pic.accept, Line.input, hr.master.2.2.2]

theorem outportb_master (p : Pics) :
    p.outportb 0x20 0x20 = { p with master := p.master.endOfInterrupt } := rfl

theorem outportb_slave (p : Pics) :
    p.outportb 0xA0 0x20 = { p with slave := p.slave.endOfInterrupt } := rfl

theorem endOfInterrupt_kept (p : Pic) :
    ∃ isr, p.endOfInterrupt = { p with isr := isr } := by
  rw [Pic.endOfInterrupt]
  split
  · exact ⟨p.isr, rfl⟩
  · exact ⟨_, rfl⟩

/-- The first controller ends the interrupt it has in service, of a line of its own or of the other. -/
theorem Serves.end_master {on : Option Line} (h : p.Serves on) (k : Fin 8) :
    p.master.endOfInterrupt.isr k = false := by
  rcases on with _ | (l | l)
  · rw [Pic.endOfInterrupt_none h.idle.1]
    exact h.idle.1 k
  · have hone (i : Fin 8) : p.master.isr i = true ↔ i = l := by
      rw [h.master i]
      simp [eq_comm]
    rw [Pic.endOfInterrupt_single hone]
  · have hone (i : Fin 8) : p.master.isr i = true ↔ i = 2 := by
      rw [h.master i]
      simp
    rw [Pic.endOfInterrupt_single hone]

theorem Serves.end_slave {on : Option Line} (h : p.Serves on) (k : Fin 8) :
    p.slave.endOfInterrupt.isr k = false := by
  rcases on with _ | (l | l)
  · rw [Pic.endOfInterrupt_none h.idle.2]
    exact h.idle.2 k
  · have hidle (i : Fin 8) : p.slave.isr i = false := by
      have hi := (h.slave i).not.mpr (by simp)
      simpa using hi
    rw [Pic.endOfInterrupt_none hidle]
    exact hidle k
  · have hone (i : Fin 8) : p.slave.isr i = true ↔ i = l := by
      rw [h.slave i]
      simp [eq_comm]
    rw [Pic.endOfInterrupt_single hone]

end Pair

end Pics

end Levos.Framework
