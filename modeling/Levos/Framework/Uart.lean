import Levos.Framework.Fault
import Mathlib.Data.BitVec
import Mathlib.Data.List.Infix

namespace Levos.Framework

/-- What happens on the line of a serial controller. -/
inductive LineEvent
  | shifted
  | arrived (b : BitVec 8)
  deriving DecidableEq

/-- What happens on the line until the status is read again, and the bits that the status then shows beside
those for a byte to read and for room to write. -/
structure LineTick where
  others : BitVec 8
  events : List LineEvent

/-- A serial controller of the kind 16550: its registers, the bytes that are to be sent and those to be
read, and the bytes that were sent and those that were taken from the line so far. -/
structure Uart where
  ier : BitVec 8
  lcr : BitVec 8
  mcr : BitVec 8
  divisor : BitVec 16
  fifos : Bool
  outgoing : List (BitVec 8)
  incoming : List (BitVec 8)
  wire : List (BitVec 8)
  accepted : List (BitVec 8)

namespace Uart

/-- A byte that comes in is lost where the sixteen places are taken; without FIFOs it replaces the one
before it. -/
def happen (u : Uart) : LineEvent → Uart
  | .shifted => { u with wire := u.wire ++ u.outgoing.take 1, outgoing := u.outgoing.drop 1 }
  | .arrived b =>
    if u.fifos then
      if u.incoming.length < 16 then { u with incoming := u.incoming ++ [b], accepted := u.accepted ++ [b] }
      else u
    else { u with incoming := [b], accepted := u.accepted ++ [b] }

def after (u : Uart) (t : LineTick) : Uart := t.events.foldl happen u

/-- The line status register. -/
def lsr (u : Uart) (others : BitVec 8) : BitVec 8 :=
  (others &&& 0xDE) ||| (if u.outgoing = [] then 0x20 else 0) ||| (if u.incoming = [] then 0 else 1)

/-- With this bit of the line control register the first two registers are the divisor. -/
def dlab (u : Uart) : Bool := u.lcr.getLsbD 7

/-- A byte that is written while there is no room is lost, or takes the place of the one before it. -/
def transmit (u : Uart) (v : BitVec 8) : Uart :=
  if u.fifos then if u.outgoing.length < 16 then { u with outgoing := u.outgoing ++ [v] } else u
  else { u with outgoing := [v] }

def outportb (u : Uart) (r : Nat) (v : BitVec 8) : Uart :=
  match r with
  | 0 => if u.dlab then { u with divisor := u.divisor.extractLsb' 8 8 ++ v } else u.transmit v
  | 1 => if u.dlab then { u with divisor := v ++ u.divisor.extractLsb' 0 8 } else { u with ier := v }
  | 2 => { u with
      fifos := v.getLsbD 0
      incoming := if v.getLsbD 1 then [] else u.incoming
      outgoing := if v.getLsbD 2 then [] else u.outgoing }
  | 3 => { u with lcr := v }
  | 4 => { u with mcr := v }
  | _ => u

/-- The data register. -/
def receive (u : Uart) : BitVec 8 × Uart := (u.incoming.headD 0, { u with incoming := u.incoming.tail })

/-- The status is read, where the line goes on for that long. -/
def status (u : Uart) : List LineTick → Except Fault (BitVec 8 × List LineTick × Uart)
  | [] => .error .diverges
  | t :: line => .ok ((u.after t).lsr t.others, line, u.after t)

/-- The status is read until it shows one of the bits `ready`. -/
def await (ready : BitVec 8) : List LineTick → Uart → Except Fault (List LineTick × Uart)
  | [], _ => .error .diverges
  | t :: line, u =>
    let u := u.after t
    if u.lsr t.others &&& ready ≠ 0 then .ok (line, u) else await ready line u

/-- The controller is set up to send and to receive, and at most one byte waits to be sent. -/
structure Open (u : Uart) : Prop where
  fifos : u.fifos = true
  data : u.dlab = false
  room : u.outgoing.length ≤ 1

/-- Between the two states only time has passed, and the bytes `new` came in. -/
structure Passes (u : Uart) (new : List (BitVec 8)) (u' : Uart) : Prop where
  sent : u'.wire ++ u'.outgoing = u.wire ++ u.outgoing
  left : u'.outgoing <:+ u.outgoing
  accepted : u'.accepted = u.accepted ++ new
  incoming : u'.incoming = u.incoming ++ new
  fifos : u'.fifos = u.fifos
  setup : u'.lcr = u.lcr ∧ u'.divisor = u.divisor ∧ u'.ier = u.ier ∧ u'.mcr = u.mcr

section Line

variable {u u' u'' : Uart} {new new' : List (BitVec 8)} {t : LineTick} {line line' : List LineTick}
  {ready : BitVec 8}

theorem Passes.refl (u : Uart) : u.Passes [] u := by
  refine ⟨rfl, List.suffix_refl _, ?_, ?_, rfl, rfl, rfl, rfl, rfl⟩
  all_goals simp

theorem Passes.trans (h : u.Passes new u') (k : u'.Passes new' u'') : u.Passes (new ++ new') u'' := by
  obtain ⟨h1, h2, h3, h4⟩ := h.setup
  obtain ⟨k1, k2, k3, k4⟩ := k.setup
  refine ⟨k.sent.trans h.sent, k.left.trans h.left, ?_, ?_, k.fifos.trans h.fifos, k1.trans h1, k2.trans h2,
    k3.trans h3, k4.trans h4⟩
  · rw [k.accepted, h.accepted, List.append_assoc]
  · rw [k.incoming, h.incoming, List.append_assoc]

theorem Open.passes (h : u.Open) (hp : u.Passes new u') : u'.Open := by
  refine ⟨hp.fifos.trans h.fifos, ?_, hp.left.length_le.trans h.room⟩
  rw [dlab, hp.setup.1]
  exact h.data

/-- What is sent was written first, and what comes in stands behind what came in before. -/
theorem happen_passes (hfifos : u.fifos = true) (e : LineEvent) : ∃ new, u.Passes new (u.happen e) := by
  cases e with
  | shifted =>
    have hsplit : u.outgoing.take 1 ++ u.outgoing.drop 1 = u.outgoing := List.take_append_drop 1 _
    refine ⟨[], ?_, List.drop_suffix 1 _, ?_, ?_, rfl, rfl, rfl, rfl, rfl⟩
    · rw [happen, List.append_assoc, hsplit]
    all_goals simp [happen]
  | arrived b =>
    by_cases hroom : u.incoming.length < 16
    · refine ⟨[b], ?_⟩
      simp only [happen, hfifos, hroom, if_true]
      exact ⟨rfl, List.suffix_refl _, rfl, rfl, hfifos.symm, rfl, rfl, rfl, rfl⟩
    · refine ⟨[], ?_⟩
      simp only [happen, hfifos, hroom, if_true, if_false]
      exact .refl u

theorem after_passes (hfifos : u.fifos = true) (t : LineTick) : ∃ new, u.Passes new (u.after t) := by
  obtain ⟨others, events⟩ := t
  induction events generalizing u with
  | nil => exact ⟨[], .refl u⟩
  | cons e es ih =>
    obtain ⟨new, hfirst⟩ := happen_passes hfifos e
    obtain ⟨new', hrest⟩ := ih (hfirst.fifos.trans hfifos)
    exact ⟨new ++ new', hfirst.trans hrest⟩

/-- The status shows room exactly when no byte waits to be sent. -/
theorem lsr_room (u : Uart) (others : BitVec 8) : u.lsr others &&& 0x20 ≠ 0 ↔ u.outgoing = [] := by
  have hothers : others &&& 0xDE &&& 0x20 = 0 := by
    rw [BitVec.and_assoc]
    exact BitVec.and_zero
  rw [lsr, BitVec.or_assoc, BitVec.and_comm, BitVec.and_or_distrib_left, BitVec.and_comm, hothers]
  by_cases hout : u.outgoing = [] <;> by_cases hin : u.incoming = [] <;> simp [hout, hin]

/-- The status shows data exactly when there is a byte to read. -/
theorem lsr_data (u : Uart) (others : BitVec 8) : u.lsr others &&& 0x01 ≠ 0 ↔ u.incoming ≠ [] := by
  have hothers : others &&& 0xDE &&& 0x01 = 0 := by
    rw [BitVec.and_assoc]
    exact BitVec.and_zero
  rw [lsr, BitVec.or_assoc, BitVec.and_comm, BitVec.and_or_distrib_left, BitVec.and_comm, hothers]
  by_cases hout : u.outgoing = [] <;> by_cases hin : u.incoming = [] <;> simp [hout, hin]

theorem status_passes {v : BitVec 8} (hfifos : u.fifos = true) (h : u.status line = .ok (v, line', u')) :
    ∃ new others, u.Passes new u' ∧ v = u'.lsr others := by
  cases line with
  | nil => cases h
  | cons t line =>
    cases h
    obtain ⟨new, hpass⟩ := after_passes hfifos t
    exact ⟨new, t.others, hpass, rfl⟩

theorem await_passes (hfifos : u.fifos = true) (h : await ready line u = .ok (line', u')) :
    (∃ new, u.Passes new u') ∧ ∃ others, u'.lsr others &&& ready ≠ 0 := by
  induction line generalizing u with
  | nil => cases h
  | cons t line ih =>
    obtain ⟨new, hpass⟩ := after_passes hfifos t
    by_cases hready : (u.after t).lsr t.others &&& ready ≠ 0
    · rw [await, if_pos hready] at h
      cases h
      exact ⟨⟨new, hpass⟩, t.others, hready⟩
    · rw [await, if_neg hready] at h
      obtain ⟨⟨new', hrest⟩, hothers⟩ := ih (hpass.fifos.trans hfifos) h
      exact ⟨⟨new ++ new', hpass.trans hrest⟩, hothers⟩

/-- A line on which the controller sends again and again. -/
def Lively (line : Nat → LineTick) : Prop := ∀ k, ∃ n, k ≤ n ∧ .shifted ∈ (line n).events

/-- A byte leaves the queue when the transmitter sends. -/
theorem happen_outgoing (u : Uart) (e : LineEvent) :
    (u.happen e).outgoing = if e = .shifted then u.outgoing.drop 1 else u.outgoing := by
  cases e with
  | shifted => rfl
  | arrived b =>
    rw [happen]
    split
    · split <;> rfl
    · rfl

theorem after_length (u : Uart) (t : LineTick) :
    (u.after t).outgoing.length = u.outgoing.length - t.events.count .shifted := by
  obtain ⟨others, events⟩ := t
  induction events generalizing u with
  | nil => rfl
  | cons e es ih =>
    have hrest : ((u.happen e).after ⟨others, es⟩).outgoing.length =
        (u.happen e).outgoing.length - es.count .shifted := ih (u.happen e)
    refine hrest.trans ?_
    rw [happen_outgoing, List.count_cons]
    by_cases he : e = .shifted
    · simp [he]
      omega
    · simp [he]

/-- On a line on which the controller sends again and again, the wait for room comes to an end. -/
theorem await_room {line : Nat → LineTick} (hline : Lively line) (u : Uart) (k : Nat) :
    ∃ n u', ∀ more, await 0x20 ((List.range' k n).map line ++ more) u = .ok (more, u') := by
  -- the wait ends no later than with the `length + 1`-th tick on which a byte is sent
  suffices hwait : ∀ m u k, u.outgoing.length ≤ m →
      ∃ n u', ∀ more, await 0x20 ((List.range' k n).map line ++ more) u = .ok (more, u') from
    hwait _ u k (Nat.le_refl _)
  have hnow (u : Uart) (k : Nat) (hready : (u.after (line k)).lsr (line k).others &&& 0x20 ≠ 0) :
      ∃ n u', ∀ more, await 0x20 ((List.range' k n).map line ++ more) u = .ok (more, u') := by
    refine ⟨1, u.after (line k), fun more => ?_⟩
    rw [List.range'_one, List.map_singleton, List.singleton_append, await, if_pos hready]
  have hlater (u : Uart) (k : Nat) (hready : ¬(u.after (line k)).lsr (line k).others &&& 0x20 ≠ 0)
      (h : ∃ n u', ∀ more, await 0x20 ((List.range' (k + 1) n).map line ++ more) (u.after (line k)) =
        .ok (more, u')) :
      ∃ n u', ∀ more, await 0x20 ((List.range' k n).map line ++ more) u = .ok (more, u') := by
    obtain ⟨n, u', hrest⟩ := h
    refine ⟨n + 1, u', fun more => ?_⟩
    rw [List.range'_succ, List.map_cons, List.cons_append, await, if_neg hready, hrest]
  intro m
  induction m with
  | zero =>
    intro u k hlen
    apply hnow
    rw [lsr_room]
    apply List.eq_nil_of_length_eq_zero
    rw [after_length]
    omega
  | succ m ih =>
    intro u k hlen
    obtain ⟨n, hkn, hsent⟩ := hline k
    obtain ⟨d, rfl⟩ := Nat.exists_eq_add_of_le hkn
    induction d generalizing u k with
    | zero =>
      by_cases hready : (u.after (line k)).lsr (line k).others &&& 0x20 ≠ 0
      · exact hnow u k hready
      · have hcount : 0 < (line k).events.count .shifted := List.count_pos_iff.mpr hsent
        refine hlater u k hready (ih _ _ ?_)
        rw [after_length]
        omega
    | succ d ihd =>
      by_cases hready : (u.after (line k)).lsr (line k).others &&& 0x20 ≠ 0
      · exact hnow u k hready
      · have hplace : k + 1 + d = k + (d + 1) := by omega
        refine hlater u k hready (ihd _ _ ?_ (by omega) (by rwa [hplace]))
        rw [after_length]
        omega

end Line

section Returns

variable {σ : Type} {on : List LineTick → σ → σ} {I : σ → Prop} {f g : σ → Except Fault σ}

/-- On a line on which the controller sends again and again, `f` comes back from the states that `I` allows,
with a piece of the line used up. -/
def Returns (on : List LineTick → σ → σ) (I : σ → Prop) (f : σ → Except Fault σ) : Prop :=
  ∀ line, Lively line → ∀ s k, I s →
    ∃ n s', I s' ∧ ∀ more, f (on ((List.range' k n).map line ++ more) s) = .ok (on more s')

/-- What does not look at the line comes back. -/
theorem Returns.of_ok (step : σ → σ) (hstep : ∀ s, I s → I (step s))
    (h : ∀ s more, I s → f (on more s) = .ok (on more (step s))) : Returns on I f := by
  intro line hline s k hs
  exact ⟨0, step s, hstep s hs, fun more => h s more hs⟩

theorem Returns.bind (hf : Returns on I f) (hg : Returns on I g) : Returns on I fun s => f s >>= g := by
  intro line hline s k hs
  obtain ⟨n, s₁, hs₁, hfirst⟩ := hf line hline s k hs
  obtain ⟨m, s', hs', hrest⟩ := hg line hline s₁ (k + n) hs₁
  refine ⟨n + m, s', hs', fun more => ?_⟩
  have hbind := congrArg (· >>= g)
    (hfirst ((List.range' (k + n) m).map line ++ more))
  rw [← List.range'_append_1, List.map_append, List.append_assoc]
  exact hbind.trans (hrest more)

theorem Returns.foldlM {α : Type} {step : σ → α → Except Fault σ}
    (h : ∀ a, Returns on I fun s => step s a) (as : List α) : Returns on I fun s => as.foldlM step s := by
  induction as with
  | nil => exact .of_ok id (fun s hs => hs) fun s more hs => rfl
  | cons a as ih => exact (h a).bind ih

end Returns

end Uart

end Levos.Framework
