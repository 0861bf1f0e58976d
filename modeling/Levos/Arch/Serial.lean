import Levos.Framework.Run
import Levos.Framework.Uart

namespace Levos.Arch

open Levos.Framework

/-- `serial_out`. -/
def serialOut (u : Uart) (o : Nat) (d : BitVec 8) : Uart := u.outportb o d

/-- `serial_out_data`, with the loop over `serial_is_ready_to_send`. -/
def serialOutData (d : BitVec 8) (line : List LineTick) (u : Uart) :
    Except Fault (List LineTick × Uart) := do
  let (line, u) ← Uart.await 0x20 line u
  return (line, serialOut u 0 d)

/-- `serial_try_read_data`. -/
def serialTryReadData (line : List LineTick) (u : Uart) : Except Fault (BitVec 8 × List LineTick × Uart) := do
  let (v, line, u) ← u.status line
  if v &&& 0x01 = 0 then return (0, line, u)
  else
    let (d, u) := u.receive
    return (d, line, u)

/-- The loop of `serial_write`. -/
def serialEmit : List (BitVec 8) → List LineTick → Uart → Except Fault (List LineTick × Uart)
  | [], line, u => .ok (line, u)
  | c :: cs, line, u => do
    let (line, u) ← serialOutData c line u
    serialEmit cs line u

/-- `serial_write`. -/
def serialWrite (buf : List (BitVec 8)) (line : List LineTick) (u : Uart) :
    Except Fault (Int × List LineTick × Uart) := do
  let (line, u) ← serialEmit buf line u
  return (buf.length, line, u)

/-- The loop of `serial_read`, with `n` bytes to go. -/
def serialCollect : Nat → List LineTick → Uart → Except Fault (List (BitVec 8) × List LineTick × Uart)
  | 0, line, u => .ok ([], line, u)
  | n + 1, line, u => do
    let (val, line, u) ← serialTryReadData line u
    if val = 0 then return ([], line, u)
    else
      let (buf, line, u) ← serialCollect n line u
      return (val :: buf, line, u)

/-- `serial_read`: what it returns, and the bytes that it stores at the beginning of the buffer. -/
def serialRead (count : Nat) (line : List LineTick) (u : Uart) :
    Except Fault (Int × List (BitVec 8) × List LineTick × Uart) := do
  let (buf, line, u) ← serialCollect count line u
  return (buf.length, buf, line, u)

/-- `x86_serial_init`, as far as the controller is concerned. -/
def x86SerialInit (u : Uart) : Uart :=
  let u := serialOut u 1 0x00
  let u := serialOut u 3 0x80
  let u := serialOut u 0 0x03
  let u := serialOut u 1 0x00
  let u := serialOut u 3 0x03
  let u := serialOut u 2 0xC7
  serialOut u 4 0x0B

/-- The calls of the serial device, with what a read returns, and the time between them. -/
inductive SerialEvent
  | wrote (buf : List (BitVec 8))
  | read (count : Nat) (buf : List (BitVec 8))
  | passed (t : LineTick)

inductive SerialStep : Uart → SerialEvent → Uart → Prop
  | wrote {u u' : Uart} {buf : List (BitVec 8)} {n : Int} {line line' : List LineTick}
      (h : serialWrite buf line u = .ok (n, line', u')) : SerialStep u (.wrote buf) u'
  | read {u u' : Uart} {count : Nat} {n : Int} {buf : List (BitVec 8)} {line line' : List LineTick}
      (h : serialRead count line u = .ok (n, buf, line', u')) : SerialStep u (.read count buf) u'
  | passed {u : Uart} (t : LineTick) : SerialStep u (.passed t) (u.after t)

def SerialEvent.sends : SerialEvent → List (BitVec 8)
  | .wrote buf => buf
  | _ => []

def SerialEvent.returns : SerialEvent → List (BitVec 8)
  | .read _ buf => buf
  | _ => []

section Calls

variable {u u' : Uart} {d : BitVec 8} {n : Nat} {buf : List (BitVec 8)} {line line' : List LineTick}

/-- Between the two states `bytes` were written and `new` came in, of which `returned` was read. A zero is
not told from no byte. -/
structure Serves (u : Uart) (bytes new returned : List (BitVec 8)) (u' : Uart) : Prop where
  isOpen : u'.Open
  sent : u'.wire ++ u'.outgoing = u.wire ++ u.outgoing ++ bytes
  accepted : u'.accepted = u.accepted ++ new
  read : returned ++ u'.incoming.filter (· ≠ 0) = (u.incoming ++ new).filter (· ≠ 0)
  setup : u'.lcr = u.lcr ∧ u'.divisor = u.divisor ∧ u'.ier = u.ier ∧ u'.mcr = u.mcr

theorem Serves.refl (h : u.Open) : Serves u [] [] [] u := by
  refine ⟨h, ?_, ?_, ?_, rfl, rfl, rfl, rfl⟩
  all_goals simp

theorem Serves.trans {bytes bytes' new new' returned returned' : List (BitVec 8)} {u'' : Uart}
    (h : Serves u bytes new returned u') (k : Serves u' bytes' new' returned' u'') :
    Serves u (bytes ++ bytes') (new ++ new') (returned ++ returned') u'' := by
  obtain ⟨h1, h2, h3, h4⟩ := h.setup
  obtain ⟨k1, k2, k3, k4⟩ := k.setup
  refine ⟨k.isOpen, ?_, ?_, ?_, k1.trans h1, k2.trans h2, k3.trans h3, k4.trans h4⟩
  · rw [k.sent, h.sent, List.append_assoc]
  · rw [k.accepted, h.accepted, List.append_assoc]
  · rw [List.append_assoc, k.read, List.filter_append, ← List.append_assoc, h.read,
      ← List.filter_append, List.append_assoc]

theorem serves_passes {new : List (BitVec 8)} (h : u.Open) (hp : u.Passes new u') :
    Serves u [] new [] u' := by
  refine ⟨h.passes hp, ?_, hp.accepted, ?_, hp.setup⟩
  · rw [hp.sent, List.append_nil]
  · rw [hp.incoming, List.nil_append]

/-- A byte is written when nothing waits to be sent. -/
theorem serialOutData_ok (h : u.Open) (hcall : serialOutData d line u = .ok (line', u')) :
    ∃ new, Serves u [d] new [] u' := by
  obtain ⟨⟨rest, u₁⟩, hwait, hret⟩ := bind_eq_ok.mp hcall
  cases hret
  obtain ⟨⟨new, hpass⟩, others, hready⟩ := Uart.await_passes h.fifos hwait
  have hopen := h.passes hpass
  have hempty : u₁.outgoing = [] := (u₁.lsr_room others).mp hready
  have hroom : u₁.outgoing.length < 16 := by simp [hempty]
  have hout : serialOut u₁ 0 d = { u₁ with outgoing := [d] } := by
    simp [serialOut, Uart.outportb, hopen.data, Uart.transmit, hopen.fifos, hempty]
  have hwrite : Serves u₁ [d] [] [] { u₁ with outgoing := [d] } := by
    refine ⟨⟨hopen.fifos, hopen.data, Nat.le_refl 1⟩, ?_, ?_, ?_, rfl, rfl, rfl, rfl⟩
    all_goals simp [hempty]
  refine ⟨new ++ [], ?_⟩
  rw [hout]
  exact (serves_passes h hpass).trans hwrite

theorem serialEmit_ok (h : u.Open) (hcall : serialEmit buf line u = .ok (line', u')) :
    ∃ new, Serves u buf new [] u' := by
  induction buf generalizing u line with
  | nil =>
    cases hcall
    exact ⟨[], .refl h⟩
  | cons c cs ih =>
    obtain ⟨⟨line₁, u₁⟩, hone, hrest⟩ := bind_eq_ok.mp hcall
    obtain ⟨new, hfirst⟩ := serialOutData_ok h hone
    obtain ⟨new', hlast⟩ := ih hfirst.isOpen hrest
    exact ⟨new ++ new', hfirst.trans hlast⟩

/-- A zero says that there is no byte, or that the byte is zero. -/
theorem serialTryReadData_ok (h : u.Open) (hcall : serialTryReadData line u = .ok (d, line', u')) :
    ∃ new, Serves u [] new (if d = 0 then [] else [d]) u' := by
  obtain ⟨⟨v, rest, u₁⟩, hread, hret⟩ := bind_eq_ok.mp hcall
  obtain ⟨new, others, hpass, hv⟩ := Uart.status_passes h.fifos hread
  have hpassed := serves_passes h hpass
  by_cases hdata : v &&& 0x01 = 0
  · simp only [hdata, if_true] at hret
    cases hret
    exact ⟨new, hpassed⟩
  · simp only [hdata, if_false] at hret
    rw [hv] at hdata
    cases hin : u₁.incoming with
    | nil => exact absurd hin ((u₁.lsr_data others).mp hdata)
    | cons b bs =>
      simp only [Uart.receive, hin, List.headD_cons, List.tail_cons] at hret
      cases hret
      have htaken : Serves u₁ [] [] (if d = 0 then [] else [d]) { u₁ with incoming := bs } := by
        obtain ⟨hfifos, hlatch, hroom⟩ := hpassed.isOpen
        refine ⟨⟨hfifos, hlatch, hroom⟩, ?_, ?_, ?_, rfl, rfl, rfl, rfl⟩
        · rw [List.append_nil]
        · rw [List.append_nil]
        · by_cases hd : d = 0
          · simp [hin, hd]
          · have hkept : (d :: bs).filter (· ≠ 0) = d :: bs.filter (· ≠ 0) :=
              List.filter_cons_of_pos (by simpa using hd)
            rw [if_neg hd, hin, List.append_nil, hkept]
            rfl
      exact ⟨new ++ [], hpassed.trans htaken⟩

theorem serialCollect_ok (h : u.Open) (hcall : serialCollect n line u = .ok (buf, line', u')) :
    (∃ new, Serves u [] new buf u') ∧ buf.length ≤ n ∧ 0 ∉ buf := by
  induction n generalizing u line buf with
  | zero =>
    cases hcall
    exact ⟨⟨[], .refl h⟩, Nat.le_refl 0, List.not_mem_nil⟩
  | succ n ih =>
    obtain ⟨⟨val, line₁, u₁⟩, hone, hrest⟩ := bind_eq_ok.mp hcall
    obtain ⟨new, hfirst⟩ := serialTryReadData_ok h hone
    by_cases hval : val = 0
    · simp only [hval, if_true] at hrest hfirst
      cases hrest
      exact ⟨⟨new, hfirst⟩, Nat.zero_le _, List.not_mem_nil⟩
    · simp only [hval, if_false] at hrest hfirst
      obtain ⟨⟨cs, line₂, u₂⟩, hcollect, hret⟩ := bind_eq_ok.mp hrest
      cases hret
      obtain ⟨⟨new', hlast⟩, hlen, hnul⟩ := ih hfirst.isOpen hcollect
      refine ⟨⟨new ++ new', hfirst.trans hlast⟩, Nat.succ_le_succ hlen, ?_⟩
      rw [List.mem_cons, not_or]
      exact ⟨Ne.symm hval, hnul⟩

/-- A write comes back once the controller has sent what waits, whatever else happens on the line. -/
theorem serialEmit_returns {line : Nat → LineTick} (hline : Uart.Lively line) (buf : List (BitVec 8))
    (u : Uart) (k : Nat) :
    ∃ n u', ∀ more, serialEmit buf ((List.range' k n).map line ++ more) u = .ok (more, u') := by
  induction buf generalizing u k with
  | nil => exact ⟨0, u, fun more => rfl⟩
  | cons c cs ih =>
    obtain ⟨n, u₁, hwait⟩ := Uart.await_room hline u k
    obtain ⟨m, u', hrest⟩ := ih (serialOut u₁ 0 c) (k + n)
    refine ⟨n + m, u', fun more => ?_⟩
    rw [← List.range'_append_1, List.map_append, List.append_assoc, serialEmit, serialOutData, hwait]
    exact hrest more

theorem serialTryReadData_returns (t : LineTick) (line : List LineTick) (u : Uart) :
    ∃ d u', serialTryReadData (t :: line) u = .ok (d, line, u') := by
  by_cases hdata : (u.after t).lsr t.others &&& 0x01 = 0
  · refine ⟨0, u.after t, ?_⟩
    rw [serialTryReadData, Uart.status, ok_bind]
    exact if_pos hdata
  · refine ⟨(u.after t).receive.1, (u.after t).receive.2, ?_⟩
    rw [serialTryReadData, Uart.status, ok_bind]
    exact if_neg hdata

/-- A read comes back after no more reads of the status than it is asked for bytes. -/
theorem serialCollect_returns (hlen : n ≤ line.length) : ∃ r, serialCollect n line u = .ok r := by
  induction n generalizing u line with
  | zero => exact ⟨_, rfl⟩
  | succ n ih =>
    cases line with
    | nil => simp at hlen
    | cons t line =>
      obtain ⟨val, u₁, hone⟩ := serialTryReadData_returns t line u
      obtain ⟨⟨cs, line₂, u₂⟩, hrest⟩ := ih (u := u₁) (Nat.le_of_succ_le_succ hlen)
      rw [serialCollect, hone]
      by_cases hval : val = 0
      · exact ⟨([], line, u₁), if_pos hval⟩
      · refine ⟨(val :: cs, line₂, u₂), (if_neg hval).trans ?_⟩
        simp only [hrest, ok_bind]
        rfl

end Calls

section Runs

variable {u u' : Uart} {es : List SerialEvent}

/-- `x86_serial_init` sets up any controller: 38400 baud, 8 bits. Interrupts are not turned off where the
registers of the divisor were selected before. -/
theorem x86SerialInit_eq (u : Uart) : x86SerialInit u = { u with
    ier := if u.dlab then u.ier else 0, lcr := 3, mcr := 0x0B, divisor := 3, fifos := true
    outgoing := [], incoming := [] } := by
  have hlow (w : BitVec 8) : (w ++ (3 : BitVec 8)).extractLsb' 0 8 = 3 := by
    apply BitVec.eq_of_getLsbD_eq
    intro i hi
    rw [BitVec.getLsbD_extractLsb', Nat.zero_add, BitVec.getLsbD_append]
    simp only [hi, decide_true, Bool.true_and, if_true]
  have hlatch : (0x80 : BitVec 8).getLsbD 7 = true := by decide
  have hfcr : (0xC7 : BitVec 8).getLsbD 0 = true ∧ (0xC7 : BitVec 8).getLsbD 1 = true ∧
      (0xC7 : BitVec 8).getLsbD 2 = true := by decide
  have hrest (v : Uart) : serialOut (serialOut (serialOut (serialOut (serialOut (serialOut v 3 0x80)
      0 0x03) 1 0x00) 3 0x03) 2 0xC7) 4 0x0B = { v with
        lcr := 3, mcr := 0x0B, divisor := 3, fifos := true, outgoing := [], incoming := [] } := by
    simp only [serialOut, Uart.outportb, Uart.dlab, hlatch, if_true, hlow, hfcr]
    rfl
  refine (hrest (serialOut u 1 0x00)).trans ?_
  cases hdlab : u.dlab with
  | false =>
    simp only [serialOut, Uart.outportb, hdlab]
    rfl
  | true =>
    simp only [serialOut, Uart.outportb, hdlab]
    rfl

theorem serialStep_serves {e : SerialEvent} (h : u.Open) (hstep : SerialStep u e u') :
    ∃ new, Serves u e.sends new e.returns u' := by
  cases hstep with
  | wrote hcall =>
    obtain ⟨⟨line, u₁⟩, hemit, hret⟩ := bind_eq_ok.mp hcall
    cases hret
    exact serialEmit_ok h hemit
  | read hcall =>
    obtain ⟨⟨buf, line, u₁⟩, hcollect, hret⟩ := bind_eq_ok.mp hcall
    cases hret
    exact (serialCollect_ok h hcollect).1
  | passed t =>
    obtain ⟨new, hpass⟩ := Uart.after_passes h.fifos t
    exact ⟨new, serves_passes h hpass⟩

theorem serialRun_serves (h : u.Open) (hrun : Run SerialStep u es u') :
    ∃ new, Serves u (es.flatMap SerialEvent.sends) new (es.flatMap SerialEvent.returns) u' := by
  induction hrun with
  | nil u => exact ⟨[], .refl h⟩
  | cons hstep _ ih =>
    obtain ⟨new, hfirst⟩ := serialStep_serves h hstep
    obtain ⟨new', hrest⟩ := ih hfirst.isOpen
    exact ⟨new ++ new', hfirst.trans hrest⟩

end Runs

/-- After `x86_serial_init` the bytes that are written are sent in order, none of them lost, with at most
one of them still to be sent. What reads return is what came in without its zeros, in order, as far as it
does not wait to be read. Calls come back, a write on any line on which the controller sends. -/
theorem serial_streams {u u' : Uart} {es : List SerialEvent} (h : Run SerialStep (x86SerialInit u) es u') :
    (u'.wire ++ u'.outgoing = u.wire ++ es.flatMap SerialEvent.sends ∧ u'.outgoing.length ≤ 1) ∧
      (∃ came, u'.accepted = u.accepted ++ came ∧ es.flatMap SerialEvent.returns ++
        u'.incoming.filter (· ≠ 0) = came.filter (· ≠ 0)) ∧
      (u'.divisor = 3 ∧ u'.lcr = 3 ∧ (u.dlab = false → u'.ier = 0)) ∧
      (∀ line, Uart.Lively line → ∀ buf, ∃ n u'',
        serialWrite buf ((List.range n).map line) u' = .ok (buf.length, [], u'')) ∧
      ∀ count line, count ≤ line.length → ∃ buf line' u'',
        serialRead count line u' = .ok (buf.length, buf, line', u'') ∧ buf.length ≤ count ∧ 0 ∉ buf := by
  have hopen : (x86SerialInit u).Open := by
    rw [x86SerialInit_eq]
    exact ⟨rfl, (by decide : (3 : BitVec 8).getLsbD 7 = false), Nat.zero_le 1⟩
  obtain ⟨came, hserves⟩ := serialRun_serves hopen h
  obtain ⟨hlcr, hdivisor, hier, -⟩ := hserves.setup
  have hsent := hserves.sent
  have hread := hserves.read
  have haccepted := hserves.accepted
  rw [x86SerialInit_eq] at hsent hread haccepted hlcr hdivisor hier
  refine ⟨⟨?_, hserves.isOpen.room⟩, ⟨came, haccepted, hread⟩, ⟨hdivisor, hlcr, ?_⟩, ?_, ?_⟩
  · simpa using hsent
  · intro hdlab
    rw [hier, hdlab]
    rfl
  · intro line hline buf
    obtain ⟨n, u'', hemit⟩ := serialEmit_returns hline buf u' 0
    have hall := hemit []
    rw [List.append_nil, ← List.range_eq_range'] at hall
    refine ⟨n, u'', ?_⟩
    rw [serialWrite, hall]
    rfl
  · intro count line hlen
    obtain ⟨⟨buf, line', u''⟩, hcollect⟩ := serialCollect_returns (u := u') hlen
    obtain ⟨-, hcount, hnul⟩ := serialCollect_ok hserves.isOpen hcollect
    refine ⟨buf, line', u'', ?_, hcount, hnul⟩
    rw [serialRead, hcollect]
    rfl

/-- A controller after a reset. -/
def resetUart : Uart := ⟨0, 0, 0, 0, false, [], [], [], []⟩

/-- What happens in `serial_streams_echo`: the second byte is written when the first one is sent, and
an `a` comes in before a zero. -/
def echoEvents : List SerialEvent :=
  [.wrote [0x68, 0x69], .passed ⟨0, [.arrived 0x61, .shifted, .arrived 0]⟩, .read 4 [0x61]]

theorem serial_streams_echo : ∃ u', Run SerialStep (x86SerialInit resetUart) echoEvents u' ∧
    u'.wire ++ u'.outgoing = [0x68, 0x69] := by
  let line : List LineTick := [⟨0, []⟩, ⟨0, [.shifted]⟩]
  have hrun : ∃ u', Run SerialStep (x86SerialInit resetUart) echoEvents u' :=
    ⟨_, .cons (@SerialStep.wrote _ _ _ _ line _ rfl) (.cons (.passed _) (.cons
      (@SerialStep.read _ _ _ _ _ line _ rfl) (.nil _)))⟩
  obtain ⟨u', h⟩ := hrun
  exact ⟨u', h, (serial_streams h).1.1⟩

end Levos.Arch
