import Levos.Drivers.TtyOutput
import Levos.Kernel.Console
import Levos.Kernel.Printk

namespace Levos.Kernel

open Levos.Framework Levos.Arch Levos.Lib
open Levos.Drivers (Tty emitted TTY_OUT_BUFSIZE)

/-- The consoles, and `printk_tty`. The emitter is that for a tty exactly when there is one. -/
structure Output where
  consoles : Consoles
  printkTty : Option Tty

/-- `__printk_emit_notty`. -/
def printkEmitNotty (o : Consoles) (c : BitVec 8) : Except Fault Consoles := do
  let o ← (if c = 0 then .ok o else consoleSend o c)
  if c = 0x0A then consoleSend o 0x0D else return o

/-- `__printk_emit`. What the tty hands to its output device, `console_dev`, goes to the consoles. -/
def emitChar (o : Output) (c : BitVec 8) : Except Fault Output :=
  match o.printkTty with
  | none => do
    let consoles ← printkEmitNotty o.consoles c
    return { o with consoles := consoles }
  | some t => do
    let t' ← Drivers.printkEmitTty t c
    let (_, consoles) ← consoleDevWrite o.consoles (t'.sent.drop t.sent.length)
    return ⟨consoles, some t'⟩

/-- `printk_switch_tty`, to the tty `t`. -/
def printkSwitchTty (t : Tty) (o : Output) : Output :=
  { o with printkTty := some { t with
      output := some ⟨false, true, []⟩, input := some ⟨true, false, []⟩, buffered := false } }

/-- The loop of `printk_ticks`, with `n` zeros to go. -/
def padTicks : Nat → Output → Except Fault Output
  | 0, o => .ok o
  | n + 1, o => do
    let (o, _) ← vprintkFrom emitChar [0x30] [] o
    padTicks n o

/-- `printk_ticks`. -/
def printkTicks (ticks : BitVec 32) (o : Output) : Except Fault Output := do
  let (o, _) ← vprintkFrom emitChar [0x5B] [] o
  let str ← itoa ticks 10 (Buffer.zero 32)
  let s ← stringAt str 32 0
  let o ← padTicks (6 - s.length) o
  let (o, _) ← vprintkFrom emitChar s [] o
  let (o, _) ← vprintkFrom emitChar [0x5D, 0x20] [] o
  return o

/-- `printk`. -/
def printk (ticks : BitVec 32) (fmt : CString) (ap : List VaArg) (o : Output) : Except Fault Output := do
  let o ← printkTicks ticks o
  let (o, _) ← vprintk emitChar fmt ap o
  return o

/-- What stands before each text that is printed. -/
def stamp (ticks : BitVec 32) : List (BitVec 8) :=
  let s := numeral bchar 10 ticks.toNat
  0x5B :: (List.replicate (6 - s.length) 0x30 ++ s ++ [0x5D, 0x20])

/-- A character as `printk` sends it. -/
def typed (tty : Bool) (c : BitVec 8) : List (BitVec 8) := if c = 0 ∧ tty = false then [] else emitted c

/-- What is done with the output of the kernel. The text of a `printk` or `vprintk` is what its format
prints; `emit` is `__printk_emit` for one character. -/
inductive OutputCall
  | register (c : Console)
  | printk (ticks : BitVec 32) (text : List (BitVec 8))
  | vprintk (text : List (BitVec 8))
  | emit (c : BitVec 8)
  | write (buf : List (BitVec 8))
  | switchTty
  deriving DecidableEq

def OutputCall.sends (tty : Bool) : OutputCall → List (BitVec 8)
  | .printk ticks text => (stamp ticks ++ text).flatMap (typed tty)
  | .vprintk text => text.flatMap (typed tty)
  | .emit c => typed tty c
  | .write buf => buf
  | _ => []

/-- What is sent by calls that begin with or without a tty. -/
def sent : Bool → List OutputCall → List (BitVec 8)
  | _, [] => []
  | tty, e :: es => e.sends tty ++ sent (tty || e = .switchTty) es

def Output.on (line : List LineTick) (o : Output) : Output := { o with consoles := o.consoles.on line }

/-- A call, while anything may happen on the serial line. The tty that is switched to has nothing waiting
in its output buffer. -/
inductive OutputStep : Output → OutputCall → Output → Prop
  | register {o : Output} (c : Console) :
      OutputStep o (.register c) { o with consoles := (consoleRegister o.consoles c).2 }
  | printk {o o' : Output} {ticks : BitVec 32} {fmt : CString} {ap : List VaArg} {text : List (BitVec 8)}
      {line : List LineTick} (hfmt : Prints fmt ap text) (h : printk ticks fmt ap (o.on line) = .ok o') :
      OutputStep o (.printk ticks text) o'
  | vprintk {o o' : Output} {fmt : CString} {ap : List VaArg} {text : List (BitVec 8)}
      {line : List LineTick} (hfmt : Prints fmt ap text)
      (h : vprintk emitChar fmt ap (o.on line) = .ok (o', [])) : OutputStep o (.vprintk text) o'
  | emit {o o' : Output} {c : BitVec 8} {line : List LineTick} (h : emitChar (o.on line) c = .ok o') :
      OutputStep o (.emit c) o'
  | write {o : Output} {consoles : Consoles} {n : Int} {buf : List (BitVec 8)} {line : List LineTick}
      (h : consoleDevWrite (o.consoles.on line) buf = .ok (n, consoles)) :
      OutputStep o (.write buf) { o with consoles := consoles }
  | switchTty {o : Output} {t : Tty} (hsize : t.outputbuf.size = TTY_OUT_BUFSIZE) (hidx : t.outputidx = 0) :
      OutputStep o .switchTty (printkSwitchTty t o)

/-- What the output is for: each registered console is sent the same bytes from then on. -/
structure Log where
  cons : List Console
  sinks : Console → List (BitVec 8)
  tty : Bool

namespace Log

def send (l : Log) (bytes : List (BitVec 8)) : Log :=
  { l with sinks := fun c => l.sinks c ++ copies l.cons bytes c }

def next (l : Log) : OutputCall → Log
  | .register c => if MAX_CONSOLES ≤ l.cons.length then l else { l with cons := l.cons ++ [c] }
  | .switchTty => { l with tty := true }
  | e => l.send (e.sends l.tty)

def of (es : List OutputCall) : Log := es.foldl next ⟨[], fun _ => [], false⟩

end Log

/-- The output after `console_sys_init`, `kmsg_init`, `x86_serial_init` and `textmode_init`, but for the
consoles that they register. -/
def bootOutput (u : Uart) (s : Textmode) : Output :=
  ⟨⟨[], Nat.zero_le _, kmsgInit, x86SerialInit u, textmodeClear s, []⟩, none⟩

/-- Nothing waits in the tty. -/
def Quiet (tty : Option Tty) : Prop := ∀ t, tty = some t → t.Accepts ∧ t.buffered = false ∧ t.outputidx = 0

/-- The consoles work, and nothing waits in the tty. -/
structure Output.Ready (o : Output) : Prop where
  consoles : o.consoles.Ready
  tty : Quiet o.printkTty

section Emit

variable {o o' : Output} {tty : Option Tty} {c : BitVec 8} {text : List (BitVec 8)}

theorem printkEmitNotty_eq (o : Consoles) (c : BitVec 8) :
    printkEmitNotty o c = (typed false c).foldlM consoleSend o := by
  by_cases hc : c = 0
  · subst hc
    rfl
  · rw [printkEmitNotty, if_neg hc, typed, if_neg fun h => hc h.1, emitted]
    by_cases hnl : c = 0x0A
    · subst hnl
      simp only [if_true, List.foldlM_cons, List.foldlM_nil, bind_pure]
    · rw [if_neg hnl]
      simp only [if_neg hnl, List.foldlM_cons, List.foldlM_nil]

/-- A character is sent to the consoles at once, be it by way of a tty. -/
theorem emitChar_eq (h : Quiet tty) (c : BitVec 8) :
    ∃ tty', tty'.isSome = tty.isSome ∧ Quiet tty' ∧ ∀ consoles,
      emitChar ⟨consoles, tty⟩ c =
        ((typed tty.isSome c).foldlM consoleSend consoles).map fun consoles => ⟨consoles, tty'⟩ := by
  cases tty with
  | none =>
    refine ⟨none, rfl, h, fun consoles => ?_⟩
    simp only [emitChar, printkEmitNotty_eq, Option.isSome_none]
    cases (typed false c).foldlM consoleSend consoles <;> rfl
  | some t =>
    obtain ⟨haccepts, hbuf, hidx⟩ := h t rfl
    obtain ⟨t', hemit, haccepts', hbuf', hidx', hsent⟩ := Drivers.printkEmitTty_spec haccepts hbuf c
    have hpending : t.pendingOutput = [] := by rw [Tty.pendingOutput, hidx, Buffer.bytes_zero]
    have hnew : t'.sent.drop t.sent.length = emitted c := by
      rw [hsent, hpending, List.append_nil, List.drop_left]
    refine ⟨some t', rfl, fun t'' ht => ?_, fun consoles => ?_⟩
    · cases ht
      exact ⟨haccepts', hbuf', hidx'⟩
    · have htyped : typed true c = emitted c := by simp [typed]
      simp only [emitChar, hemit, ok_bind, consoleDevWrite, hnew, Option.isSome_some, htyped]
      cases (emitted c).foldlM consoleSend consoles <;> rfl

theorem emitChar_gets (h : o.Ready) (hcall : emitChar o c = .ok o') :
    o'.Ready ∧ o'.printkTty.isSome = o.printkTty.isSome ∧
      o.consoles.Gets (copies o.consoles.cons (typed o.printkTty.isSome c)) o'.consoles := by
  obtain ⟨tty', hsome, hquiet, heq⟩ := emitChar_eq h.tty c
  rw [heq o.consoles] at hcall
  obtain ⟨consoles, hsend, hret⟩ := bind_eq_ok.mp hcall
  cases hret
  have hgets := sendAll_gets h.consoles hsend
  exact ⟨⟨hgets.ready h.consoles, hquiet⟩, hsome, hgets⟩

theorem emitText_gets (h : o.Ready) (hcall : text.foldlM emitChar o = .ok o') :
    o'.Ready ∧ o'.printkTty.isSome = o.printkTty.isSome ∧
      o.consoles.Gets (copies o.consoles.cons (text.flatMap (typed o.printkTty.isSome))) o'.consoles := by
  induction text generalizing o with
  | nil =>
    cases hcall
    exact ⟨h, rfl, .refl h.consoles⟩
  | cons c cs ih =>
    obtain ⟨o₁, hone, hrest⟩ := bind_eq_ok.mp hcall
    obtain ⟨h₁, htty₁, hfirst⟩ := emitChar_gets h hone
    obtain ⟨h', htty', hlast⟩ := ih h₁ hrest
    rw [hfirst.cons, htty₁] at hlast
    have hall := hfirst.trans hlast
    refine ⟨h', htty'.trans htty₁, ?_⟩
    have hcopies : (fun d => copies o.consoles.cons (typed o.printkTty.isSome c) d ++
          copies o.consoles.cons (cs.flatMap (typed o.printkTty.isSome)) d) =
        copies o.consoles.cons ((c :: cs).flatMap (typed o.printkTty.isSome)) := by
      funext d
      simp [copies]
    rwa [hcopies] at hall

theorem emitChar_returns (c : BitVec 8) : Uart.Returns Output.on Output.Ready fun o => emitChar o c := by
  intro line hline o k h
  obtain ⟨tty', -, hquiet, heq⟩ := emitChar_eq h.tty c
  obtain ⟨n, consoles, hready, hsend⟩ :=
    Uart.Returns.foldlM consoleSend_returns (typed o.printkTty.isSome c) line hline o.consoles k h.consoles
  refine ⟨n, ⟨consoles, tty'⟩, ⟨hready, hquiet⟩, fun more => ?_⟩
  exact (heq _).trans (congrArg _ (hsend more))

end Emit

section Printk

variable {σ : Type} {emit : σ → BitVec 8 → Except Fault σ} {text : List (BitVec 8)}

/-- A text without percent signs is printed as it stands. -/
theorem vprintkFrom_text (htext : 0x25 ∉ text) (ap : List VaArg) (st : σ) :
    vprintkFrom emit text ap st = (text.foldlM emit st).map fun st => (st, ap) := by
  induction text generalizing st with
  | nil => rfl
  | cons c text ih =>
    rw [List.mem_cons, not_or] at htext
    have hrest : vprintkFrom emit text ap = fun st => (text.foldlM emit st).map fun st => (st, ap) :=
      funext (ih htext.2)
    rw [vprintkFrom_literal (Ne.symm htext.1), hrest, List.foldlM_cons]
    cases emit st c <;> rfl

theorem prints_text (htext : 0x25 ∉ text) (hnul : 0 ∉ text) : Prints ⟨text, hnul⟩ [] text :=
  fun _ _ st more => vprintkFrom_text htext more st

theorem map_bind {x : Except Fault σ} {ap : List VaArg} {τ : Type} (f : σ × List VaArg → Except Fault τ) :
    ((x.map fun st => (st, ap)) >>= f) = x >>= fun st => f (st, ap) := by
  cases x <;> rfl

theorem padTicks_eq (n : Nat) (o : Output) :
    padTicks n o = (List.replicate n 0x30).foldlM emitChar o := by
  induction n generalizing o with
  | zero => rfl
  | succ n ih =>
    have hzero : vprintkFrom emitChar [0x30] [] o = ([0x30].foldlM emitChar o).map fun st => (st, []) :=
      vprintkFrom_text (by decide) [] o
    have hcons : List.replicate (n + 1) 0x30 = [0x30] ++ List.replicate n (0x30 : BitVec 8) := rfl
    rw [padTicks, hzero, map_bind, hcons, List.foldlM_append]
    exact congrArg _ (funext ih)

/-- The time is printed with no fewer than six digits. -/
theorem printkTicks_eq (ticks : BitVec 32) (o : Output) :
    printkTicks ticks o = (stamp ticks).foldlM emitChar o := by
  have hsize : (numeral bchar 10 ticks.toNat).length < (Buffer.zero 32).size :=
    Nat.lt_succ_of_le (length_numeral_le (by decide) (by decide) (decimal_length ticks))
  have hstring : stringAt ((Buffer.zero 32).stored 0 (numeral bchar 10 ticks.toNat ++ [0])) 32 0 =
      .ok (numeral bchar 10 ticks.toNat) := stringAt_numeral (by decide) (by decide) ticks hsize
  have hdigits : 0x25 ∉ numeral bchar 10 ticks.toNat := by
    intro hmem
    obtain ⟨d, hd, hchar⟩ := mem_numeral (by decide) hmem
    have hall : ∀ d < 10, 0x25 ≠ bchar d := by decide
    exact hall d hd hchar
  have hopen : 0x25 ∉ [(0x5B : BitVec 8)] := by decide
  have hclose : 0x25 ∉ [(0x5D : BitVec 8), 0x20] := by decide
  have hstamp : stamp ticks = [0x5B] ++ (List.replicate (6 - (numeral bchar 10 ticks.toNat).length) 0x30 ++
      (numeral bchar 10 ticks.toNat ++ [0x5D, 0x20])) := by simp [stamp]
  have hitoa := itoa_numeral (by decide : 1 < 10) (by decide) ticks hsize
  simp only [printkTicks, vprintkFrom_text hopen, vprintkFrom_text hclose, map_bind, hitoa, hstring, ok_bind,
    vprintkFrom_text hdigits, padTicks_eq]
  rw [hstamp, List.foldlM_append]
  simp only [List.foldlM_append, bind_pure]

theorem vprintk_eq {fmt : CString} {ap : List VaArg} (hfmt : Prints fmt ap text) (o : Output) :
    vprintk emitChar fmt ap o = (text.foldlM emitChar o).map fun st => (st, []) := by
  have hprint := hfmt Output emitChar o []
  rwa [List.append_nil] at hprint

/-- `printk` sends the time and then the text. -/
theorem printk_eq {fmt : CString} {ap : List VaArg} (hfmt : Prints fmt ap text) (ticks : BitVec 32)
    (o : Output) : printk ticks fmt ap o = (stamp ticks ++ text).foldlM emitChar o := by
  simp only [printk, printkTicks_eq, vprintk_eq hfmt, map_bind]
  rw [List.foldlM_append]
  simp only [bind_pure]

end Printk

section Runs

variable {o o' : Output} {u : Uart} {s : Textmode} {l : Log} {e : OutputCall} {es : List OutputCall}

/-- The devices hold what the log says. -/
structure Follows (u : Uart) (s : Textmode) (o : Output) (l : Log) : Prop where
  ready : o.Ready
  cons : o.consoles.cons = l.cons
  kmsg : o.consoles.kmsg = kept (l.sinks .kmsgCon)
  serial : ∃ new, Serves u (l.sinks .serialCon) new [] o.consoles.uart
  screen : o.consoles.screen = putchars (l.sinks .tmCon) s
  tty : o.printkTty.isSome = l.tty

theorem Follows.gets {bytes : List (BitVec 8)} (h : Follows u s o l) (hready : o'.Ready)
    (htty : o'.printkTty.isSome = o.printkTty.isSome)
    (hgets : o.consoles.Gets (copies o.consoles.cons bytes) o'.consoles) :
    Follows u s o' (l.send bytes) := by
  obtain ⟨new, hserial⟩ := h.serial
  obtain ⟨new', hserial'⟩ := hgets.serial
  rw [h.cons] at hgets hserial'
  refine ⟨hready, hgets.cons.trans h.cons, hgets.kmsg _ h.kmsg, ⟨new ++ new', ?_⟩, ?_, htty.trans h.tty⟩
  · have hall := hserial.trans hserial'
    exact hall
  · rw [hgets.screen, h.screen]
    exact (putchars_append _ _ _).symm

theorem Follows.on (h : Follows u s o l) (line : List LineTick) : Follows u s (o.on line) l :=
  ⟨⟨⟨h.ready.consoles.kmsg, h.ready.consoles.uart⟩, h.ready.tty⟩, h.cons, h.kmsg, h.serial, h.screen, h.tty⟩

theorem Follows.step (h : Follows u s o l) (hstep : OutputStep o e o') : Follows u s o' (l.next e) := by
  cases hstep with
  | register c =>
    by_cases hfull : MAX_CONSOLES ≤ o.consoles.cons.length
    · have hfull' : MAX_CONSOLES ≤ l.cons.length := by rwa [← h.cons]
      rw [consoleRegister, dif_pos hfull, Log.next, if_pos hfull']
      exact h
    · have hfull' : ¬MAX_CONSOLES ≤ l.cons.length := by rwa [← h.cons]
      rw [consoleRegister, dif_neg hfull, Log.next, if_neg hfull']
      exact ⟨⟨⟨h.ready.consoles.kmsg, h.ready.consoles.uart⟩, h.ready.tty⟩, congrArg (· ++ [c]) h.cons, h.kmsg,
        h.serial, h.screen, h.tty⟩
  | @printk o' ticks fmt ap text line hfmt hcall =>
    rw [printk_eq hfmt] at hcall
    have hon := h.on line
    obtain ⟨hready, htty, hgets⟩ := emitText_gets hon.ready hcall
    rw [hon.tty] at hgets
    exact hon.gets hready htty hgets
  | @vprintk o' fmt ap text line hfmt hcall =>
    rw [vprintk_eq hfmt] at hcall
    obtain ⟨o₁, htext, hret⟩ := bind_eq_ok.mp hcall
    cases hret
    have hon := h.on line
    obtain ⟨hready, htty, hgets⟩ := emitText_gets hon.ready htext
    rw [hon.tty] at hgets
    exact hon.gets hready htty hgets
  | @emit o' c line hcall =>
    have hon := h.on line
    obtain ⟨hready, htty, hgets⟩ := emitChar_gets hon.ready hcall
    rw [hon.tty] at hgets
    exact hon.gets hready htty hgets
  | @write consoles n buf line hcall =>
    obtain ⟨consoles', hsend, hret⟩ := bind_eq_ok.mp hcall
    cases hret
    have hon := h.on line
    have hgets := sendAll_gets hon.ready.consoles hsend
    have hready : ({ o with consoles := consoles } : Output).Ready :=
      ⟨hgets.ready hon.ready.consoles, h.ready.tty⟩
    exact hon.gets hready rfl hgets
  | @switchTty t hsize hidx =>
    refine ⟨⟨h.ready.consoles, fun t' ht => ?_⟩, h.cons, h.kmsg, h.serial, h.screen, rfl⟩
    cases ht
    exact ⟨⟨⟨_, rfl, rfl⟩, hsize, by simp [hidx]⟩, rfl, hidx⟩

theorem follows_boot (u : Uart) (s : Textmode) :
    Follows (x86SerialInit u) (textmodeClear s) (bootOutput u s) ⟨[], fun _ => [], false⟩ := by
  have hopen : (x86SerialInit u).Open := by
    rw [x86SerialInit_eq]
    exact ⟨rfl, (by decide : (3 : BitVec 8).getLsbD 7 = false), Nat.zero_le 1⟩
  have hkmsg : kmsgInit = kept [] := by rw [kept, kmsgInit]; simp [Buffer.stored_nil]
  exact ⟨⟨⟨⟨[], hkmsg⟩, hopen⟩, fun t ht => by cases ht⟩, rfl, hkmsg, ⟨[], .refl hopen⟩, rfl, rfl⟩

theorem follows_run (h : Follows u s o l) (hrun : Run OutputStep o es o') :
    Follows u s o' (es.foldl Log.next l) := by
  induction hrun generalizing l with
  | nil o => exact h
  | cons hstep _ ih => exact ih (h.step hstep)

/-- As long as a console is not registered again, it gets what is sent as often as before. -/
theorem sinks_foldl {c : Console} (hc : .register c ∉ es) (l : Log) :
    (es.foldl Log.next l).sinks c =
        l.sinks c ++ (sent l.tty es).flatMap (List.replicate (l.cons.count c)) ∧
      (es.foldl Log.next l).cons.count c = l.cons.count c := by
  induction es generalizing l with
  | nil => simp [sent]
  | cons e es ih =>
    rw [List.mem_cons, not_or] at hc
    obtain ⟨hsinks, hcount⟩ := ih hc.2 (l.next e)
    rw [List.foldl_cons, hsinks, hcount]
    cases e with
    | register d =>
      have hne : d ≠ c := fun hd => hc.1 (by rw [hd])
      by_cases hfull : MAX_CONSOLES ≤ l.cons.length
      · simp [Log.next, hfull, sent, OutputCall.sends]
      · simp [Log.next, hfull, sent, OutputCall.sends, List.count_append, hne]
    | printk ticks text =>
      simp [Log.next, Log.send, sent, OutputCall.sends, copies, List.append_assoc]
    | vprintk text => simp [Log.next, Log.send, sent, OutputCall.sends, copies]
    | emit c => simp [Log.next, Log.send, sent, OutputCall.sends, copies]
    | write buf => simp [Log.next, Log.send, sent, OutputCall.sends, copies]
    | switchTty => simp [Log.next, sent, OutputCall.sends]

/-- A console that is registered once gets all that is sent from then on. -/
theorem sinks_once {c : Console} {pre post : List OutputCall} (hpre : .register c ∉ pre)
    (hpost : .register c ∉ post) (hroom : (Log.of pre).cons.length < MAX_CONSOLES) :
    (Log.of (pre ++ .register c :: post)).sinks c = sent (Log.of pre).tty post := by
  obtain ⟨hbefore, hnone⟩ := sinks_foldl hpre ⟨[], fun _ => [], false⟩
  have hnext : (Log.of pre).next (.register c) =
      { Log.of pre with cons := (Log.of pre).cons ++ [c] } := if_neg (Nat.not_le.mpr hroom)
  obtain ⟨hafter, -⟩ := sinks_foldl hpost ((Log.of pre).next (.register c))
  have honce : ((Log.of pre).cons ++ [c]).count c = 1 := by
    rw [List.count_append, Log.of, hnone]
    simp
  have hempty : (Log.of pre).sinks c = [] := by
    rw [Log.of, hbefore]
    simp
  rw [Log.of, List.foldl_append, List.foldl_cons]
  refine hafter.trans ?_
  rw [hnext]
  have hsingle : List.replicate 1 = fun b : BitVec 8 => [b] := rfl
  simp only [honce, hempty, List.nil_append, hsingle, List.flatMap_singleton']

theorem printk_returns {fmt : CString} {ap : List VaArg} {text : List (BitVec 8)} (hfmt : Prints fmt ap text)
    (ticks : BitVec 32) : Uart.Returns Output.on Output.Ready (printk ticks fmt ap) := by
  rw [funext (printk_eq hfmt ticks)]
  exact .foldlM emitChar_returns _

end Runs

/-- Whatever is printed and written, the buffer of `kmsg` holds the beginning of what was sent to it without
its zeros, the serial line carries all that was sent to it, and so does the screen. A console that is
registered once is sent the same bytes as every other one from then on, with or without a tty between.
Every call returns on a line on which the controller sends. -/
theorem output_delivered {u : Uart} {s : Textmode} {es : List OutputCall} {o : Output}
    (h : Run OutputStep (bootOutput u s) es o) :
    (o.consoles.kmsg = kept ((Log.of es).sinks .kmsgCon) ∧
      (o.consoles.uart.wire ++ o.consoles.uart.outgoing = u.wire ++ (Log.of es).sinks .serialCon ∧
        o.consoles.uart.outgoing.length ≤ 1) ∧
      o.consoles.screen = putchars ((Log.of es).sinks .tmCon) (textmodeClear s)) ∧
    (∀ c pre post, es = pre ++ .register c :: post → .register c ∉ pre → .register c ∉ post →
      (Log.of pre).cons.length < MAX_CONSOLES → (Log.of es).sinks c = sent (Log.of pre).tty post) ∧
    ∀ line, Uart.Lively line →
      (∀ ticks fmt ap text, Prints fmt ap text →
        ∃ n o', printk ticks fmt ap (o.on ((List.range n).map line)) = .ok o') ∧
      ∀ buf, ∃ n o', consoleDevWrite (o.consoles.on ((List.range n).map line)) buf =
        .ok ((BitVec.ofNat 32 buf.length).toInt, o') := by
  have hfollows := follows_run (follows_boot u s) h
  obtain ⟨new, hserial⟩ := hfollows.serial
  have hsent := hserial.sent
  rw [x86SerialInit_eq, List.append_nil] at hsent
  refine ⟨⟨hfollows.kmsg, ⟨hsent, hserial.isOpen.room⟩, hfollows.screen⟩, ?_, fun line hline => ⟨?_, ?_⟩⟩
  · rintro c pre post rfl hpre hpost hroom
    exact sinks_once hpre hpost hroom
  · intro ticks fmt ap text hfmt
    obtain ⟨n, o', -, hcall⟩ := printk_returns hfmt ticks line hline o 0 hfollows.ready
    refine ⟨n, o'.on [], ?_⟩
    have hall := hcall []
    rwa [List.append_nil, ← List.range_eq_range'] at hall
  · intro buf
    obtain ⟨n, o', -, hcall⟩ :=
      Uart.Returns.foldlM consoleSend_returns buf line hline o.consoles 0 hfollows.ready.consoles
    refine ⟨n, o'.on [], ?_⟩
    have hall := hcall []
    rw [List.append_nil, ← List.range_eq_range'] at hall
    exact congrArg (· >>= fun o => .ok ((BitVec.ofNat 32 buf.length).toInt, o)) hall

/-- The consoles of `kmsg` and of the serial line are registered, and a line is printed: `[000007] hi`. -/
theorem output_delivered_line :
    ∃ o, Run OutputStep (bootOutput resetUart ⟨fun _ => ⟨0, none⟩, [], 0, 0, 0, 7⟩)
        [.register .kmsgCon, .register .serialCon, .printk 7 [0x68, 0x69, 0x0A]] o ∧
      o.consoles.uart.wire ++ o.consoles.uart.outgoing = stamp 7 ++ [0x68, 0x69, 0x0A, 0x0D] := by
  have htext : (0x25 : BitVec 8) ∉ [(0x68 : BitVec 8), 0x69, 0x0A] := by decide
  have hnul : (0 : BitVec 8) ∉ [(0x68 : BitVec 8), 0x69, 0x0A] := by decide
  have hline : Uart.Lively fun _ => ⟨0, [.shifted]⟩ := fun k =>
    ⟨k, Nat.le_refl k, List.mem_singleton_self _⟩
  have hboot : Run OutputStep (bootOutput resetUart ⟨fun _ => ⟨0, none⟩, [], 0, 0, 0, 7⟩)
      [.register .kmsgCon, .register .serialCon] _ := .cons (.register _) (.single (.register _))
  obtain ⟨-, -, hreturns⟩ := output_delivered hboot
  obtain ⟨n, o', hcall⟩ := (hreturns _ hline).1 7 _ _ _ (prints_text htext hnul)
  have hrun := hboot.snoc (.printk (prints_text htext hnul) hcall)
  obtain ⟨⟨-, ⟨hwire, -⟩, -⟩, honce, -⟩ := output_delivered hrun
  have hserial := honce .serialCon [.register .kmsgCon] [.printk 7 [0x68, 0x69, 0x0A]] rfl (by decide)
    (by decide) (by decide)
  have hseven : stamp 7 = [0x5B, 0x30, 0x30, 0x30, 0x30, 0x30, 0x37, 0x5D, 0x20] := by
    simp [stamp, numeral, bchar, bchars]
  refine ⟨o', hrun, ?_⟩
  rw [hwire, hserial, hseven]
  simp only [sent, OutputCall.sends, hseven]
  rfl

end Levos.Kernel
