import Levos.Drivers.Tty
import Levos.Framework.Fifo

namespace Levos.Drivers

open Levos.Framework

/-- All the bytes that the output device was handed. -/
def Tty.sent (t : Tty) : List (BitVec 8) :=
  match t.output with
  | none => []
  | some dev => dev.taken

/-- `bytes` were written between the two states of a tty: they stand behind the bytes that were
written before, be it at the device or in the buffer, and nothing else has changed. -/
structure Tty.Writes (t : Tty) (bytes : List (BitVec 8)) (t' : Tty) : Prop where
  stream : t'.sent ++ t'.pendingOutput = t.sent ++ t.pendingOutput ++ bytes
  sent : t.sent <+: t'.sent
  size : t'.outputbuf.size = t.outputbuf.size
  device : ∀ dev, t.output = some dev → ∃ taken, t'.output = some { dev with taken := taken }
  input : t'.input = t.input ∧ t'.inputbuf = t.inputbuf ∧ t'.inputidx = t.inputidx
  buffered : t'.buffered = t.buffered

namespace Tty.Writes

variable {t t' t'' : Tty} {bytes bytes' : List (BitVec 8)}

theorem refl (t : Tty) : t.Writes [] t where
  stream := by simp
  sent := List.prefix_rfl
  size := rfl
  device dev h := ⟨dev.taken, h⟩
  input := ⟨rfl, rfl, rfl⟩
  buffered := rfl

theorem trans (h : t.Writes bytes t') (k : t'.Writes bytes' t'') : t.Writes (bytes ++ bytes') t'' where
  stream := by rw [k.stream, h.stream, List.append_assoc]
  sent := h.sent.trans k.sent
  size := k.size.trans h.size
  device dev hdev := by
    obtain ⟨taken, h'⟩ := h.device dev hdev
    obtain ⟨taken', k'⟩ := k.device _ h'
    exact ⟨taken', k'⟩
  input := ⟨k.input.1.trans h.input.1, k.input.2.1.trans h.input.2.1, k.input.2.2.trans h.input.2.2⟩
  buffered := k.buffered.trans h.buffered

end Tty.Writes

section Calls

variable {t t' : Tty} {bytes : List (BitVec 8)}

/-- A flush hands the whole buffer to the device. -/
theorem ttyFlushOutput_ok (h : ttyFlushOutput t = .ok t') : t.Writes [] t' ∧ t'.outputidx = 0 := by
  cases hout : t.output with
  | none => simp [ttyFlushOutput, hout] at h
  | some dev =>
    cases hwrite : dev.write with
    | false => simp [ttyFlushOutput, hout, hwrite] at h
    | true =>
      simp [ttyFlushOutput, hout, hwrite] at h
      subst h
      refine ⟨⟨?_, ?_, rfl, ?_, ⟨rfl, rfl, rfl⟩, rfl⟩, rfl⟩
      · simp [Tty.sent, Tty.pendingOutput, hout]
      · simp [Tty.sent, hout]
      · intro dev' hdev
        cases hout.symm.trans hdev
        exact ⟨_, by rw [hwrite]⟩

/-- One byte is stored behind the others. -/
theorem store_writes (c : BitVec 8) {outputbuf : Buffer}
    (h : t.outputbuf.fill t.outputidx 1 (fun _ => c) = .ok outputbuf) :
    t.Writes [c] { t with outputbuf := outputbuf, outputidx := t.outputidx + 1 } := by
  have hlt := Buffer.lt_of_fill h
  rw [Buffer.fill_byte c (by omega)] at h
  cases h
  refine ⟨?_, List.prefix_rfl, rfl, fun dev hdev => ⟨dev.taken, hdev⟩, ⟨rfl, rfl, rfl⟩, rfl⟩
  have hbytes := Buffer.bytes_stored_append t.outputbuf t.outputidx [c]
  rw [List.length_singleton] at hbytes
  simp [Tty.sent, Tty.pendingOutput, hbytes]

/-- A flush under a condition. -/
theorem flush_writes {p : Prop} [Decidable p]
    (h : (if p then ttyFlushOutput t else .ok t) = .ok t') :
    t.Writes [] t' ∧ (p → t'.outputidx = 0) := by
  by_cases hp : p
  · rw [if_pos hp] at h
    obtain ⟨hw, hidx⟩ := ttyFlushOutput_ok h
    exact ⟨hw, fun _ => hidx⟩
  · rw [if_neg hp] at h
    cases h
    exact ⟨.refl t, fun hp' => absurd hp' hp⟩

/-- The flush in front of a newline does not get between the bytes. -/
theorem emit_writes (h : emit bytes t = .ok t') : t.Writes bytes t' := by
  induction bytes generalizing t with
  | nil =>
    cases h
    exact .refl _
  | cons c cs ih =>
    rw [emit] at h
    obtain ⟨t₁, hflush, hrest⟩ := bind_eq_ok.mp h
    obtain ⟨outputbuf, hfill, hemit⟩ := bind_eq_ok.mp hrest
    have hfirst := (flush_writes hflush).1
    exact (hfirst.trans (store_writes c hfill)).trans (ih hemit)

/-- A write keeps the order of the bytes, and leaves nothing behind on a tty that is not buffered. -/
theorem ttyOutputWrite_ok {n : Int} (hout : t.output ≠ none) (h : ttyOutputWrite t bytes = .ok (n, t')) :
    t.Writes bytes t' ∧ n = (BitVec.ofNat 32 bytes.length).toInt ∧
      (t.buffered = false → t'.outputidx = 0) := by
  obtain ⟨dev, hdev⟩ := Option.ne_none_iff_exists'.mp hout
  simp only [ttyOutputWrite, hdev] at h
  obtain ⟨t₁, hfirst, hrest⟩ := bind_eq_ok.mp h
  obtain ⟨t₂, hemit, hrest⟩ := bind_eq_ok.mp hrest
  obtain ⟨t₃, hlast, hret⟩ := bind_eq_ok.mp hrest
  cases hret
  have h2 : t.Writes bytes t₂ := (flush_writes hfirst).1.trans (emit_writes hemit)
  obtain ⟨h3, hidx⟩ := flush_writes hlast
  have h4 := h2.trans h3
  rw [List.append_nil] at h4
  exact ⟨h4, rfl, fun hbuf => hidx (h2.buffered.trans hbuf)⟩

/-- A tty whose output device can be written to, with its index inside its buffer. -/
structure Tty.Accepts (t : Tty) : Prop where
  device : ∃ dev, t.output = some dev ∧ dev.write = true
  size : t.outputbuf.size = TTY_OUT_BUFSIZE
  fits : t.outputidx ≤ TTY_OUT_BUFSIZE

theorem Tty.Accepts.ne_none (h : t.Accepts) : t.output ≠ none := by
  obtain ⟨dev, hdev, -⟩ := h.device
  simp [hdev]

theorem Tty.Accepts.writes (h : t.Accepts) (hw : t.Writes bytes t')
    (hidx : t'.outputidx ≤ TTY_OUT_BUFSIZE) : t'.Accepts := by
  obtain ⟨dev, hdev, hwrite⟩ := h.device
  obtain ⟨taken, hdev'⟩ := hw.device dev hdev
  exact ⟨⟨_, hdev', hwrite⟩, hw.size.trans h.size, hidx⟩

theorem Tty.Accepts.flush (h : t.Accepts) :
    ∃ t', ttyFlushOutput t = .ok t' ∧ t.Writes [] t' ∧ t'.outputidx = 0 ∧ t'.Accepts := by
  obtain ⟨dev, hdev, hwrite⟩ := h.device
  have hflush : ttyFlushOutput t = .ok { t with
      output := some { dev with taken := dev.taken ++ t.pendingOutput }
      outputidx := 0 } := by
    simp [ttyFlushOutput, hdev, hwrite]
  obtain ⟨hw, hidx⟩ := ttyFlushOutput_ok hflush
  exact ⟨_, hflush, hw, hidx, h.writes hw (Nat.zero_le _)⟩

theorem Tty.Accepts.flush_if (h : t.Accepts) (p : Prop) [Decidable p] :
    ∃ t', (if p then ttyFlushOutput t else .ok t) = .ok t' ∧ t'.Accepts ∧
      t'.outputidx ≤ t.outputidx ∧ (p → t'.outputidx = 0) := by
  by_cases hp : p
  · obtain ⟨t', hflush, -, hidx, h'⟩ := h.flush
    exact ⟨t', by rw [if_pos hp, hflush], h', by omega, fun _ => hidx⟩
  · exact ⟨t, if_neg hp, h, Nat.le_refl _, fun hp' => absurd hp' hp⟩

/-- Bytes that fit behind those in the buffer are never stored outside it. -/
theorem Tty.Accepts.emit (h : t.Accepts) (hfit : t.outputidx + bytes.length ≤ TTY_OUT_BUFSIZE) :
    ∃ t', Drivers.emit bytes t = .ok t' ∧ t'.Accepts := by
  induction bytes generalizing t with
  | nil => exact ⟨t, rfl, h⟩
  | cons c cs ih =>
    rw [List.length_cons] at hfit
    obtain ⟨t₁, hflush, h1, hle, -⟩ := h.flush_if (c = 0x0A)
    have hsize := h1.size
    have hlt : t₁.outputidx < t₁.outputbuf.size := by omega
    have hfill := Buffer.fill_byte c hlt
    have h2 := h1.writes (store_writes c hfill) (by simp only; omega)
    obtain ⟨t', hemit, h'⟩ := ih h2 (by simp only; omega)
    exact ⟨t', by rw [Drivers.emit, hflush, ok_bind, hfill, ok_bind, hemit], h'⟩

/-- A write of no more than the buffer holds comes back, with the index inside the buffer. -/
theorem Tty.Accepts.outputWrite (h : t.Accepts) (hfit : bytes.length ≤ TTY_OUT_BUFSIZE) :
    ∃ n t', ttyOutputWrite t bytes = .ok (n, t') ∧ t'.Accepts := by
  obtain ⟨dev, hdev, -⟩ := h.device
  obtain ⟨t₁, hfirst, h1, hle, hzero⟩ :=
    h.flush_if (TTY_OUT_BUFSIZE < (t.outputidx + bytes.length) % 2 ^ 32)
  have hroom : t₁.outputidx + bytes.length ≤ TTY_OUT_BUFSIZE := by
    have hidx := h.fits
    by_cases hover : TTY_OUT_BUFSIZE < (t.outputidx + bytes.length) % 2 ^ 32
    · rw [hzero hover]
      omega
    · unfold TTY_OUT_BUFSIZE at *
      omega
  obtain ⟨t₂, hemit, h2⟩ := h1.emit hroom
  obtain ⟨t₃, hlast, h3, -, -⟩ := h2.flush_if (t₂.buffered = false)
  refine ⟨(BitVec.ofNat 32 bytes.length).toInt, t₃, ?_, h3⟩
  simp only [ttyOutputWrite, hdev]
  rw [hfirst, ok_bind, hemit, ok_bind, hlast]
  rfl

end Calls

/-- What is done with the output of a tty. -/
inductive OutputCall
  | write (bytes : List (BitVec 8))
  | flush
  | setBuffered (buf : Bool)

def OutputCall.run (t : Tty) : OutputCall → Except Fault Tty
  | .write bytes => do
    let (_, t) ← ttyOutputWrite t bytes
    return t
  | .flush => do
    let (_, t) ← ttyFlush t
    return t
  | .setBuffered buf => .ok (ttySetBuffered t buf)

def OutputCall.written : OutputCall → List (BitVec 8)
  | .write bytes => bytes
  | _ => []

/-- A write of no more bytes than the output buffer holds. -/
def OutputCall.Fits (c : OutputCall) : Prop := c.written.length ≤ TTY_OUT_BUFSIZE

def runOutput : Tty → List OutputCall → Except Fault Tty
  | t, [] => .ok t
  | t, c :: cs => do runOutput (← c.run t) cs

/-- `__printk_emit_tty`, with the recursion for the carriage return written out. -/
def printkEmitTty (t : Tty) (c : BitVec 8) : Except Fault Tty := do
  let (_, t) ← ttyOutputWrite t [c]
  if c = 0x0A then
    let (_, t) ← ttyOutputWrite t [0x0D]
    return t
  else return t

/-- `printk_emit`, once `printk` goes to the tty. -/
def printkEmit : Tty → List (BitVec 8) → Except Fault Tty
  | t, [] => .ok t
  | t, c :: s => do printkEmit (← printkEmitTty t c) s

/-- The character as it goes to the tty: a newline with a carriage return behind it. -/
def emitted (c : BitVec 8) : List (BitVec 8) := if c = 0x0A then [c, 0x0D] else [c]

section Stream

variable {t t' : Tty}

/-- One call adds what it writes to the stream, and keeps the index inside the buffer. -/
theorem OutputCall.run_spec (h : t.Accepts) {c : OutputCall} (hfit : c.Fits) :
    ∃ t', c.run t = .ok t' ∧ t'.Accepts ∧
      t'.sent ++ t'.pendingOutput = t.sent ++ t.pendingOutput ++ c.written ∧
      ((∃ bytes, c = .write bytes) → t'.buffered = false → t'.pendingOutput = []) := by
  cases c with
  | write bytes =>
    have hlen : bytes.length ≤ TTY_OUT_BUFSIZE := hfit
    obtain ⟨n, t', hcall, h'⟩ := h.outputWrite hlen
    obtain ⟨hw, -, hzero⟩ := ttyOutputWrite_ok h.ne_none hcall
    refine ⟨t', by rw [OutputCall.run, hcall]; rfl, h', hw.stream, fun _ hbuf => ?_⟩
    rw [Tty.pendingOutput, hzero (hw.buffered.symm.trans hbuf), Buffer.bytes_zero]
  | flush =>
    obtain ⟨t', hflush, hw, -, h'⟩ := h.flush
    refine ⟨t', by rw [OutputCall.run, ttyFlush, hflush]; rfl, h', hw.stream, ?_⟩
    simp
  | setBuffered buf =>
    refine ⟨ttySetBuffered t buf, rfl, ⟨h.device, h.size, h.fits⟩, ?_, ?_⟩
    · simp [ttySetBuffered, Tty.sent, Tty.pendingOutput, OutputCall.written]
    · simp

/-- What was written to a tty is at the device or in the buffer, in order. -/
theorem runOutput_spec {calls : List OutputCall} (h : t.Accepts) (hfit : ∀ c ∈ calls, c.Fits) :
    ∃ t', runOutput t calls = .ok t' ∧ t'.Accepts ∧
      t'.sent ++ t'.pendingOutput =
        t.sent ++ t.pendingOutput ++ calls.flatMap OutputCall.written ∧
      ((∃ pre bytes, calls = pre ++ [.write bytes]) → t'.buffered = false → t'.pendingOutput = []) := by
  induction calls generalizing t with
  | nil =>
    refine ⟨t, rfl, h, by simp, ?_⟩
    simp
  | cons c cs ih =>
    obtain ⟨t₁, hcall, h1, hstream, hlast⟩ := OutputCall.run_spec h (hfit c (by simp))
    obtain ⟨t', hrun, h', hstream', hlast'⟩ := ih h1 fun c' hc' => hfit c' (by simp [hc'])
    refine ⟨t', by rw [runOutput, hcall, ok_bind, hrun], h', ?_, ?_⟩
    · rw [hstream', hstream]
      simp
    · rintro ⟨pre, bytes, hcut⟩ hbuf
      cases pre with
      | nil =>
        rw [List.nil_append, List.cons.injEq] at hcut
        obtain ⟨hc, rfl⟩ := hcut
        cases hrun
        exact hlast ⟨bytes, hc⟩ hbuf
      | cons d pre =>
        rw [List.cons_append, List.cons.injEq] at hcut
        exact hlast' ⟨pre, bytes, hcut.2⟩ hbuf

theorem printkEmitTty_spec (h : t.Accepts) (hbuf : t.buffered = false) (c : BitVec 8) :
    ∃ t', printkEmitTty t c = .ok t' ∧ t'.Accepts ∧ t'.buffered = false ∧ t'.outputidx = 0 ∧
      t'.sent = t.sent ++ t.pendingOutput ++ emitted c := by
  have hone : ∀ (t : Tty) (d : BitVec 8), t.Accepts → t.buffered = false →
      ∃ n t', ttyOutputWrite t [d] = .ok (n, t') ∧ t'.Accepts ∧ t'.buffered = false ∧
        t'.outputidx = 0 ∧ t'.sent = t.sent ++ t.pendingOutput ++ [d] := by
    intro t d h hbuf
    have hlen : [d].length ≤ TTY_OUT_BUFSIZE := by simp [TTY_OUT_BUFSIZE]
    obtain ⟨n, t', hcall, h'⟩ := h.outputWrite hlen
    obtain ⟨hw, -, hzero⟩ := ttyOutputWrite_ok h.ne_none hcall
    have hstream := hw.stream
    rw [Tty.pendingOutput, hzero hbuf, Buffer.bytes_zero, List.append_nil] at hstream
    exact ⟨n, t', hcall, h', hw.buffered.trans hbuf, hzero hbuf, hstream⟩
  obtain ⟨n, t₁, hcall, h1, hbuf1, hidx1, hsent1⟩ := hone t c h hbuf
  by_cases hc : c = 0x0A
  · obtain ⟨n', t', hcall', h', hbuf', hidx', hsent'⟩ := hone t₁ 0x0D h1 hbuf1
    refine ⟨t', ?_, h', hbuf', hidx', ?_⟩
    · simp only [printkEmitTty, hcall, ok_bind, if_pos hc, hcall']
      rfl
    · have hempty : t₁.pendingOutput = [] := by rw [Tty.pendingOutput, hidx1, Buffer.bytes_zero]
      rw [hsent', hsent1, emitted, if_pos hc, hempty]
      simp
  · refine ⟨t₁, ?_, h1, hbuf1, hidx1, ?_⟩
    · simp only [printkEmitTty, hcall, ok_bind, if_neg hc]
      rfl
    · rw [hsent1, emitted, if_neg hc]

/-- What `printk` emits is at the device behind all that was written before. -/
theorem printkEmit_spec (h : t.Accepts) (hbuf : t.buffered = false) (text : List (BitVec 8)) :
    ∃ t', printkEmit t text = .ok t' ∧ t'.Accepts ∧ (text ≠ [] → t'.pendingOutput = []) ∧
      t'.sent ++ t'.pendingOutput = t.sent ++ t.pendingOutput ++ text.flatMap emitted := by
  induction text generalizing t with
  | nil => exact ⟨t, rfl, h, by simp, by simp⟩
  | cons c text ih =>
    obtain ⟨t₁, hcall, h1, hbuf1, hidx1, hsent1⟩ := printkEmitTty_spec h hbuf c
    have hempty : t₁.pendingOutput = [] := by rw [Tty.pendingOutput, hidx1, Buffer.bytes_zero]
    obtain ⟨t', hrun, h', hnone, hstream⟩ := ih h1 hbuf1
    refine ⟨t', by rw [printkEmit, hcall, ok_bind, hrun], h', fun _ => ?_, ?_⟩
    · cases text with
      | nil =>
        cases hrun
        exact hempty
      | cons d text => exact hnone (by simp)
    · rw [hstream, hempty, hsent1]
      simp

end Stream

/-- The bytes at the output device and then those in the buffer are the bytes that were written, with
the index inside the buffer; on a tty that is not buffered a write leaves nothing in the buffer, so
that what `printk` emits arrives completely. -/
theorem output_conserved {t : Tty} (h : t.Accepts) :
    (∀ calls : List OutputCall, (∀ c ∈ calls, c.Fits) → ∃ t', runOutput t calls = .ok t' ∧
      t'.sent ++ t'.pendingOutput =
        t.sent ++ t.pendingOutput ++ calls.flatMap OutputCall.written ∧
      t'.outputidx ≤ TTY_OUT_BUFSIZE ∧
      ((∃ pre bytes, calls = pre ++ [.write bytes]) → t'.buffered = false → t'.pendingOutput = [])) ∧
    (t.buffered = false → t.pendingOutput = [] → ∀ text : List (BitVec 8), ∃ t',
      printkEmit t text = .ok t' ∧ t'.sent = t.sent ++ text.flatMap emitted ∧
      t'.pendingOutput = []) := by
  constructor
  · intro calls hfit
    obtain ⟨t', hrun, h', hstream, hlast⟩ := runOutput_spec h hfit
    exact ⟨t', hrun, hstream, h'.fits, hlast⟩
  · intro hbuf hempty text
    obtain ⟨t', hrun, -, hnone, hstream⟩ := printkEmit_spec h hbuf text
    have hempty' : t'.pendingOutput = [] := by
      cases text with
      | nil =>
        cases hrun
        exact hempty
      | cons c text => exact hnone (by simp)
    rw [hempty, hempty', List.append_nil, List.append_nil] at hstream
    exact ⟨t', hrun, hstream, hempty'⟩

/-- A tty as `tty_init` makes it, with a console for its output. -/
def consoleTty (buffered : Bool) : Tty where
  input := none
  output := some ⟨false, true, []⟩
  inputbuf := .zero TTY_IN_BUFSIZE
  inputidx := 0
  outputbuf := .zero TTY_OUT_BUFSIZE
  outputidx := 0
  buffered := buffered

/-- A buffered write, a flush and a write without buffering, and then `printk` of a line. -/
theorem output_conserved_console : ∃ t t', runOutput (consoleTty true)
      [.write [0x68, 0x69], .flush, .write [0x21], .setBuffered false, .write [0x3F]] = .ok t ∧
    t.sent ++ t.pendingOutput = [0x68, 0x69, 0x21, 0x3F] ∧ t.pendingOutput = [] ∧
    printkEmit (consoleTty false) [0x68, 0x69, 0x0A] = .ok t' ∧
    t'.sent = [0x68, 0x69, 0x0A, 0x0D] ∧ t'.pendingOutput = [] := by
  have haccepts (buffered : Bool) : (consoleTty buffered).Accepts := ⟨⟨_, rfl, rfl⟩, rfl, Nat.zero_le _⟩
  obtain ⟨hcalls, -⟩ := output_conserved (haccepts true)
  obtain ⟨-, hprintk⟩ := output_conserved (haccepts false)
  obtain ⟨t, hrun, hstream, -, hlast⟩ := hcalls
    [.write [0x68, 0x69], .flush, .write [0x21], .setBuffered false, .write [0x3F]] (by
      simp [OutputCall.Fits, OutputCall.written, TTY_OUT_BUFSIZE])
  have hbuffered : (runOutput (consoleTty true) [.write [0x68, 0x69], .flush, .write [0x21],
      .setBuffered false, .write [0x3F]]).map Tty.buffered = .ok false := rfl
  rw [hrun] at hbuffered
  obtain ⟨t', hemit, hsent, hempty⟩ := hprintk rfl rfl [0x68, 0x69, 0x0A]
  have hwrite : ∃ pre bytes, [OutputCall.write [0x68, 0x69], .flush, .write [0x21], .setBuffered false,
      .write [0x3F]] = pre ++ [.write bytes] :=
    ⟨[.write [0x68, 0x69], .flush, .write [0x21], .setBuffered false], [0x3F], rfl⟩
  exact ⟨t, t', hrun, hstream, hlast hwrite (Except.ok.inj hbuffered), hemit, hsent, hempty⟩

end Levos.Drivers
