import Levos.Framework.Buffer
import Levos.Framework.Errno

namespace Levos.Drivers

open Levos.Framework

def TTY_IN_BUFSIZE : Nat := 8192

def TTY_OUT_BUFSIZE : Nat := 8192

/-- `struct device`, as a tty sees it: which of the operations it has, and all the bytes that it was
handed by a write. -/
structure Device where
  read : Bool
  write : Bool
  taken : List (BitVec 8)

/-- `struct tty`. -/
structure Tty where
  input : Option Device
  output : Option Device
  inputbuf : Buffer
  inputidx : Nat
  outputbuf : Buffer
  outputidx : Nat
  buffered : Bool

/-- The bytes that stand in the input buffer. -/
def Tty.pendingInput (t : Tty) : List (BitVec 8) := t.inputbuf.bytes 0 t.inputidx

/-- The bytes that stand in the output buffer. -/
def Tty.pendingOutput (t : Tty) : List (BitVec 8) := t.outputbuf.bytes 0 t.outputidx

/-- `tty_flush_output`. What the device answers is not looked at. -/
def ttyFlushOutput (t : Tty) : Except Fault Tty :=
  match t.output with
  | none => .error .nullPointer
  | some dev =>
    if dev.write then
      .ok { t with
        output := some { dev with taken := dev.taken ++ t.pendingOutput }
        outputidx := 0 }
    else .error .nullPointer

/-- `tty_input_write`. A write that does not fit is reported, and made all the same. -/
def ttyInputWrite (t : Tty) (bytes : List (BitVec 8)) : Except Fault (Int × Tty) :=
  match t.input with
  | none => .ok (-ESRCH, t)
  | some _ => do
    let inputbuf ← t.inputbuf.fill t.inputidx bytes.length (bytes.getD · 0)
    return ((BitVec.ofNat 32 bytes.length).toInt,
      { t with inputbuf := inputbuf, inputidx := t.inputidx + bytes.length })

/-- The loop of `tty_output_write`. -/
def emit : List (BitVec 8) → Tty → Except Fault Tty
  | [], t => .ok t
  | c :: cs, t => do
    let t ← (if c = 0x0A then ttyFlushOutput t else .ok t)
    let outputbuf ← t.outputbuf.fill t.outputidx 1 fun _ => c
    emit cs { t with outputbuf := outputbuf, outputidx := t.outputidx + 1 }

/-- `tty_output_write`. -/
def ttyOutputWrite (t : Tty) (bytes : List (BitVec 8)) : Except Fault (Int × Tty) :=
  match t.output with
  | none => .ok (-ESRCH, t)
  | some _ => do
    let t ← (if TTY_OUT_BUFSIZE < (t.outputidx + bytes.length) % 2 ^ 32 then ttyFlushOutput t
      else .ok t)
    let t ← emit bytes t
    let t ← (if t.buffered = false then ttyFlushOutput t else .ok t)
    return ((BitVec.ofNat 32 bytes.length).toInt, t)

/-- `tty_output_read`, into the caller's buffer. -/
def ttyOutputRead (t : Tty) (buf : Buffer) (count : BitVec 32) : Except Fault (Int × Buffer × Tty) :=
  match t.output with
  | none => .ok (-ESRCH, buf, t)
  | some _ =>
    if t.outputidx < count.toNat then do
      let buf ← buf.memcpy t.outputbuf 0 t.outputidx
      return (t.outputidx, buf, { t with outputidx := 0 })
    else do
      let buf ← buf.memcpy t.outputbuf 0 count.toNat
      return (count.toInt, buf, { t with outputidx := t.outputidx - count.toNat })

/-- `tty_input_read`, into the caller's buffer. The device that is asked for more bytes stores `reply`
at the beginning of that buffer. The index is 0 by then, so it is asked for `count` bytes. -/
def ttyInputRead (t : Tty) (buf : Buffer) (count : BitVec 32) (reply : List (BitVec 8)) :
    Except Fault (Int × Buffer × Tty) :=
  match t.input with
  | none => .ok (-ESRCH, buf, t)
  | some dev =>
    if t.inputidx < count.toNat then do
      let buf ← buf.memcpy t.inputbuf 0 t.inputidx
      if dev.read then
        let buf ← buf.fill 0 reply.length (reply.getD · 0)
        return (count.toInt, buf, { t with inputidx := 0 })
      else .error .nullPointer
    else do
      let buf ← buf.memcpy t.inputbuf 0 count.toNat
      return (count.toInt, buf, { t with inputidx := t.inputidx - count.toNat })

/-- `tty_flush`. -/
def ttyFlush (t : Tty) : Except Fault (Int × Tty) := do
  let t ← ttyFlushOutput t
  return (0, t)

/-- `tty_set_buffered`. -/
def ttySetBuffered (t : Tty) (buf : Bool) : Tty := { t with buffered := buf }

end Levos.Drivers
