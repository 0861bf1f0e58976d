import Levos.Arch.Serial
import Levos.Arch.Textmode
import Levos.Framework.Buffer
import Levos.Framework.Errno

namespace Levos.Kernel

open Levos.Framework Levos.Arch

def KMSG_BUFSIZE : Nat := 65536

def MAX_CONSOLES : Nat := 4

/-- `kmsg_buf` and `kmsg_pos`. -/
structure Kmsg where
  buf : Buffer
  pos : Nat

/-- `__kmsg_append`. -/
def kmsgAppend (k : Kmsg) (c : BitVec 8) : Except Fault Kmsg :=
  if c = 0 then .ok k
  else if KMSG_BUFSIZE ≤ k.pos then .ok k
  else do
    let buf ← k.buf.fill k.pos 1 fun _ => c
    return ⟨buf, k.pos + 1⟩

/-- `kmsg_write`, for a device and a buffer that are not null. -/
def kmsgWrite (k : Kmsg) (buf : List (BitVec 8)) (pos : BitVec 32) : Except Fault (Int × Kmsg) :=
  if KMSG_BUFSIZE < pos.toNat ∨ KMSG_BUFSIZE < (pos + BitVec.ofNat 32 buf.length).toNat then
    .ok (-EINVAL, k)
  else do
    let k ← buf.foldlM kmsgAppend k
    return (buf.length, k)

/-- `kmsg_init`, as far as the buffer is concerned. -/
def kmsgInit : Kmsg := ⟨.zero KMSG_BUFSIZE, 0⟩

/-- The objects of type `struct console`. -/
inductive Console
  | kmsgCon
  | serialCon
  | tmCon
  deriving DecidableEq

/-- The consoles that are registered, with what they write to. What happens on the serial line meanwhile is
`line`. -/
structure Consoles where
  cons : List Console
  fits : cons.length ≤ MAX_CONSOLES
  kmsg : Kmsg
  uart : Uart
  screen : Textmode
  line : List LineTick

/-- The `write` of a console's device. -/
def Console.write (con : Console) (o : Consoles) (buf : List (BitVec 8)) : Except Fault (Int × Consoles) :=
  match con with
  | .kmsgCon => do
    let (rc, k) ← kmsgWrite o.kmsg buf 0
    return (rc, { o with kmsg := k })
  | .serialCon => do
    let (rc, line, u) ← serialWrite buf o.line o.uart
    return (rc, { o with line := line, uart := u })
  | .tmCon =>
    let (rc, s) := textmodeWrite o.screen buf
    .ok (rc, { o with screen := s })

/-- The loop of `console_send`. -/
def sendTo : List Console → BitVec 8 → Consoles → Except Fault Consoles
  | [], _, o => .ok o
  | con :: cons, c, o => do
    let (rc, o) ← con.write o [c]
    if rc ≤ 0 then .error (.panic "%s rc=%d\n") else sendTo cons c o

/-- `console_send`. -/
def consoleSend (o : Consoles) (c : BitVec 8) : Except Fault Consoles := sendTo o.cons c o

/-- `console_dev_write`, and `console_file_write`. -/
def consoleDevWrite (o : Consoles) (buf : List (BitVec 8)) : Except Fault (Int × Consoles) := do
  let o ← buf.foldlM consoleSend o
  return ((BitVec.ofNat 32 buf.length).toInt, o)

/-- `console_register`. -/
def consoleRegister (o : Consoles) (c : Console) : Int × Consoles :=
  if h : MAX_CONSOLES ≤ o.cons.length then (-ENOSPC, o)
  else (0, { o with cons := o.cons ++ [c], fits := by rw [List.length_append]; exact Nat.lt_of_not_le h })

/-- The buffer of `kmsg` after `chars`: what is not zero, as far as there is room. -/
def kept (chars : List (BitVec 8)) : Kmsg :=
  let cs := (chars.filter (· ≠ 0)).take KMSG_BUFSIZE
  ⟨(Buffer.zero KMSG_BUFSIZE).stored 0 cs, cs.length⟩

/-- What a console gets of the bytes that are sent: each of them as often as it is registered. -/
def copies (cons : List Console) (bytes : List (BitVec 8)) (con : Console) : List (BitVec 8) :=
  bytes.flatMap (List.replicate (cons.count con))

/-- Between the two states the devices were handed these bytes. -/
structure Consoles.Gets (o : Consoles) (bytes : Console → List (BitVec 8)) (o' : Consoles) : Prop where
  cons : o'.cons = o.cons
  kmsg : ∀ chars, o.kmsg = kept chars → o'.kmsg = kept (chars ++ bytes .kmsgCon)
  serial : ∃ new, Serves o.uart (bytes .serialCon) new [] o'.uart
  screen : o'.screen = putchars (bytes .tmCon) o.screen

/-- The devices have been set up. -/
structure Consoles.Ready (o : Consoles) : Prop where
  kmsg : ∃ chars, o.kmsg = kept chars
  uart : o.uart.Open

def Consoles.on (line : List LineTick) (o : Consoles) : Consoles := { o with line := line }

section Kmsg

variable {k : Kmsg} {c : BitVec 8} {chars buf : List (BitVec 8)}

/-- The buffer never overflows: what does not fit is dropped. -/
theorem kmsgAppend_kept (chars : List (BitVec 8)) (c : BitVec 8) :
    kmsgAppend (kept chars) c = .ok (kept (chars ++ [c])) := by
  by_cases hc : c = 0
  · rw [kmsgAppend, if_pos hc]
    simp [kept, hc]
  · have hfilter : (chars ++ [c]).filter (· ≠ 0) = chars.filter (· ≠ 0) ++ [c] := by
      rw [List.filter_append, List.filter_cons_of_pos (by simpa using hc), List.filter_nil]
    rw [kmsgAppend, if_neg hc]
    by_cases hfull : KMSG_BUFSIZE ≤ (chars.filter (· ≠ 0)).length
    · have hlen : KMSG_BUFSIZE ≤ (kept chars).pos := by
        simp only [kept, List.length_take]
        omega
      rw [if_pos hlen]
      simp only [kept, hfilter, List.take_append_of_le_length hfull]
    · have htake : (chars.filter (· ≠ 0)).take KMSG_BUFSIZE = chars.filter (· ≠ 0) :=
        List.take_of_length_le (by omega)
      have htake' : (chars.filter (· ≠ 0) ++ [c]).take KMSG_BUFSIZE = chars.filter (· ≠ 0) ++ [c] := by
        apply List.take_of_length_le
        rw [List.length_append, List.length_singleton]
        omega
      have hkept : kept chars = ⟨(Buffer.zero KMSG_BUFSIZE).stored 0 (chars.filter (· ≠ 0)),
          (chars.filter (· ≠ 0)).length⟩ := by rw [kept, htake]
      have hroom : (kept chars).pos < (kept chars).buf.size := by
        rw [hkept]
        exact Nat.lt_of_not_le hfull
      have hfill := Buffer.fill_byte c hroom
      rw [if_neg (by rw [hkept]; exact hfull), hfill, ok_bind]
      simp only [hkept, Buffer.stored_snoc]
      rw [kept, hfilter, htake', List.length_append]
      rfl

theorem kmsgWrite_kept (chars : List (BitVec 8)) (c : BitVec 8) :
    kmsgWrite (kept chars) [c] 0 = .ok (1, kept (chars ++ [c])) := by
  have hsmall : ¬(KMSG_BUFSIZE < (0 : BitVec 32).toNat ∨
      KMSG_BUFSIZE < ((0 : BitVec 32) + BitVec.ofNat 32 [c].length).toNat) := by simp [KMSG_BUFSIZE]
  rw [kmsgWrite, if_neg hsmall, List.foldlM_cons, kmsgAppend_kept]
  rfl

end Kmsg

section Devices

variable {o o' o'' : Consoles} {con : Console} {cons : List Console} {c : BitVec 8} {rc : Int}
  {bytes bytes' : Console → List (BitVec 8)} {buf : List (BitVec 8)}

theorem putchars_append (cs ds : List (BitVec 8)) (s : Textmode) :
    putchars (cs ++ ds) s = putchars ds (putchars cs s) := by
  induction cs generalizing s with
  | nil => rfl
  | cons c cs ih => exact ih _

theorem Consoles.Gets.refl (h : o.Ready) : o.Gets (fun _ => []) o := by
  refine ⟨rfl, fun chars hk => ?_, ⟨[], .refl h.uart⟩, rfl⟩
  rw [List.append_nil, hk]

theorem Consoles.Gets.trans (h : o.Gets bytes o') (k : o'.Gets bytes' o'') :
    o.Gets (fun con => bytes con ++ bytes' con) o'' := by
  obtain ⟨new, hserial⟩ := h.serial
  obtain ⟨new', kserial⟩ := k.serial
  refine ⟨k.cons.trans h.cons, fun chars hk => ?_, ⟨new ++ new', hserial.trans kserial⟩, ?_⟩
  · rw [k.kmsg _ (h.kmsg chars hk), List.append_assoc]
  · rw [k.screen, h.screen, putchars_append]

theorem Consoles.Gets.ready (h : o.Gets bytes o') (hr : o.Ready) : o'.Ready := by
  obtain ⟨chars, hchars⟩ := hr.kmsg
  obtain ⟨new, hserial⟩ := h.serial
  exact ⟨⟨_, h.kmsg chars hchars⟩, hserial.isOpen⟩

/-- A device takes a character, and says so. -/
theorem write_gets (h : o.Ready) (hcall : con.write o [c] = .ok (rc, o')) :
    rc = 1 ∧ o.Gets (fun d => if d = con then [c] else []) o' := by
  obtain ⟨chars, hchars⟩ := h.kmsg
  cases con with
  | kmsgCon =>
    simp only [Console.write, hchars, kmsgWrite_kept, ok_bind] at hcall
    cases hcall
    refine ⟨rfl, rfl, fun chars' hk => ?_, ⟨[], .refl h.uart⟩, rfl⟩
    have hsame := kmsgWrite_kept chars c
    rw [hchars.symm.trans hk, kmsgWrite_kept] at hsame
    exact (congrArg Prod.snd (Except.ok.inj hsame)).symm
  | serialCon =>
    obtain ⟨⟨n, line, u⟩, hwrite, hret⟩ := bind_eq_ok.mp hcall
    obtain ⟨⟨line', u'⟩, hemit, hcount⟩ := bind_eq_ok.mp hwrite
    cases hcount
    cases hret
    obtain ⟨new, hserves⟩ := serialEmit_ok h.uart hemit
    refine ⟨rfl, rfl, fun chars' hk => ?_, ⟨new, hserves⟩, rfl⟩
    exact hk.trans (congrArg kept (List.append_nil chars').symm)
  | tmCon =>
    cases hcall
    refine ⟨rfl, rfl, fun chars' hk => ?_, ⟨[], .refl h.uart⟩, rfl⟩
    exact hk.trans (congrArg kept (List.append_nil chars').symm)

/-- Every console of the list is handed the character, so that `console_send` does not panic. -/
theorem sendTo_gets (h : o.Ready) (hcall : sendTo cons c o = .ok o') :
    o.Gets (copies cons [c]) o' := by
  induction cons generalizing o with
  | nil =>
    cases hcall
    exact .refl h
  | cons con cons ih =>
    obtain ⟨⟨rc, o₁⟩, hwrite, hrest⟩ := bind_eq_ok.mp hcall
    obtain ⟨rfl, hfirst⟩ := write_gets h hwrite
    have hall := hfirst.trans (ih (hfirst.ready h) hrest)
    have hcopies : (fun d => (if d = con then [c] else []) ++ copies cons [c] d) =
        copies (con :: cons) [c] := by
      funext d
      simp only [copies, List.flatMap_cons, List.flatMap_nil, List.append_nil]
      by_cases hd : d = con
      · rw [hd, if_pos rfl, List.count_cons_self, List.replicate_succ, List.singleton_append]
      · rw [if_neg hd, List.count_cons_of_ne (Ne.symm hd), List.nil_append]
    rwa [hcopies] at hall

theorem sendAll_gets (h : o.Ready) (hcall : buf.foldlM consoleSend o = .ok o') :
    o.Gets (copies o.cons buf) o' := by
  induction buf generalizing o with
  | nil =>
    cases hcall
    exact .refl h
  | cons c cs ih =>
    obtain ⟨o₁, hsend, hrest⟩ := bind_eq_ok.mp hcall
    have hfirst := sendTo_gets h hsend
    have hlast := ih (hfirst.ready h) hrest
    rw [hfirst.cons] at hlast
    have hcopies : (fun d => copies o.cons [c] d ++ copies o.cons cs d) = copies o.cons (c :: cs) := by
      funext d
      simp [copies]
    have hall := hfirst.trans hlast
    rwa [hcopies] at hall

/-- A console's device comes back. -/
theorem write_returns (con : Console) (c : BitVec 8) {line : Nat → LineTick} (hline : Uart.Lively line)
    (k : Nat) (h : o.Ready) : ∃ (n : Nat) (o' : Consoles), o'.Ready ∧ ∀ more,
      con.write (o.on ((List.range' k n).map line ++ more)) [c] = .ok (1, o'.on more) := by
  obtain ⟨chars, hchars⟩ := h.kmsg
  cases con with
  | kmsgCon =>
    refine ⟨0, { o with kmsg := kept (chars ++ [c]) }, ⟨⟨_, rfl⟩, h.uart⟩, fun more => ?_⟩
    simp only [Console.write, Consoles.on, hchars, kmsgWrite_kept, ok_bind]
    rfl
  | serialCon =>
    obtain ⟨n, u', hemit⟩ := serialEmit_returns hline [c] o.uart k
    have hopen : u'.Open := by
      obtain ⟨new, hserves⟩ := serialEmit_ok h.uart (hemit [])
      exact hserves.isOpen
    refine ⟨n, { o with uart := u' }, ⟨h.kmsg, hopen⟩, fun more => ?_⟩
    simp only [Console.write, Consoles.on, serialWrite, hemit, ok_bind]
    rfl
  | tmCon => exact ⟨0, { o with screen := putchars [c] o.screen }, ⟨h.kmsg, h.uart⟩, fun more => rfl⟩

theorem sendTo_returns (cons : List Console) (c : BitVec 8) :
    Uart.Returns Consoles.on Consoles.Ready (sendTo cons c) := by
  induction cons with
  | nil => exact .of_ok id (fun o h => h) fun o more h => rfl
  | cons con cons ih =>
    intro line hline o k h
    obtain ⟨n, o₁, h₁, hwrite⟩ := write_returns con c hline k h
    obtain ⟨m, o', h', hrest⟩ := ih line hline o₁ (k + n) h₁
    refine ⟨n + m, o', h', fun more => ?_⟩
    rw [← List.range'_append_1, List.map_append, List.append_assoc, sendTo, hwrite]
    exact hrest more

theorem consoleSend_returns (c : BitVec 8) :
    Uart.Returns Consoles.on Consoles.Ready fun o => consoleSend o c := by
  intro line hline o k h
  exact sendTo_returns o.cons c line hline o k h

end Devices

end Levos.Kernel
