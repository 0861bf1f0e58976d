import Levos.Lib.Itoa
import Levos.Lib.String

namespace Levos.Kernel

open Levos.Framework Levos.Lib

/-- An argument of `printk`: a `char *` or an `int`. -/
inductive VaArg
  | string (s : CString)
  | int (c : BitVec 32)

/-- `va_arg(ap, char *)`. -/
def vaString : List VaArg → Except Fault (CString × List VaArg)
  | .string s :: ap => .ok (s, ap)
  | _ => .error .uninitialised

/-- `va_arg(ap, int)`. -/
def vaInt : List VaArg → Except Fault (BitVec 32 × List VaArg)
  | .int c :: ap => .ok (c, ap)
  | _ => .error .uninitialised

section Vprintk

variable {σ : Type} (emit : σ → BitVec 8 → Except Fault σ)

/-- `printk_emit`. What a character is emitted to is behind `__printk_emitter`. -/
def printkEmit (s : List (BitVec 8)) (st : σ) : Except Fault σ := s.foldlM emit st

/-- The cases of `vprintk` that print a number. -/
def printkNumber (base : Nat) (c : BitVec 32) (st : σ) : Except Fault σ := do
  let str ← itoa c base (Buffer.zero 32)
  let s ← stringAt str 32 0
  printkEmit emit s st

/-- The loop of `vprintk`. A percent sign in front of anything else is skipped alone. -/
def vprintkFrom : List (BitVec 8) → List VaArg → σ → Except Fault (σ × List VaArg)
  | [], ap, st => .ok (st, ap)
  | c :: fmt, ap, st =>
    if c = 0x25 then
      match fmt with
      | [] => .ok (st, ap)
      | d :: rest =>
        if d = 0x73 then do
          let (s, ap) ← vaString ap
          let st ← printkEmit emit s.bytes st
          vprintkFrom rest ap st
        else if d = 0x64 then do
          let (c, ap) ← vaInt ap
          let st ← printkNumber emit 10 c st
          vprintkFrom rest ap st
        else if d = 0x78 then do
          let (c, ap) ← vaInt ap
          let st ← printkNumber emit 16 c st
          vprintkFrom rest ap st
        else if d = 0x63 then do
          let (c, ap) ← vaInt ap
          let st ← emit st ((c &&& ~~~0xFFFFFF00).setWidth 8)
          vprintkFrom rest ap st
        else vprintkFrom (d :: rest) ap st
    else do
      let st ← emit st c
      vprintkFrom fmt ap st

/-- `vprintk`. -/
def vprintk (fmt : CString) (ap : List VaArg) (st : σ) : Except Fault (σ × List VaArg) :=
  vprintkFrom emit fmt.bytes ap st

end Vprintk

/-- The decimal numeral of an `int`, with its sign, and the hexadecimal numeral of its bits. -/
def decimal (c : BitVec 32) : List (BitVec 8) := signedNumeral 0x2D bchar 10 c.toInt

def hexadecimal (c : BitVec 32) : List (BitVec 8) := numeral bchar 16 c.toNat

/-- What a format is to print: its percent sequences are `%s`, `%d`, `%x` and `%c`, and there is one
argument for each. -/
inductive Renders : List (BitVec 8) → List VaArg → List (BitVec 8) → Prop
  | nil : Renders [] [] []
  | literal {fmt ap out} (c : BitVec 8) (hc : c ≠ 0x25) (h : Renders fmt ap out) :
      Renders (c :: fmt) ap (c :: out)
  | string {fmt ap out} (s : CString) (h : Renders fmt ap out) :
      Renders (0x25 :: 0x73 :: fmt) (.string s :: ap) (s.bytes ++ out)
  | signed {fmt ap out} (c : BitVec 32) (h : Renders fmt ap out) :
      Renders (0x25 :: 0x64 :: fmt) (.int c :: ap) (decimal c ++ out)
  | hex {fmt ap out} (c : BitVec 32) (h : Renders fmt ap out) :
      Renders (0x25 :: 0x78 :: fmt) (.int c :: ap) (hexadecimal c ++ out)
  | char {fmt ap out} (c : BitVec 32) (h : Renders fmt ap out) :
      Renders (0x25 :: 0x63 :: fmt) (.int c :: ap) (c.setWidth 8 :: out)

/-- The arguments that a format has for `%d`. -/
def signedArgs : List (BitVec 8) → List VaArg → List (BitVec 32)
  | [], _ => []
  | c :: fmt, ap =>
    if c = 0x25 then
      match fmt, ap with
      | d :: rest, .int c :: ap => if d = 0x64 then c :: signedArgs rest ap else signedArgs rest ap
      | _ :: rest, _ :: ap => signedArgs rest ap
      | _, _ => []
    else signedArgs fmt ap

/-- Whatever takes the characters, it gets those of `out` and no others, in this order, and the arguments
of the format are used up. -/
def Prints (fmt : CString) (ap : List VaArg) (out : List (BitVec 8)) : Prop :=
  ∀ (σ : Type) (emit : σ → BitVec 8 → Except Fault σ) (st : σ) (more : List VaArg),
    vprintk emit fmt (ap ++ more) st = (out.foldlM emit st).map fun st => (st, more)

section Steps

variable {σ : Type} {emit : σ → BitVec 8 → Except Fault σ} {fmt xs ys : List (BitVec 8)} {ap : List VaArg}
  {c : BitVec 32} {st : σ}

theorem printkNumber_eq {base : Nat} (hbase : 1 < base) (hmax : base ≤ 16) (hlen : c.toNat < base ^ 31) :
    printkNumber emit base c st = (numeral bchar base c.toNat).foldlM emit st := by
  have hsize : (numeral bchar base c.toNat).length < (Buffer.zero 32).size :=
    Nat.lt_succ_of_le (length_numeral_le hbase (by decide) hlen)
  have hstring : stringAt ((Buffer.zero 32).stored 0 (numeral bchar base c.toNat ++ [0])) 32 0 =
      .ok (numeral bchar base c.toNat) := stringAt_numeral hbase hmax c hsize
  rw [printkNumber, itoa_numeral hbase hmax c hsize, ok_bind, hstring, ok_bind]
  rfl

theorem decimal_length (c : BitVec 32) : c.toNat < 10 ^ 31 := by
  have hlt := c.isLt
  have hpow : 2 ^ 32 ≤ 10 ^ 31 := by decide
  omega

theorem hexadecimal_length (c : BitVec 32) : c.toNat < 16 ^ 31 := by
  have hlt := c.isLt
  have hpow : 2 ^ 32 ≤ 16 ^ 31 := by decide
  omega

theorem vprintkFrom_literal {d : BitVec 8} (hd : d ≠ 0x25) :
    vprintkFrom emit (d :: fmt) ap st = emit st d >>= vprintkFrom emit fmt ap := by
  rw [vprintkFrom.eq_def]
  exact if_neg hd

theorem vprintkFrom_string (s : CString) :
    vprintkFrom emit (0x25 :: 0x73 :: fmt) (.string s :: ap) st =
      s.bytes.foldlM emit st >>= vprintkFrom emit fmt ap := rfl

theorem vprintkFrom_signed :
    vprintkFrom emit (0x25 :: 0x64 :: fmt) (.int c :: ap) st =
      (numeral bchar 10 c.toNat).foldlM emit st >>= vprintkFrom emit fmt ap := by
  rw [← printkNumber_eq (by decide) (by decide) (decimal_length c)]
  rfl

theorem vprintkFrom_hex :
    vprintkFrom emit (0x25 :: 0x78 :: fmt) (.int c :: ap) st =
      (hexadecimal c).foldlM emit st >>= vprintkFrom emit fmt ap := by
  rw [hexadecimal, ← printkNumber_eq (by decide) (by decide) (hexadecimal_length c)]
  rfl

theorem vprintkFrom_char :
    vprintkFrom emit (0x25 :: 0x63 :: fmt) (.int c :: ap) st =
      emit st (c.setWidth 8) >>= vprintkFrom emit fmt ap := by
  have hmask : (c &&& ~~~0xFFFFFF00).setWidth 8 = c.setWidth 8 := by
    have hlow : ∀ i < 8, (~~~(0xFFFFFF00 : BitVec 32)).getLsbD i = true := by decide
    apply BitVec.eq_of_getLsbD_eq
    intro i hi
    rw [BitVec.getLsbD_setWidth, BitVec.getLsbD_setWidth, BitVec.getLsbD_and, hlow i hi, Bool.and_true]
  rw [← hmask]
  rfl

/-- Characters, and what is printed behind them. -/
theorem foldlM_append_map (more : List VaArg) :
    ((xs ++ ys).foldlM emit st).map (fun st => (st, more)) =
      xs.foldlM emit st >>= fun st => (ys.foldlM emit st).map fun st => (st, more) := by
  rw [List.foldlM_append]
  cases xs.foldlM emit st <;> rfl

/-- A device that keeps what it is given. -/
theorem foldlM_keep (out kept : List (BitVec 8)) :
    out.foldlM (fun st c => (.ok (st ++ [c]) : Except Fault (List (BitVec 8)))) kept =
      .ok (kept ++ out) := by
  induction out generalizing kept with
  | nil => rw [List.append_nil]; rfl
  | cons c out ih =>
    rw [List.foldlM_cons, ok_bind, ih, List.append_assoc]
    rfl

end Steps

theorem decimal_of_nonneg {c : BitVec 32} (hc : 0 ≤ c.toInt) : decimal c = numeral bchar 10 c.toNat := by
  have habs : c.toInt.natAbs = c.toNat := by
    rw [BitVec.toInt_eq_toNat_cond] at hc ⊢
    split at hc
    · rw [if_pos (by assumption)]
      omega
    · omega
  rw [decimal, signedNumeral, if_neg (Int.not_lt.mpr hc), habs]

/-- A number without its sign is printed right exactly when it has none. -/
theorem unsigned_iff {c : BitVec 32} {xs ys : List (BitVec 8)} :
    numeral bchar 10 c.toNat ++ xs = decimal c ++ ys ↔ 0 ≤ c.toInt ∧ xs = ys := by
  by_cases hc : 0 ≤ c.toInt
  · rw [decimal_of_nonneg hc, List.append_cancel_left_eq]
    exact (and_iff_right hc).symm
  · have hminus : ∀ d < 10, bchar d ≠ 0x2D := fun d hd => bchar_ne_minus (by omega)
    constructor
    · intro h
      rw [decimal, signedNumeral, if_pos (Int.not_le.mp hc)] at h
      exact absurd h (numeral_ne_signed (by decide) hminus xs ys)
    · intro h
      exact absurd h.1 hc

/-- What is printed in any case: it is what is to be printed when no argument for `%d` is negative. -/
theorem Renders.printed {fmt : List (BitVec 8)} {ap : List VaArg} {out : List (BitVec 8)}
    (h : Renders fmt ap out) :
    ∃ out', (∀ (σ : Type) (emit : σ → BitVec 8 → Except Fault σ) (st : σ) (more : List VaArg),
        vprintkFrom emit fmt (ap ++ more) st = (out'.foldlM emit st).map fun st => (st, more)) ∧
      (out' = out ↔ ∀ c ∈ signedArgs fmt ap, 0 ≤ c.toInt) := by
  induction h with
  | nil => exact ⟨[], fun σ emit st more => rfl, by simp [signedArgs]⟩
  | @literal fmt ap out c hc h ih =>
    obtain ⟨out', hprint, hiff⟩ := ih
    refine ⟨c :: out', ?_, ?_⟩
    · intro σ emit st more
      rw [vprintkFrom_literal hc, ← List.singleton_append, foldlM_append_map, List.foldlM_cons]
      simp only [List.foldlM_nil, bind_pure]
      exact congrArg _ (funext fun st => hprint σ emit st more)
    · have hargs : signedArgs (c :: fmt) ap = signedArgs fmt ap := by
        rw [signedArgs.eq_def]
        exact if_neg hc
      rw [hargs, ← hiff]
      exact List.cons_inj_right c
  | @string fmt ap out s h ih =>
    obtain ⟨out', hprint, hiff⟩ := ih
    refine ⟨s.bytes ++ out', ?_, ?_⟩
    · intro σ emit st more
      rw [List.cons_append, vprintkFrom_string, foldlM_append_map]
      exact congrArg _ (funext fun st => hprint σ emit st more)
    · rw [List.append_cancel_left_eq, hiff]
      rfl
  | @signed fmt ap out c h ih =>
    obtain ⟨out', hprint, hiff⟩ := ih
    refine ⟨numeral bchar 10 c.toNat ++ out', ?_, ?_⟩
    · intro σ emit st more
      rw [List.cons_append, vprintkFrom_signed, foldlM_append_map]
      exact congrArg _ (funext fun st => hprint σ emit st more)
    · have hargs : signedArgs (0x25 :: 0x64 :: fmt) (.int c :: ap) = c :: signedArgs fmt ap := rfl
      rw [unsigned_iff, hiff, hargs, List.forall_mem_cons]
  | @hex fmt ap out c h ih =>
    obtain ⟨out', hprint, hiff⟩ := ih
    refine ⟨hexadecimal c ++ out', ?_, ?_⟩
    · intro σ emit st more
      rw [List.cons_append, vprintkFrom_hex, foldlM_append_map]
      exact congrArg _ (funext fun st => hprint σ emit st more)
    · rw [List.append_cancel_left_eq, hiff]
      rfl
  | @char fmt ap out c h ih =>
    obtain ⟨out', hprint, hiff⟩ := ih
    refine ⟨c.setWidth 8 :: out', ?_, ?_⟩
    · intro σ emit st more
      rw [List.cons_append, vprintkFrom_char, ← List.singleton_append, foldlM_append_map, List.foldlM_cons]
      simp only [List.foldlM_nil, bind_pure]
      exact congrArg _ (funext fun st => hprint σ emit st more)
    · rw [List.cons_inj_right, hiff]
      rfl

/-- `vprintk` prints what the format says exactly when no argument for `%d` is negative. -/
theorem vprintk_prints_iff {fmt : CString} {ap : List VaArg} {out : List (BitVec 8)}
    (h : Renders fmt.bytes ap out) : Prints fmt ap out ↔ ∀ c ∈ signedArgs fmt.bytes ap, 0 ≤ c.toInt := by
  obtain ⟨out', hprint, hiff⟩ := h.printed
  rw [← hiff]
  constructor
  · intro hright
    have hkept := (hprint _ _ [] []).symm.trans (hright _ (fun st c => .ok (st ++ [c])) [] [])
    rw [foldlM_keep, foldlM_keep] at hkept
    exact congrArg Prod.fst (Except.ok.inj hkept)
  · intro hsame σ emit st more
    rw [← hsame]
    exact hprint σ emit st more

/-- A format begins with a text that has no percent sign. -/
theorem Renders.literals {fmt : List (BitVec 8)} {ap : List VaArg} {out : List (BitVec 8)}
    (h : Renders fmt ap out) (text : List (BitVec 8)) (htext : 0x25 ∉ text) :
    Renders (text ++ fmt) ap (text ++ out) := by
  induction text with
  | nil => exact h
  | cons c text ih =>
    rw [List.mem_cons, not_or] at htext
    exact .literal c (Ne.symm htext.1) (ih htext.2)

/-- `Error while stat: `. -/
def statText : List (BitVec 8) :=
  [0x45, 0x72, 0x72, 0x6F, 0x72, 0x20, 0x77, 0x68, 0x69, 0x6C, 0x65, 0x20, 0x73, 0x74, 0x61, 0x74,
    0x3A, 0x20]

/-- What `cmd_stat` prints an error with: `Error while stat: %d`, and the end of the line. -/
def statError : CString where
  bytes := statText ++ [0x25, 0x64, 0x0A]
  noNul := by decide

theorem statError_renders (c : BitVec 32) :
    Renders statError.bytes [.int c] (statText ++ (decimal c ++ [0x0A])) :=
  Renders.literals (.signed c (.literal 0x0A (by decide) .nil)) statText (by decide)

theorem statError_nonneg : Prints statError [.int 2] (statText ++ [0x32, 0x0A]) := by
  have hsigned : (0 : Int) ≤ (2 : BitVec 32).toInt := by decide
  have hdigits : decimal 2 = [0x32] := by
    rw [decimal_of_nonneg hsigned, numeral, if_neg (by decide)]
    simp [bchar, bchars]
  have hrenders := statError_renders 2
  rw [hdigits] at hrenders
  have hargs : signedArgs statError.bytes [.int 2] = [2] := rfl
  apply (vprintk_prints_iff hrenders).mpr
  intro c hc
  rw [hargs, List.mem_singleton] at hc
  rw [hc]
  exact hsigned

/-- The error number `-2` is printed as 4294967294. -/
theorem statError_negative :
    ∃ out, Renders statError.bytes [.int (-2)] out ∧ out = statText ++ [0x2D, 0x32, 0x0A] ∧
      vprintk (fun st c => (.ok (st ++ [c]) : Except Fault (List (BitVec 8)))) statError [.int (-2)] [] =
        .ok (statText ++ [0x34, 0x32, 0x39, 0x34, 0x39, 0x36, 0x37, 0x32, 0x39, 0x34, 0x0A], []) ∧
      ¬Prints statError [.int (-2)] out := by
  have hprinted : vprintk (fun st c => (.ok (st ++ [c]) : Except Fault (List (BitVec 8)))) statError
      [.int (-2)] [] =
      .ok (statText ++ [0x34, 0x32, 0x39, 0x34, 0x39, 0x36, 0x37, 0x32, 0x39, 0x34, 0x0A], []) := rfl
  have hdigits : decimal (-2) = [0x2D, 0x32] := by
    have hnegative : (-2 : BitVec 32).toInt < 0 := by decide
    rw [decimal, signedNumeral, if_pos hnegative, numeral, if_neg (by decide)]
    simp [bchar, bchars]
  have hrenders := statError_renders (-2)
  rw [hdigits] at hrenders
  refine ⟨_, hrenders, rfl, hprinted, fun hright => ?_⟩
  have hkept := hprinted.symm.trans (hright _ (fun st c => .ok (st ++ [c])) [] [])
  rw [foldlM_keep] at hkept
  have hlists := congrArg Prod.fst (Except.ok.inj hkept)
  exact absurd hlists (by decide)

end Levos.Kernel
