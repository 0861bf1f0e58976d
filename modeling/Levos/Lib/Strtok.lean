import Levos.Framework.Stretch
import Levos.Lib.Tokens
import Mathlib.Data.List.GetD

namespace Levos.Lib

open Levos.Framework

/-- `n` calls of `strtok`, the first with `str` and the others with 0: what each answers, and what it
leaves behind. -/
def strtokCalls (delim : List (BitVec 8)) : Nat → Option Ptr → Strings →
    Except Fault (List (Option Ptr × Strings))
  | 0, _, _ => .ok []
  | n + 1, str, s => do
    let r ← strtok str delim s
    let rest ← strtokCalls delim n none r.2
    return r :: rest

/-- The characters of a text that are delimiters. -/
def IsDelim (delim text : List (BitVec 8)) (j : Nat) : Prop := text.getD j 0 ∈ delim

/-- Nothing in a block has changed, but for delimiters that are zeros now. -/
structure Erased (delim old new : List (BitVec 8)) : Prop where
  length : new.length = old.length
  bytes : ∀ j, new.getD j 0 = old.getD j 0 ∨ (old.getD j 0 ∈ delim ∧ new.getD j 0 = 0)

/-- What the calls have to answer on a text in block `b`, with the cursor at `c`: a pointer to each longest
stretch without a delimiter, in their order, and the stretch is the C string there, at once and
in the end; and nothing is changed but for delimiters of the text. -/
structure CallsRight (delim text : List (BitVec 8)) (h : Heap) (b c : Nat) (toks : List (Ptr × Strings))
    (heap : Heap) : Prop where
  order : (toks.map fun t => t.1.off).Pairwise (· < ·)
  place : ∀ t ∈ toks, t.1.block = b ∧ c ≤ t.1.off
  string : ∀ t ∈ toks, ∃ n, Stretch (IsDelim delim text) text.length t.1.off n ∧
    cstr (t.2.heap.rest t.1) = (text.drop t.1.off).take n ∧
    cstr (heap.rest t.1) = (text.drop t.1.off).take n
  complete : ∀ i n, Stretch (IsDelim delim text) text.length i n → c ≤ i → ∃ t ∈ toks, t.1.off = i
  erased : Erased delim (h.getD b []) (heap.getD b [])
  others : ∀ r, r ≠ b → heap.getD r [] = h.getD r []

/-- The text stands in block `b`, as far as it is ahead of `c`. -/
structure Ahead (text : List (BitVec 8)) (h : Heap) (b c : Nat) : Prop where
  length : (h.getD b []).length = text.length + 1
  bytes : ∀ j, c ≤ j → (h.getD b []).getD j 0 = text.getD j 0

section Bytes

variable {j : Nat} {bs : List (BitVec 8)} {v : BitVec 8}

theorem byte_set (hj : j < bs.length) (i : Nat) :
    (bs.set j v).getD i 0 = if i = j then v else bs.getD i 0 := by
  by_cases hij : i = j
  · rw [if_pos hij, hij, List.getD_eq_getElem?_getD, List.getElem?_set_self hj, Option.getD_some]
  · rw [if_neg hij, List.getD_eq_getElem?_getD, List.getElem?_set_ne (Ne.symm hij),
      List.getD_eq_getElem?_getD]

/-- The C string at `i` are the bytes up to the first zero. -/
theorem cstr_drop {i n : Nat} (hin : i + n < bs.length) (hnul : ∀ j, i ≤ j → j < i + n → bs.getD j 0 ≠ 0)
    (hend : bs.getD (i + n) 0 = 0) : cstr (bs.drop i) = (bs.drop i).take n := by
  induction n generalizing i with
  | zero =>
    rw [List.drop_eq_getElem_cons (by omega), List.take_zero, cstr]
    apply List.takeWhile_cons_of_neg
    rw [Nat.add_zero, List.getD_eq_getElem _ _ (by omega)] at hend
    simpa using hend
  | succ n ih =>
    have hfirst := hnul i (Nat.le_refl i) (by omega)
    rw [List.getD_eq_getElem _ _ (by omega)] at hfirst
    rw [List.drop_eq_getElem_cons (by omega), List.take_succ_cons, cstr_cons (Ne.symm hfirst)]
    rw [ih (by omega) (fun j hij hj => hnul j (by omega) (by omega)) (by rw [← hend]; congr 1; omega)]

end Bytes

section Erase

variable {delim old new newer text : List (BitVec 8)} {i n : Nat}

theorem Erased.refl (old : List (BitVec 8)) : Erased delim old old := ⟨rfl, fun _ => .inl rfl⟩

theorem Erased.trans (h : Erased delim old new) (k : Erased delim new newer) : Erased delim old newer := by
  refine ⟨k.length.trans h.length, ?_⟩
  intro j
  cases h.bytes j with
  | inl hsame =>
    rw [← hsame]
    exact k.bytes j
  | inr hzero =>
    right
    refine ⟨hzero.1, ?_⟩
    cases k.bytes j with
    | inl hsame => rw [hsame, hzero.2]
    | inr hagain => exact hagain.2

/-- A byte that is no delimiter stays as it is. -/
theorem Erased.keeps (h : Erased delim old new) (hj : old.getD i 0 ∉ delim) :
    new.getD i 0 = old.getD i 0 := by
  cases h.bytes i with
  | inl hsame => exact hsame
  | inr hzero => exact absurd hzero.1 hj

/-- A zero is stored over a delimiter, or over a zero. -/
theorem Erased.set (hi : i < old.length) (hbyte : old.getD i 0 = 0 ∨ old.getD i 0 ∈ delim) :
    Erased delim old (old.set i 0) := by
  refine ⟨List.length_set, ?_⟩
  intro j
  rw [byte_set hi]
  by_cases hj : j = i
  · rw [if_pos hj, hj]
    cases hbyte with
    | inl hzero => exact .inl hzero.symm
    | inr hdelim => exact .inr ⟨hdelim, rfl⟩
  · rw [if_neg hj]
    exact .inl rfl

/-- A token that ends with a zero is the C string there, and stays it. -/
theorem Erased.cstr (h : Erased delim old new) (h0 : 0 ∉ delim) (hnul : 0 ∉ text)
    (hin : i + n ≤ text.length) (hlen : old.length = text.length + 1)
    (htext : ∀ j, i ≤ j → j < i + n → old.getD j 0 = text.getD j 0 ∧ text.getD j 0 ∉ delim)
    (hend : old.getD (i + n) 0 = 0) : cstr (new.drop i) = (text.drop i).take n := by
  have hsame (j : Nat) (hij : i ≤ j) (hj : j < i + n) : new.getD j 0 = text.getD j 0 := by
    obtain ⟨htext, hfree⟩ := htext j hij hj
    rw [h.keeps (htext ▸ hfree), htext]
  have hnew : new.length = text.length + 1 := h.length.trans hlen
  rw [cstr_drop (n := n) (by omega)]
  · apply List.ext_getElem
    · simp only [List.length_take, List.length_drop]
      omega
    · intro j hj hj'
      simp only [List.length_take, List.length_drop] at hj
      have hbyte := hsame (i + j) (by omega) (by omega)
      rw [List.getD_eq_getElem _ _ (by omega), List.getD_eq_getElem _ _ (by omega)] at hbyte
      simpa using hbyte
  · intro j hij hj hzero
    rw [hsame j hij hj, List.getD_eq_getElem _ _ (by omega)] at hzero
    exact hnul (hzero ▸ List.getElem_mem _)
  · rw [h.keeps (by rw [hend]; exact h0), hend]

end Erase

section Loops

variable {delim text : List (BitVec 8)} {h : Heap} {b c e i : Nat}

/-- The first loop stops at the first byte that is no delimiter. -/
theorem skipDelims_stops (hce : c ≤ e) (he : e < (h.getD b []).length)
    (hskip : ∀ j, c ≤ j → j < e → (h.getD b []).getD j 0 ∈ delim) (hstop : (h.getD b []).getD e 0 ∉ delim)
    (fuel : Nat) (hfuel : e - c < fuel) : skipDelims h delim fuel ⟨b, c⟩ = .ok ⟨b, e⟩ := by
  induction fuel generalizing c with
  | zero => omega
  | succ fuel ih =>
    rw [skipDelims, Heap.load_byte (by omega), ok_bind]
    by_cases hlast : c = e
    · rw [hlast, if_neg hstop]
      rfl
    · rw [if_pos (hskip c (Nat.le_refl c) (by omega))]
      exact ih (c := c + 1) (by omega) (fun j hcj => hskip j (by omega)) (by omega)

/-- The second loop stops at the first zero or delimiter. It stores a zero over a delimiter, and the
cursor goes behind it. -/
theorem cutToken_stops (hie : i ≤ e) (he : e < (h.getD b []).length)
    (hfree : ∀ j, i ≤ j → j < e → (h.getD b []).getD j 0 ≠ 0 ∧ (h.getD b []).getD j 0 ∉ delim)
    (hstop : (h.getD b []).getD e 0 = 0 ∨ (h.getD b []).getD e 0 ∈ delim) (fuel : Nat)
    (hfuel : e - i < fuel) :
    cutToken h delim fuel ⟨b, i⟩ = .ok (if (h.getD b []).getD e 0 = 0 then (⟨b, e⟩, h)
      else (⟨b, e + 1⟩, h.set b ((h.getD b []).set e 0))) := by
  induction fuel generalizing i with
  | zero => omega
  | succ fuel ih =>
    rw [cutToken, Heap.load_byte (by omega), ok_bind]
    by_cases hlast : i = e
    · rw [hlast]
      by_cases hzero : (h.getD b []).getD e 0 = 0
      · rw [if_pos hzero, if_pos hzero]
        rfl
      · rw [if_neg hzero, if_neg hzero, if_pos (hstop.resolve_left hzero), Heap.store_byte he]
        rfl
    · obtain ⟨hne, hnot⟩ := hfree i (Nat.le_refl i) (by omega)
      rw [if_neg hne, if_neg hnot]
      exact ih (i := i + 1) (by omega) (fun j hij => hfree j (by omega)) (by omega)

end Loops

section Call

variable {delim text : List (BitVec 8)} {s : Strings} {str : Option Ptr} {h : Heap} {b c i : Nat}

/-- The byte behind a text that has none is 0. -/
theorem getD_length (text : List (BitVec 8)) : text.getD text.length 0 = 0 := by simp

theorem getD_append_zero (text : List (BitVec 8)) (j : Nat) : (text ++ [0]).getD j 0 = text.getD j 0 := by
  rw [List.getD_eq_getElem?_getD, List.getD_eq_getElem?_getD]
  rcases Nat.lt_trichotomy j text.length with hlt | heq | hgt
  · rw [List.getElem?_append_left hlt]
  · rw [heq, List.getElem?_append_right (Nat.le_refl _), List.getElem?_eq_none (Nat.le_refl _),
      Nat.sub_self]
    rfl
  · rw [List.getElem?_eq_none (by rw [List.length_append]; exact hgt),
      List.getElem?_eq_none (Nat.le_of_lt hgt)]

theorem text_ne_zero (hnul : 0 ∉ text) {j : Nat} (hj : j < text.length) : text.getD j 0 ≠ 0 := by
  intro hzero
  rw [List.getD_eq_getElem _ _ hj] at hzero
  exact hnul (hzero ▸ List.getElem_mem hj)

/-- From a place ahead of the cursor the block goes on to the zero of the text. -/
theorem Ahead.rest_length (hmem : Ahead text h b c) (i : Nat) :
    (h.rest ⟨b, i⟩).length = text.length + 1 - i := by
  rw [Heap.rest, List.length_drop, hmem.length]

/-- The first loop comes to the first byte of the text that is no delimiter, which may be its zero. -/
theorem skipDelims_first (h0 : 0 ∉ delim) (hmem : Ahead text h b c) (hc : c ≤ text.length) :
    ∃ i, c ≤ i ∧ i ≤ text.length ∧ ¬IsDelim delim text i ∧ (∀ j, c ≤ j → j < i → IsDelim delim text j) ∧
      skipDelims h delim ((h.rest ⟨b, c⟩).length + 1) ⟨b, c⟩ = .ok ⟨b, i⟩ := by
  have hlen := hmem.length
  have hend : ¬IsDelim delim text text.length := by
    rw [IsDelim, getD_length]
    exact h0
  obtain ⟨i, hci, hi, hfirst, hskip⟩ := exists_first (fun j => ¬IsDelim delim text j) hc hend
  have hskipped (j : Nat) (hcj : c ≤ j) (hji : j < i) : IsDelim delim text j :=
    not_not.mp (hskip j hcj hji)
  refine ⟨i, hci, hi, hfirst, hskipped, ?_⟩
  apply skipDelims_stops hci (by omega)
  · intro j hcj hji
    rw [hmem.bytes j hcj]
    exact hskipped j hcj hji
  · rw [hmem.bytes i hci]
    exact hfirst
  · rw [hmem.rest_length]
    omega

/-- The second loop comes to the first delimiter behind, or to the zero of the text, and leaves a zero. -/
theorem cutToken_first (hnul : 0 ∉ text) (hmem : Ahead text h b c) (hci : c ≤ i) (hi : i < text.length)
    (hfirst : ¬IsDelim delim text i) :
    ∃ e, i < e ∧ e ≤ text.length ∧ (∀ j, i ≤ j → j < e → ¬IsDelim delim text j) ∧
      (e < text.length → IsDelim delim text e) ∧
      cutToken h delim ((h.rest ⟨b, i⟩).length + 1) ⟨b, i⟩ =
        .ok (⟨b, if e < text.length then e + 1 else e⟩, h.set b ((h.getD b []).set e 0)) := by
  have hlen := hmem.length
  obtain ⟨e, hie, he, hend, hbefore⟩ :=
    exists_first (fun j => j = text.length ∨ IsDelim delim text j) (Nat.le_of_lt hi) (.inl rfl)
  have hfree (j : Nat) (hij : i ≤ j) (hje : j < e) : ¬IsDelim delim text j :=
    (not_or.mp (hbefore j hij hje)).2
  have hie' : i < e := by
    by_contra hnot
    have heq : e = i := by omega
    rw [heq] at hend
    exact hend.elim (Nat.ne_of_lt hi) hfirst
  have hbyte : (h.getD b []).getD e 0 = text.getD e 0 := hmem.bytes e (by omega)
  refine ⟨e, hie', he, hfree, fun hlt => hend.resolve_left (Nat.ne_of_lt hlt), ?_⟩
  rw [cutToken_stops (e := e) hie (by omega)]
  · by_cases hlt : e < text.length
    · have hne := text_ne_zero hnul hlt
      rw [hbyte, if_neg hne, if_pos hlt]
    · have hzero : (h.getD b []).getD e 0 = 0 := by
        rw [hbyte, Nat.le_antisymm he (Nat.not_lt.mp hlt), getD_length]
      have hsame : (h.getD b []).set e 0 = h.getD b [] := by
        rw [List.getD_eq_getElem _ _ (by omega)] at hzero
        rw [← hzero, List.set_getElem_self]
      rw [if_pos hzero, if_neg hlt, hsame, Heap.set_block]
  · intro j hij hje
    rw [hmem.bytes j (by omega)]
    exact ⟨text_ne_zero hnul (by omega), hfree j hij hje⟩
  · rw [hbyte]
    cases hend with
    | inl hlast =>
      left
      rw [hlast, getD_length]
    | inr hdelim => exact .inr hdelim
  · rw [hmem.rest_length]
    omega

/-- One call: there is no token left and the cursor is reset, or it answers the first token that is left,
ends it with a zero, and the cursor goes behind it. -/
theorem strtok_first (hd : delim ≠ []) (h0 : 0 ∉ delim) (hnul : 0 ∉ text)
    (hsp : (if s.sp = none then str else s.sp) = some ⟨b, c⟩) (hmem : Ahead text s.heap b c)
    (hcur : Between (IsDelim delim text) text.length c) :
    ((∀ i n, c ≤ i → ¬Stretch (IsDelim delim text) text.length i n) ∧
      strtok str delim s = .ok (none, { s with sp := none })) ∨
    ∃ i e, c ≤ i ∧ i < e ∧ e ≤ text.length ∧ Stretch (IsDelim delim text) text.length i (e - i) ∧
      (∀ i' n', c ≤ i' → Stretch (IsDelim delim text) text.length i' n' →
        (i' = i ∧ n' = e - i) ∨ (e < i' ∧ e < text.length)) ∧
      strtok str delim s = .ok (some ⟨b, i⟩, ⟨s.heap.set b ((s.heap.getD b []).set e 0),
        some ⟨b, if e < text.length then e + 1 else e⟩⟩) := by
  obtain ⟨i, hci, hi, hfirst, hskipped, hskip⟩ := skipDelims_first h0 hmem hcur.1
  have hload : s.heap.load ⟨b, i⟩ = .ok (text.getD i 0) := by
    have hlen := hmem.length
    rw [Heap.load_byte (by omega), hmem.bytes i hci]
  rw [strtok, if_neg hd]
  by_cases hlast : i = text.length
  · left
    constructor
    · intro i' n' hci' hstretch
      exact hstretch.not_of_delims hci' fun j hcj hj => hskipped j hcj (by omega)
    · rw [hlast, getD_length] at hload
      rw [hlast] at hskip
      simp only [hsp, hskip, ok_bind, hload]
      rfl
  · right
    have hlt : i < text.length := by omega
    obtain ⟨e, hie, he, hfree, hstop, hcut⟩ := cutToken_first hnul hmem hci hlt hfirst
    refine ⟨i, e, hci, hie, he, hcur.stretch hci hie he hskipped hfree hstop, ?_, ?_⟩
    · intro i' n' hci' hstretch
      exact hstretch.first hci' hie he hskipped hfree hstop
    · have hne : text.getD i 0 ≠ 0 := text_ne_zero hnul hlt
      simp only [hsp, hskip, ok_bind, hload, if_neg hne, hcut]
      rfl

end Call

section Calls

variable {delim text : List (BitVec 8)} {h heap : Heap} {toks : List (Ptr × Strings)} {b c i e : Nat}

theorem Ahead.block_lt (hmem : Ahead text h b c) : b < h.length := by
  have hlen := hmem.length
  by_contra hout
  rw [List.getD_eq_default _ _ (by omega)] at hlen
  simp at hlen

/-- The text is ahead of the cursor behind a token that was cut off. -/
theorem Ahead.cut (hmem : Ahead text h b c) (hce : c ≤ e) (he : e ≤ text.length) :
    Ahead text (h.set b ((h.getD b []).set e 0)) b (if e < text.length then e + 1 else e) := by
  have hlen := hmem.length
  refine ⟨?_, ?_⟩
  · rw [Heap.block_set_self hmem.block_lt, List.length_set, hlen]
  · intro j hj
    rw [Heap.block_set_self hmem.block_lt, byte_set (by omega)]
    by_cases hje : j = e
    · have hend : j = text.length := by split at hj <;> omega
      rw [if_pos hje, hend, getD_length]
    · rw [if_neg hje]
      apply hmem.bytes
      split at hj <;> omega

/-- What ends a stretch of the text is a delimiter, or the end of the text. -/
theorem Stretch.ends (h : Stretch (IsDelim delim text) text.length i (e - i)) (hie : i < e)
    (he : e ≤ text.length) : if e < text.length then IsDelim delim text e else e = text.length := by
  have hsum : i + (e - i) = e := by omega
  have hright := h.right
  rw [hsum] at hright
  split
  case isTrue hlt => exact hright hlt
  case isFalse hge => omega

theorem CallsRight.nil (hno : ∀ i n, c ≤ i → ¬Stretch (IsDelim delim text) text.length i n) :
    CallsRight delim text h b c [] h := by
  refine ⟨.nil, by simp, by simp, ?_, .refl _, fun _ _ => rfl⟩
  intro i n hstretch hci
  exact absurd hstretch (hno i n hci)

/-- Where a token is cut off the block has lost nothing but a delimiter. -/
theorem Ahead.erased (hmem : Ahead text h b c) (hce : c ≤ e) (he : e ≤ text.length)
    (hends : if e < text.length then IsDelim delim text e else e = text.length) :
    Erased delim (h.getD b []) ((h.getD b []).set e 0) := by
  have hlen := hmem.length
  apply Erased.set (by omega)
  rw [hmem.bytes e hce]
  split at hends
  · exact .inr hends
  · rw [hends, getD_length]
    exact .inl rfl

/-- A token that is cut off is the C string at its first byte, also when more delimiters are lost. -/
theorem Ahead.token (h0 : 0 ∉ delim) (hnul : 0 ∉ text) (hmem : Ahead text h b c) (hci : c ≤ i)
    (hie : i < e) (he : e ≤ text.length) (hfree : ∀ j, i ≤ j → j < e → ¬IsDelim delim text j)
    {new : List (BitVec 8)} (herased : Erased delim ((h.getD b []).set e 0) new) :
    cstr (new.drop i) = (text.drop i).take (e - i) := by
  have hlen := hmem.length
  have hsum : i + (e - i) = e := by omega
  apply herased.cstr h0 hnul (by omega) (by rw [List.length_set, hlen])
  · intro j hij hje
    rw [byte_set (by omega), if_neg (by omega), hmem.bytes j (by omega)]
    exact ⟨rfl, hfree j hij (by omega)⟩
  · rw [hsum, byte_set (by omega), if_pos rfl]

/-- A first token in front of what later calls answer. -/
theorem CallsRight.cons (h0 : 0 ∉ delim) (hnul : 0 ∉ text) (hmem : Ahead text h b c) (hci : c ≤ i)
    (hie : i < e) (he : e ≤ text.length)
    (hstretch : Stretch (IsDelim delim text) text.length i (e - i))
    (hfirst : ∀ i' n', c ≤ i' → Stretch (IsDelim delim text) text.length i' n' →
      (i' = i ∧ n' = e - i) ∨ (e < i' ∧ e < text.length)) (sp : Option Ptr)
    (hright : CallsRight delim text (h.set b ((h.getD b []).set e 0)) b
      (if e < text.length then e + 1 else e) toks heap) :
    CallsRight delim text h b c ((⟨b, i⟩, ⟨h.set b ((h.getD b []).set e 0), sp⟩) :: toks) heap := by
  have hb := hmem.block_lt
  have hstored := hmem.erased (by omega) he (Stretch.ends hstretch hie he)
  have herased := hright.erased
  rw [Heap.block_set_self hb] at herased
  have hstring {new : List (BitVec 8)} (h' : Erased delim ((h.getD b []).set e 0) new) :
      cstr (new.drop i) = (text.drop i).take (e - i) :=
    hmem.token h0 hnul hci hie he (fun j hij hje => hstretch.free j hij (by omega)) h'
  have hahead (t : Ptr × Strings) (ht : t ∈ toks) : i < t.1.off := by
    have hplace := (hright.place t ht).2
    split at hplace <;> omega
  refine ⟨?_, ?_, ?_, ?_, hstored.trans herased, ?_⟩
  · rw [List.map_cons, List.pairwise_cons]
    refine ⟨?_, hright.order⟩
    intro off hoff
    obtain ⟨t, ht, hoff⟩ := List.mem_map.mp hoff
    exact hoff ▸ hahead t ht
  · intro t ht
    cases List.mem_cons.mp ht with
    | inl hhead =>
      rw [hhead]
      exact ⟨rfl, hci⟩
    | inr htail => exact ⟨(hright.place t htail).1, Nat.le_trans hci (Nat.le_of_lt (hahead t htail))⟩
  · intro t ht
    cases List.mem_cons.mp ht with
    | inl hhead =>
      rw [hhead]
      refine ⟨e - i, hstretch, ?_, hstring herased⟩
      rw [Heap.rest, Heap.block_set_self hb]
      exact hstring (.refl _)
    | inr htail => exact hright.string t htail
  · intro i' n' hstretch' hci'
    cases hfirst i' n' hci' hstretch' with
    | inl hsame => exact ⟨_, List.mem_cons_self, hsame.1.symm⟩
    | inr hlater =>
      obtain ⟨t, ht, hoff⟩ := hright.complete i' n' hstretch' (by rw [if_pos hlater.2]; omega)
      exact ⟨t, List.mem_cons_of_mem _ ht, hoff⟩
  · intro r hr
    rw [hright.others r hr, Heap.block_set_of_ne hr]

/-- From a cursor between two tokens on, by induction on what is ahead of it. -/
theorem calls_right (hd : delim ≠ []) (h0 : 0 ∉ delim) (hnul : 0 ∉ text) (m : Nat)
    (hm : text.length - c < m) {s : Strings} {str : Option Ptr}
    (hsp : (if s.sp = none then str else s.sp) = some ⟨b, c⟩)
    (hmem : Ahead text s.heap b c) (hcur : Between (IsDelim delim text) text.length c) :
    ∃ toks heap, strtokCalls delim (toks.length + 1) str s =
        .ok (toks.map (fun t => (some t.1, t.2)) ++ [(none, ⟨heap, none⟩)]) ∧
      CallsRight delim text s.heap b c toks heap := by
  induction m generalizing c s str with
  | zero => omega
  | succ m ih =>
    cases strtok_first hd h0 hnul hsp hmem hcur with
    | inl hnone =>
      obtain ⟨hno, hcall⟩ := hnone
      refine ⟨[], s.heap, ?_, .nil hno⟩
      rw [List.length_nil, strtokCalls, hcall]
      rfl
    | inr hsome =>
      obtain ⟨i, e, hci, hie, he, hstretch, hfirst, hcall⟩ := hsome
      have hcur' : Between (IsDelim delim text) text.length (if e < text.length then e + 1 else e) := by
        have hends := Stretch.ends hstretch hie he
        split
        case isTrue hlt =>
          rw [if_pos hlt] at hends
          exact ⟨hlt, .inr (.inr hends)⟩
        case isFalse hge => exact ⟨he, .inr (.inl (by omega))⟩
      have hahead : text.length - (if e < text.length then e + 1 else e) < m := by
        split <;> omega
      let sp : Option Ptr := some ⟨b, if e < text.length then e + 1 else e⟩
      have hsp' : (if sp = none then none else sp) = some ⟨b, if e < text.length then e + 1 else e⟩ := rfl
      obtain ⟨toks, heap, hcalls, hright⟩ := ih hahead (s := ⟨_, sp⟩) hsp' (hmem.cut (by omega) he) hcur'
      refine ⟨_, heap, ?_, .cons h0 hnul hmem hci hie he hstretch hfirst sp hright⟩
      rw [List.length_cons, strtokCalls, hcall, ok_bind, hcalls]
      rfl

end Calls

/-- The calls `strtok(s, d)`, `strtok(0, d)`, ... on a text in a block of its own: as many calls as there
are tokens answer them one after the other, and the next one answers 0 and resets the cursor. An
access outside the text would stop them. -/
theorem strtok_calls (d text : CString) (hd : d.bytes ≠ []) (h : Heap) (b : Nat)
    (hb : h.getD b [] = text.bytes ++ [0]) :
    ∃ toks heap, strtokCalls d.bytes (toks.length + 1) (some ⟨b, 0⟩) ⟨h, none⟩ =
        .ok (toks.map (fun t => (some t.1, t.2)) ++ [(none, ⟨heap, none⟩)]) ∧
      CallsRight d.bytes text.bytes h b 0 toks heap := by
  apply calls_right hd d.noNul text.noNul (text.bytes.length + 1) (by omega) (by simp)
  · refine ⟨by rw [hb, List.length_append]; rfl, ?_⟩
    intro j hj
    rw [hb, getD_append_zero]
  · exact between_zero _ _

/-- `"a/b"`, split at `'/'`. -/
theorem strtok_calls_path :
    ∃ toks heap, strtokCalls [0x2F] (toks.length + 1) (some ⟨0, 0⟩) ⟨[[0x61, 0x2F, 0x62, 0]], none⟩ =
        .ok (toks.map (fun t => (some t.1, t.2)) ++ [(none, ⟨heap, none⟩)]) ∧
      CallsRight [0x2F] [0x61, 0x2F, 0x62] [[0x61, 0x2F, 0x62, 0]] 0 0 toks heap :=
  strtok_calls ⟨[0x2F], by decide⟩ ⟨[0x61, 0x2F, 0x62], by decide⟩ (by simp) _ 0 rfl

end Levos.Lib
