import Levos.Lib.String
import Mathlib.Data.List.TakeWhile

namespace Levos.Lib

open Levos.Framework

theorem noNul_cons {c : BitVec 8} {u : List (BitVec 8)} : 0 ∉ c :: u ↔ 0 ≠ c ∧ 0 ∉ u := by
  rw [List.mem_cons, not_or]

section Tokens

variable (delim : List (BitVec 8))

/-- A text that begins with a token, with the zero behind it, once the token is cut off. -/
def cut : List (BitVec 8) → List (BitVec 8)
  | [] => [0]
  | c :: u => if c ∈ delim then 0 :: (u ++ [0]) else c :: cut u

/-- The text behind a token and the delimiter that ends it. -/
def behind : List (BitVec 8) → List (BitVec 8)
  | [] => []
  | c :: u => if c ∈ delim then u else behind u

def inPlaceFrom : Bool → List (BitVec 8) → List (List (BitVec 8))
  | _, [] => []
  | inside, c :: u =>
    if c ∈ delim then inPlaceFrom false u
    else if inside then inPlaceFrom true u
    else cut delim (c :: u) :: inPlaceFrom true u

/-- The tokens of a text where they stand: each with the bytes that follow it in its block. -/
def inPlace (text : List (BitVec 8)) : List (List (BitVec 8)) := inPlaceFrom delim false text

variable {delim}

theorem behind_length_le (u : List (BitVec 8)) : (behind delim u).length ≤ u.length := by
  induction u with
  | nil => exact Nat.le_refl _
  | cons c u ih =>
    rw [behind, List.length_cons]
    split_ifs <;> omega

theorem mem_of_mem_behind {u : List (BitVec 8)} {c : BitVec 8} (h : c ∈ behind delim u) : c ∈ u := by
  induction u with
  | nil => exact h
  | cons d u ih =>
    rw [behind] at h
    split_ifs at h
    · exact List.mem_cons_of_mem _ h
    · exact List.mem_cons_of_mem _ (ih h)

theorem inPlaceFrom_true (u : List (BitVec 8)) :
    inPlaceFrom delim true u = inPlace delim (behind delim u) := by
  induction u with
  | nil => rfl
  | cons c u ih =>
    rw [inPlaceFrom, behind]
    by_cases hc : c ∈ delim
    · rw [if_pos hc, if_pos hc]
      rfl
    · rw [if_neg hc, if_neg hc, if_pos rfl]
      exact ih

theorem inPlace_dropWhile (u : List (BitVec 8)) :
    inPlace delim (u.dropWhile (· ∈ delim)) = inPlace delim u := by
  induction u with
  | nil => rfl
  | cons c u ih =>
    by_cases hc : c ∈ delim
    · rw [List.dropWhile_cons_of_pos (by simpa using hc), ih]
      exact (if_pos hc).symm
    · rw [List.dropWhile_cons_of_neg (by simpa using hc)]

theorem inPlace_cons {c : BitVec 8} (hc : c ∉ delim) (u : List (BitVec 8)) :
    inPlace delim (c :: u) = cut delim (c :: u) :: inPlace delim (behind delim (c :: u)) := by
  rw [inPlace, inPlaceFrom, if_neg hc, if_neg (by simp), inPlaceFrom_true, behind, if_neg hc]

/-- The C string at the beginning of `bs`. -/
def cstr (bs : List (BitVec 8)) : List (BitVec 8) := bs.takeWhile (· ≠ 0)

theorem cstr_cons {c : BitVec 8} (hc : 0 ≠ c) (bs : List (BitVec 8)) :
    cstr (c :: bs) = c :: cstr bs := List.takeWhile_cons_of_pos (by simpa using Ne.symm hc)

variable (delim) in
/-- The non-empty stretches between delimiters. -/
def tokens (text : List (BitVec 8)) : List (List (BitVec 8)) :=
  (text.splitOnP (· ∈ delim)).filter (!·.isEmpty)

theorem splitOnP_cut {u : List (BitVec 8)} (hu : 0 ∉ u) :
    ∃ tl, u.splitOnP (· ∈ delim) = cstr (cut delim u) :: tl := by
  induction u with
  | nil => exact ⟨[], rfl⟩
  | cons c u ih =>
    obtain ⟨hc0, hu0⟩ := noNul_cons.mp hu
    obtain ⟨tl, htl⟩ := ih hu0
    rw [List.splitOnP_cons_eq_if_modifyHead, cut]
    by_cases hc : c ∈ delim
    · rw [if_pos hc, if_pos (decide_eq_true hc)]
      exact ⟨_, rfl⟩
    · rw [if_neg hc, if_neg (by simpa using hc), htl, cstr_cons hc0]
      exact ⟨tl, rfl⟩

theorem inPlaceFrom_tokens {u : List (BitVec 8)} (hu : 0 ∉ u) :
    (inPlaceFrom delim false u).map cstr = tokens delim u ∧
    (inPlaceFrom delim true u).map cstr =
      (u.splitOnP (· ∈ delim)).tail.filter (!·.isEmpty) := by
  induction u with
  | nil => exact ⟨rfl, rfl⟩
  | cons c u ih =>
    obtain ⟨hc0, hu0⟩ := noNul_cons.mp hu
    obtain ⟨ihf, iht⟩ := ih hu0
    obtain ⟨tl, htl⟩ : ∃ tl, u.splitOnP (· ∈ delim) = cstr (cut delim u) :: tl :=
      splitOnP_cut hu0
    rw [tokens, List.splitOnP_cons_eq_if_modifyHead, inPlaceFrom, inPlaceFrom]
    by_cases hc : c ∈ delim
    · rw [if_pos hc, if_pos hc, if_pos (decide_eq_true hc)]
      exact ⟨ihf, ihf⟩
    · rw [htl, List.tail_cons] at iht
      have hc' : ¬decide (c ∈ delim) = true := by simpa using hc
      rw [if_neg hc, if_neg hc, if_neg hc', htl, if_neg (by simp), if_pos rfl]
      refine ⟨?_, iht⟩
      rw [List.map_cons, cut, if_neg hc, cstr_cons hc0, iht]
      rfl

/-- The C strings at the tokens in place are the tokens. -/
theorem inPlace_tokens {text : List (BitVec 8)} (h0 : 0 ∉ text) :
    (inPlace delim text).map cstr = tokens delim text := (inPlaceFrom_tokens h0).1

/-- A delimiter ends a text as far as its first token is concerned. -/
theorem cstr_cut_append {d : BitVec 8} (hd : d ∈ delim) (u t : List (BitVec 8)) :
    cstr (cut delim (u ++ d :: t)) = cstr (cut delim u) := by
  induction u with
  | nil =>
    have hcut : cut delim (d :: t) = 0 :: (t ++ [0]) := if_pos hd
    rw [List.nil_append, hcut]
    rfl
  | cons c u ih =>
    rw [List.cons_append, cut, cut]
    by_cases hc : c ∈ delim
    · rw [if_pos hc, if_pos hc]
      rfl
    · rw [if_neg hc, if_neg hc]
      by_cases h0 : c = 0
      · rw [h0]
        rfl
      · rw [cstr_cons (Ne.symm h0), cstr_cons (Ne.symm h0), ih]

theorem inPlaceFrom_append {d : BitVec 8} (hd : d ∈ delim) (u t : List (BitVec 8)) (inside : Bool) :
    ∃ parts, inPlaceFrom delim inside (u ++ d :: t) = parts ++ inPlace delim t ∧
      parts.map cstr = (inPlaceFrom delim inside u).map cstr := by
  induction u generalizing inside with
  | nil => exact ⟨[], by rw [List.nil_append, inPlaceFrom, if_pos hd]; rfl, rfl⟩
  | cons c u ih =>
    rw [List.cons_append, inPlaceFrom, inPlaceFrom]
    by_cases hc : c ∈ delim
    · rw [if_pos hc, if_pos hc]
      exact ih false
    · rw [if_neg hc, if_neg hc]
      cases inside with
      | true =>
        rw [if_pos rfl, if_pos rfl]
        exact ih true
      | false =>
        obtain ⟨parts, hparts, hnames⟩ := ih true
        have hfirst := cstr_cut_append hd (c :: u) t
        refine ⟨cut delim (c :: (u ++ d :: t)) :: parts, ?_, ?_⟩
        · rw [if_neg (by simp), hparts]
          rfl
        · rw [if_neg (by simp), List.map_cons, List.map_cons, hnames, ← hfirst]
          rfl

/-- The tokens of a text in two parts are those of the parts. -/
theorem inPlace_append {d : BitVec 8} (hd : d ∈ delim) {u : List (BitVec 8)} (hu : 0 ∉ u)
    (t : List (BitVec 8)) : ∃ parts, inPlace delim (u ++ d :: t) = parts ++ inPlace delim t ∧
      parts.map cstr = tokens delim u := by
  obtain ⟨parts, hparts, hnames⟩ := inPlaceFrom_append hd u t false
  exact ⟨parts, hparts, hnames.trans (inPlace_tokens hu)⟩

end Tokens

section Strtok

variable {h : Heap} {delim : List (BitVec 8)} {p q : Ptr} {u t : List (BitVec 8)}

theorem skipDelims_spec (h0 : 0 ∉ delim) (fuel : Nat) (hp : h.rest p = u ++ [0])
    (hfuel : u.length < fuel) :
    ∃ q, skipDelims h delim fuel p = .ok q ∧ h.rest q = u.dropWhile (· ∈ delim) ++ [0] := by
  induction u generalizing p fuel with
  | nil =>
    obtain ⟨fuel, rfl⟩ := Nat.exists_eq_succ_of_ne_zero (by omega : fuel ≠ 0)
    refine ⟨p, ?_, hp⟩
    rw [skipDelims, Heap.load_of_rest hp, ok_bind, if_neg h0]
    rfl
  | cons c u ih =>
    rw [List.length_cons] at hfuel
    obtain ⟨fuel, rfl⟩ := Nat.exists_eq_succ_of_ne_zero (by omega : fuel ≠ 0)
    have hload := Heap.load_of_rest hp
    by_cases hc : c ∈ delim
    · obtain ⟨q, hq, hrest⟩ := ih fuel (Heap.rest_next hp) (by omega)
      refine ⟨q, ?_, ?_⟩
      · rw [skipDelims, hload, ok_bind, if_pos hc, hq]
      · rw [hrest, List.dropWhile_cons_of_pos (by simpa using hc)]
    · refine ⟨p, ?_, ?_⟩
      · rw [skipDelims, hload, ok_bind, if_neg hc]
        rfl
      · rw [hp, List.dropWhile_cons_of_neg (by simpa using hc)]

/-- The token that began at `q` is ended, and the cursor goes behind it. -/
theorem cutToken_spec (fuel : Nat) (hq : h.rest q = t ++ (u ++ [0]))
    (hp : p = { q with off := q.off + t.length }) (hpr : h.rest p = u ++ [0]) (hu : 0 ∉ u)
    (hfuel : u.length < fuel) :
    ∃ p' h', cutToken h delim fuel p = .ok (p', h') ∧ h'.rest q = t ++ cut delim u ∧
      h'.rest p' = behind delim u ++ [0] := by
  induction u generalizing p t fuel with
  | nil =>
    obtain ⟨fuel, rfl⟩ := Nat.exists_eq_succ_of_ne_zero (by omega : fuel ≠ 0)
    refine ⟨p, h, ?_, hq, hpr⟩
    rw [cutToken, Heap.load_of_rest hpr, ok_bind, if_pos rfl]
    rfl
  | cons c u ih =>
    rw [List.length_cons] at hfuel
    obtain ⟨fuel, rfl⟩ := Nat.exists_eq_succ_of_ne_zero (by omega : fuel ≠ 0)
    obtain ⟨hc0, hu0⟩ := noNul_cons.mp hu
    have hload := Heap.load_of_rest hpr
    have hne : c ≠ 0 := Ne.symm hc0
    by_cases hc : c ∈ delim
    · obtain ⟨h', hstore, hq', hp', -⟩ := Heap.store_spec (b := 0) hq hp
      refine ⟨p.next, h', ?_, ?_, ?_⟩
      · rw [cutToken, hload, ok_bind, if_neg hne, if_pos hc, hstore]
        rfl
      · rw [hq', cut, if_pos hc]
        rfl
      · rw [hp', behind, if_pos hc]
        rfl
    · obtain ⟨p', h', hcut, hq', hp'⟩ := ih (t := t ++ [c]) fuel (p := p.next) (by simpa using hq)
        (by simp [hp, Ptr.next, Nat.add_assoc]) (Heap.rest_next hpr) hu0 (by omega)
      refine ⟨p', h', ?_, ?_, ?_⟩
      · rw [cutToken, hload, ok_bind, if_neg hne, if_neg hc, hcut]
      · rw [hq', cut, if_neg hc, List.append_assoc]
        rfl
      · rw [hp', behind, if_neg hc]

/-- `strtok` on a text: there is no token, and the cursor is reset, or the first token is cut off
and the cursor goes on behind it. -/
theorem strtok_spec {s : Strings} {str : Option Ptr} (hd : delim ≠ []) (h0 : 0 ∉ delim)
    (hsp : (if s.sp = none then str else s.sp) = some p) (hp : s.heap.rest p = u ++ [0])
    (hu : 0 ∉ u) :
    (inPlace delim u = [] ∧ strtok str delim s = .ok (none, { s with sp := none })) ∨
    ∃ q s' p' u', strtok str delim s = .ok (some q, s') ∧ s'.sp = some p' ∧
      s'.heap.rest p' = u' ++ [0] ∧ 0 ∉ u' ∧ u'.length < u.length ∧
      inPlace delim u = s'.heap.rest q :: inPlace delim u' := by
  obtain ⟨start, hskip, hstart⟩ := skipDelims_spec h0 ((s.heap.rest p).length + 1) hp
    (by rw [hp, List.length_append]; omega)
  have hdrop : ∀ c ∈ u.dropWhile (· ∈ delim), c ∈ u := fun c hc => List.dropWhile_subset _ hc
  have hlen : (u.dropWhile (· ∈ delim)).length ≤ u.length := List.length_dropWhile_le ..
  rw [← inPlace_dropWhile u]
  cases hv : u.dropWhile (· ∈ delim) with
  | nil =>
    rw [hv] at hstart
    refine .inl ⟨rfl, ?_⟩
    simp only [strtok, if_neg hd, hsp, hskip, ok_bind, Heap.load_of_rest hstart]
    rfl
  | cons c v =>
    rw [hv] at hstart hdrop hlen
    have hc0 : c ≠ 0 := fun e => hu (e ▸ hdrop c (by simp))
    have hv0 : 0 ∉ c :: v := fun hm => hu (hdrop 0 hm)
    have hc : c ∉ delim := by
      have := List.head?_dropWhile_not (· ∈ delim) u
      rw [hv] at this
      simpa using this
    obtain ⟨p', h', hcut, hq', hp'⟩ := cutToken_spec (p := start) (t := [])
      (u := c :: v) ((s.heap.rest start).length + 1) hstart rfl hstart hv0
      (by rw [hstart, List.length_append]; omega)
    refine .inr ⟨start, ⟨h', some p'⟩, p', behind delim (c :: v), ?_, rfl, hp',
      fun hm => hv0 (mem_of_mem_behind hm), ?_, ?_⟩
    · simp only [strtok, if_neg hd, hsp, hskip, ok_bind, Heap.load_of_rest hstart, if_neg hc0, hcut]
      rfl
    · have hle : (behind delim v).length ≤ v.length := behind_length_le v
      rw [List.length_cons] at hlen
      rw [behind, if_neg hc]
      omega
    · rw [inPlace_cons hc, hq']
      rfl

end Strtok

end Levos.Lib
