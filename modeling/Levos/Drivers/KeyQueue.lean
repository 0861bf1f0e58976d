import Levos.Drivers.Keyboard
import Levos.Framework.Fifo

namespace Levos.Drivers

open Levos.Framework

/-- What happens to the keyboard: an interrupt with a scan code and the character made of it, a call of
`keyboard_get_key` with its answer, a call of `kbd_read` with the bytes it stores. What stands behind
`keybuf` is not the driver's, and may change. -/
inductive KeyEvent
  | irq (code c : BitVec 8)
  | getKey (c : BitVec 8)
  | read (len : BitVec 32) (bytes : List (BitVec 8))
  | elsewhere

inductive KeyStep (behind : Nat → BitVec 32) : Keyboard → KeyEvent → Keyboard → Prop
  | irq (k : Keyboard) (code : BitVec 8) :
      KeyStep behind k (.irq code (accepts behind k code)) (kbdIrq behind k code)
  | getKey (k : Keyboard) : KeyStep behind k (.getKey (keyboardGetKey k).1) (keyboardGetKey k).2
  | read (k : Keyboard) (len : BitVec 32) :
      KeyStep behind k (.read len (kbdRead k len).2.1) (kbdRead k len).2.2
  | elsewhere (k : Keyboard) (keybuf : Nat → BitVec 8) (h : ∀ i < 256, keybuf i = k.keybuf i) :
      KeyStep behind k .elsewhere { k with keybuf := keybuf }

/-- The keys that wait. -/
def Keyboard.waiting (k : Keyboard) : List (BitVec 8) := (List.range k.keyLoc.toNat).map k.keybuf

/-- The keys as a queue; 0 is no key. -/
def keyFifo : Fifo Keyboard KeyEvent (BitVec 8) where
  content := Keyboard.waiting
  put
    | .irq _ c => if c = 0 then [] else [c]
    | _ => []
  take
    | .getKey c => if c = 0 then [] else [c]
    | .read _ bytes => bytes
    | _ => []

/-- Both counters are the number of keys that wait. -/
def Keyboard.Counted (k : Keyboard) : Prop :=
  k.keysAvail.toNat = k.keyLoc.toNat ∧ k.keyLoc.toNat ≤ 256

/-- `keybuf` was only accessed where it is. -/
def Keyboard.Inside (k : Keyboard) : Prop := ∀ i ∈ k.accessed, i < 256

/-- An interrupt that accepts a character finds fewer than 255 keys waiting. -/
def HasRoom (k : Keyboard) : KeyEvent → Prop
  | .irq _ c => c ≠ 0 → k.keyLoc.toNat < 255
  | _ => True

/-- No key is taken. -/
def TakesNone (k : Keyboard) : KeyEvent → Prop
  | .getKey _ => k.keyLoc = 0
  | .read len _ => k.keyLoc = 0 ∨ len = 0
  | _ => True

section Loop

variable (k : Keyboard) (n : Nat)

@[simp] theorem movedDown_keyLoc : (k.movedDown n).keyLoc = k.keyLoc := by
  induction n with
  | zero => rfl
  | succ n ih => simpa [Keyboard.movedDown, Keyboard.store, Keyboard.load] using ih

@[simp] theorem movedDown_keysAvail : (k.movedDown n).keysAvail = k.keysAvail := by
  induction n with
  | zero => rfl
  | succ n ih => simpa [Keyboard.movedDown, Keyboard.store, Keyboard.load] using ih

/-- The turns so far have moved their bytes down by one. -/
theorem movedDown_keybuf (i : Nat) :
    (k.movedDown n).keybuf i = if i < n then k.keybuf (i + 1) else k.keybuf i := by
  induction n generalizing i with
  | zero => simp [Keyboard.movedDown]
  | succ n ih =>
    have hlast : (k.movedDown n).keybuf (n + 1) = k.keybuf (n + 1) := by simp [ih]
    simp only [Keyboard.movedDown, Keyboard.store, Keyboard.load, hlast, ih]
    by_cases h : i = n
    · simp [h]
    · have hlt : i < n + 1 ↔ i < n := by omega
      simp [h, hlt]

theorem mem_movedDown {i : Nat} (h : i ∈ k.accessed) : i ∈ (k.movedDown n).accessed := by
  induction n with
  | zero => exact h
  | succ n ih => simp [Keyboard.movedDown, Keyboard.store, Keyboard.load, ih]

/-- The last turn so far has read the byte behind the one it stored. -/
theorem mem_movedDown_last : n + 1 ∈ (k.movedDown (n + 1)).accessed := by
  simp [Keyboard.movedDown, Keyboard.store, Keyboard.load]

end Loop

section Calls

variable {behind : Nat → BitVec 32} {k k' : Keyboard} {code : BitVec 8} {e : KeyEvent}

theorem keyboardGetKey_none (h : k.keyLoc = 0) : keyboardGetKey k = (0, k) := if_pos h

theorem toNat_keyLoc_pos (h : k.keyLoc ≠ 0) : 0 < k.keyLoc.toNat := by
  apply Nat.pos_of_ne_zero
  intro hzero
  exact h (BitVec.eq_of_toNat_eq hzero)

/-- A key that waits is taken from the front, and both counters go down. -/
theorem keyboardGetKey_some (h : k.keyLoc ≠ 0) (hc : k.Counted) :
    k.waiting = (keyboardGetKey k).1 :: (keyboardGetKey k).2.waiting ∧ (keyboardGetKey k).2.Counted ∧
      (keyboardGetKey k).2.keyLoc.toNat + 1 = k.keyLoc.toNat := by
  obtain ⟨havail, hmax⟩ := hc
  have hpos := toNat_keyLoc_pos h
  have hloc : (k.keyLoc - 1).toNat = k.keyLoc.toNat - 1 := by
    rw [BitVec.toNat_sub_of_le (by rw [BitVec.le_def]; exact hpos)]
    rfl
  have havail' : (k.keysAvail - 1).toNat = k.keysAvail.toNat - 1 := by
    rw [BitVec.toNat_sub_of_le (by rw [BitVec.le_def, havail]; exact hpos)]
    rfl
  simp only [keyboardGetKey, if_neg h, Keyboard.Counted, Keyboard.waiting, Keyboard.load,
    movedDown_keyLoc, movedDown_keysAvail, hloc, havail']
  refine ⟨?_, by omega, by omega⟩
  obtain ⟨n, hn⟩ := Nat.exists_eq_add_of_le' hpos
  rw [hn, List.range_succ_eq_map, List.map_cons, List.map_map, Nat.add_sub_cancel]
  apply congrArg (List.cons _)
  apply List.map_congr_left
  intro i hi
  have hlt : i < 256 := by
    have := List.mem_range.mp hi
    omega
  simp [movedDown_keybuf, hlt]

theorem mem_keyboardGetKey {i : Nat} (h : i ∈ k.accessed) : i ∈ (keyboardGetKey k).2.accessed := by
  by_cases hloc : k.keyLoc = 0
  · rwa [keyboardGetKey_none hloc]
  · simp only [keyboardGetKey, if_neg hloc]
    apply mem_movedDown
    simp [Keyboard.load, h]

/-- To take a key is to read the byte behind the buffer. -/
theorem mem_keyboardGetKey_behind (h : k.keyLoc ≠ 0) : 256 ∈ (keyboardGetKey k).2.accessed := by
  simp only [keyboardGetKey, if_neg h]
  exact mem_movedDown_last _ 255

theorem mem_readKeys {i n : Nat} (h : i ∈ k.accessed) : i ∈ (readKeys n k).2.accessed := by
  induction n generalizing k with
  | zero => exact h
  | succ n ih => exact ih (mem_keyboardGetKey h)

/-- A read of keys that wait takes them from the front. -/
theorem readKeys_some {n : Nat} (h : n ≤ k.keyLoc.toNat) (hc : k.Counted) :
    k.waiting = (readKeys n k).1 ++ (readKeys n k).2.waiting ∧ (readKeys n k).2.Counted := by
  induction n generalizing k with
  | zero => exact ⟨rfl, hc⟩
  | succ n ih =>
    have hloc : k.keyLoc ≠ 0 := by
      intro hzero
      rw [hzero] at h
      exact absurd h (Nat.not_succ_le_zero n)
    obtain ⟨hfront, hcounted, hloc'⟩ := keyboardGetKey_some hloc hc
    obtain ⟨hrest, hcounted'⟩ := ih (by omega) hcounted
    refine ⟨?_, hcounted'⟩
    rw [hfront, hrest]
    rfl

/-- The codes change what is known of the other keys, and nothing else. -/
theorem parseKeycode_keeps (behind : Nat → BitVec 32) (k : Keyboard) (code : BitVec 8) :
    let k' := (parseKeycode behind k code).2
    k'.keybuf = k.keybuf ∧ k'.accessed = k.accessed ∧ k'.keyLoc = k.keyLoc ∧
      k'.keysAvail = k.keysAvail := by
  simp only [parseKeycode]
  split_ifs
  all_goals exact ⟨rfl, rfl, rfl, rfl⟩

theorem kbdIrq_none (h : accepts behind k code = 0) :
    (kbdIrq behind k code).waiting = k.waiting ∧ ((kbdIrq behind k code).Counted ↔ k.Counted) ∧
      (kbdIrq behind k code).accessed = k.accessed := by
  obtain ⟨hbuf, haccessed, hloc, havail⟩ := parseKeycode_keeps behind k code
  simp only [kbdIrq, if_pos h, Keyboard.waiting, Keyboard.Counted, hbuf, haccessed, hloc, havail]
  simp

/-- A key that is accepted goes behind the others. -/
theorem kbdIrq_some (h : accepts behind k code ≠ 0) (hc : k.Counted) :
    (kbdIrq behind k code).waiting = k.waiting ++ [accepts behind k code] ∧
      ((kbdIrq behind k code).Counted ↔ k.keyLoc.toNat < 255) ∧
      (kbdIrq behind k code).accessed = k.accessed ++ [k.keyLoc.toNat] := by
  obtain ⟨hbuf, haccessed, hloc, havail⟩ := parseKeycode_keeps behind k code
  obtain ⟨heq, hmax⟩ := hc
  have hloc' : (k.keyLoc + 1).toNat = k.keyLoc.toNat + 1 := by
    rw [BitVec.toNat_add]
    exact Nat.mod_eq_of_lt (Nat.lt_of_le_of_lt (Nat.add_le_add_right hmax 1) (by decide))
  have havail' : (k.keysAvail + 1).toNat = (k.keyLoc.toNat + 1) % 256 := by
    rw [BitVec.toNat_add, heq]
    rfl
  have hlt := k.keysAvail.isLt
  simp only [kbdIrq, if_neg h, Keyboard.waiting, Keyboard.Counted, Keyboard.store, hbuf, haccessed, hloc,
    havail, hloc', havail']
  refine ⟨?_, by omega, trivial⟩
  rw [List.range_succ, List.map_append]
  congr 1
  · apply List.map_congr_left
    intro i hi
    rw [if_neg (Nat.ne_of_lt (List.mem_range.mp hi))]
  · simp

end Calls

section Steps

variable {behind : Nat → BitVec 32} {k k' : Keyboard} {e : KeyEvent}

/-- A read takes as many keys as it is asked for, or all of them. -/
theorem kbdRead_le (hc : k.Counted) (len : BitVec 32) :
    ∃ n, n ≤ k.keyLoc.toNat ∧ (kbdRead k len).2 = readKeys n k ∧
      (n = 0 ↔ k.keyLoc = 0 ∨ len = 0) := by
  refine ⟨if k.keysAvail.toNat < len.toNat then k.keysAvail.toNat else len.toNat, ?_, rfl, ?_⟩
  · have := hc.1
    split_ifs <;> omega
  · rw [← BitVec.toNat_inj, ← BitVec.toNat_inj, hc.1, BitVec.ofNat_eq_ofNat, BitVec.toNat_zero,
      BitVec.ofNat_eq_ofNat, BitVec.toNat_zero]
    split_ifs <;> omega

theorem KeyStep.counted_iff (h : KeyStep behind k e k') (hc : k.Counted) : k'.Counted ↔ HasRoom k e := by
  cases h with
  | irq code =>
    by_cases hacc : accepts behind k code = 0
    · simp [HasRoom, hacc, (kbdIrq_none hacc).2.1, hc]
    · rw [(kbdIrq_some hacc hc).2.1]
      exact ⟨fun hroom _ => hroom, fun hroom => hroom hacc⟩
  | getKey =>
    simp only [HasRoom, iff_true]
    by_cases hloc : k.keyLoc = 0
    · rwa [keyboardGetKey_none hloc]
    · exact (keyboardGetKey_some hloc hc).2.1
  | read len =>
    obtain ⟨n, hle, hread, -⟩ := kbdRead_le hc len
    simp only [HasRoom, iff_true, hread]
    exact (readKeys_some hle hc).2
  | elsewhere m hm => exact iff_of_true hc trivial

theorem KeyStep.keeps (h : KeyStep behind k e k') (hc : k.Counted) (hkeys : ∀ c ∈ k.waiting, c ≠ 0) :
    keyFifo.Keeps k e k' := by
  cases h with
  | irq code =>
    by_cases hacc : accepts behind k code = 0
    · simp [Fifo.Keeps, keyFifo, hacc, (kbdIrq_none hacc).1]
    · simp only [Fifo.Keeps, keyFifo, if_neg hacc, (kbdIrq_some hacc hc).1, List.nil_append]
  | getKey =>
    by_cases hloc : k.keyLoc = 0
    · simp [Fifo.Keeps, keyFifo, keyboardGetKey_none hloc]
    · have hfront := (keyboardGetKey_some hloc hc).1
      have hkey : (keyboardGetKey k).1 ≠ 0 := hkeys _ (by rw [hfront]; exact List.mem_cons_self)
      simp only [Fifo.Keeps, keyFifo, if_neg hkey, hfront, List.append_nil, List.singleton_append]
  | read len =>
    obtain ⟨n, hle, hread, -⟩ := kbdRead_le hc len
    simp [Fifo.Keeps, keyFifo, hread, ← (readKeys_some hle hc).1]
  | elsewhere m hm =>
    simp only [Fifo.Keeps, keyFifo, Keyboard.waiting, List.append_nil, List.nil_append]
    apply List.map_congr_left
    intro i hi
    exact (hm i (Nat.lt_of_lt_of_le (List.mem_range.mp hi) hc.2)).symm

theorem KeyStep.inside_iff (h : KeyStep behind k e k') (hc : k.Counted) (hroom : HasRoom k e)
    (hin : k.Inside) : k'.Inside ↔ TakesNone k e := by
  cases h with
  | irq code =>
    simp only [TakesNone, iff_true]
    by_cases hacc : accepts behind k code = 0
    · rwa [Keyboard.Inside, (kbdIrq_none hacc).2.2]
    · rw [Keyboard.Inside, (kbdIrq_some hacc hc).2.2]
      intro i hi
      rcases List.mem_append.mp hi with hold | hnew
      · exact hin i hold
      · rw [List.mem_singleton.mp hnew]
        exact Nat.lt_of_lt_of_le (hroom hacc) (by decide)
  | getKey =>
    constructor
    · intro hin'
      by_contra hloc
      exact absurd (hin' _ (mem_keyboardGetKey_behind hloc)) (Nat.lt_irrefl _)
    · intro hloc
      rwa [keyboardGetKey_none hloc]
  | read len =>
    obtain ⟨n, hle, hread, hzero⟩ := kbdRead_le hc len
    simp only [TakesNone, hread, ← hzero]
    cases n with
    | zero => exact iff_of_true hin rfl
    | succ n =>
      have hloc : k.keyLoc ≠ 0 := by
        intro h0
        exact absurd (hzero.mpr (.inl h0)) (Nat.succ_ne_zero n)
      apply iff_of_false
      · intro hin'
        have hread : 256 ∈ (readKeys (n + 1) k).2.accessed :=
          mem_readKeys (k := (keyboardGetKey k).2) (mem_keyboardGetKey_behind hloc)
        exact absurd (hin' _ hread) (Nat.lt_irrefl _)
      · exact Nat.succ_ne_zero n
  | elsewhere m hm => exact iff_of_true hin trivial

end Steps

section Runs

variable (behind : Nat → BitVec 32) (keybuf : Nat → BitVec 8) (events : List KeyEvent)

/-- What is accepted is a key, and so is what waits. -/
theorem waiting_ne_zero {pre : List KeyEvent} {t : Keyboard}
    (h : keyFifo.InOrder (.fresh keybuf) pre t) : ∀ c ∈ t.waiting, c ≠ 0 := by
  intro c hc
  have hput : c ∈ pre.flatMap keyFifo.put := by
    have hmem : c ∈ pre.flatMap keyFifo.take ++ keyFifo.content t := List.mem_append_right _ hc
    rw [← h] at hmem
    simpa [keyFifo, Keyboard.waiting, Keyboard.fresh] using hmem
  obtain ⟨e, -, hmem⟩ := List.mem_flatMap.mp hput
  cases e with
  | irq code c' =>
    simp only [keyFifo] at hmem
    split_ifs at hmem with h0
    · cases hmem
    · rwa [List.mem_singleton.mp hmem]
  | getKey c' => cases hmem
  | read len bytes => cases hmem
  | elsewhere => cases hmem

/-- The keys come out in order, each once, and are counted right, exactly as long as an interrupt finds
fewer than 255 of them waiting. -/
theorem keys_inOrder_iff :
    AtEveryPoint (KeyStep behind) (.fresh keybuf) events (fun pre t =>
      t.Counted ∧ keyFifo.InOrder (.fresh keybuf) pre t) ↔
    EachStep (KeyStep behind) (.fresh keybuf) events fun t e _ => HasRoom t e := by
  apply atEveryPoint_iff
  · exact ⟨⟨rfl, Nat.zero_le _⟩, .nil _⟩
  · intro pre e t t' hbefore hstep
    obtain ⟨hc, horder⟩ := hbefore
    have hkeeps := hstep.keeps hc (waiting_ne_zero keybuf horder)
    simp [hstep.counted_iff hc, horder.snoc_iff, hkeeps]

/-- The counters agree, `keybuf` is accessed where it is and the keys come out in order exactly as long
as no key is taken and an interrupt finds fewer than 255 of them waiting. -/
theorem keyboard_queue_iff :
    AtEveryPoint (KeyStep behind) (.fresh keybuf) events (fun pre t =>
      t.Counted ∧ t.Inside ∧ keyFifo.InOrder (.fresh keybuf) pre t) ↔
    EachStep (KeyStep behind) (.fresh keybuf) events fun t e _ => HasRoom t e ∧ TakesNone t e := by
  apply atEveryPoint_iff
  · exact ⟨⟨rfl, Nat.zero_le _⟩, by simp [Keyboard.Inside, Keyboard.fresh], .nil _⟩
  · intro pre e t t' hbefore hstep
    obtain ⟨hc, hin, horder⟩ := hbefore
    have hkeeps := hstep.keeps hc (waiting_ne_zero keybuf horder)
    rw [hstep.counted_iff hc, horder.snoc_iff, and_iff_left hkeeps]
    exact and_congr_right fun hroom => hstep.inside_iff hc hroom hin

end Runs

/-- A key is typed and read: the byte behind `keybuf` is read as well. -/
theorem key_read_outside :
    ∃ events t, Run (KeyStep fun _ => 0) (.fresh fun _ => 0) events t ∧
      events = [.irq 0x1E 0x61, .read 1 [0x61]] ∧
      ¬AtEveryPoint (KeyStep fun _ => 0) (.fresh fun _ => 0) events (fun pre t =>
        t.Counted ∧ t.Inside ∧ keyFifo.InOrder (.fresh fun _ => 0) pre t) := by
  let typed := kbdIrq (fun _ => 0) (.fresh fun _ => 0) 0x1E
  have htype : KeyStep (fun _ => 0) (.fresh fun _ => 0) (.irq 0x1E 0x61) typed :=
    .irq (.fresh fun _ => 0) 0x1E
  have hread : KeyStep (fun _ => 0) typed (.read 1 [0x61]) (kbdRead typed 1).2.2 :=
    .read typed 1
  have hrun := Run.cons htype (.single hread)
  refine ⟨_, _, hrun, rfl, ?_⟩
  intro hall
  have hinside := (hall _ [] _ (by simp) hrun).2.1
  have hmem : 256 ∈ (kbdRead typed 1).2.2.accessed := mem_keyboardGetKey_behind (k := typed) (by decide)
  exact absurd (hinside 256 hmem) (Nat.lt_irrefl _)

end Levos.Drivers
