import Levos.Ext2.Records
import Mathlib.Data.List.Basic

namespace Levos.Ext2

open Levos.Framework Levos.Lib

/-- A lookup comes to a record: it passes all those before it. -/
def Volume.Comes (v : Volume) (inode : Inode) (f : List (BitVec 8)) (r : Record) : Prop :=
  ∃ pre post, v.candidates inode = pre ++ r :: post ∧ ∀ x ∈ pre, x.Inside f ∧ ¬x.Begins f

/-- The first record with a name that `f` begins with has inode number `k`. -/
def Volume.Hits (v : Volume) (inode : Inode) (f : List (BitVec 8)) (k : Int) : Prop :=
  ∃ r, v.Comes inode f r ∧ r.Inside f ∧ r.Begins f ∧ r.inode.toInt = k

/-- There is no such record. -/
def Volume.Misses (v : Volume) (inode : Inode) (f : List (BitVec 8)) : Prop :=
  ∀ r ∈ v.candidates inode, r.Inside f ∧ ¬r.Begins f

def isDirectory (inode : Inode) : Prop := inode.type &&& 0xF000 = 0x4000

instance (inode : Inode) : Decidable (isDirectory inode) := inferInstanceAs (Decidable (_ = _))

def Volume.dataBlocks (v : Volume) (inode : Inode) : Nat :=
  (inode.size.toNat + v.blocksize - 1) / v.blocksize

/-- The records in the direct blocks of a directory. -/
def Volume.entries (v : Volume) (inode : Inode) : List Record :=
  (List.range (min 12 (v.dataBlocks inode))).flatMap fun i => v.recordsOf (inode.dbp i)

/-- A live entry with this name. -/
def Record.Names (name : CString) (r : Record) : Prop := r.inode ≠ 0 ∧ r.name = name.bytes

/-- What a lookup should answer. The records that a directory has behind its direct blocks are `far`. -/
def Answers (v : Volume) (inode : Inode) (far : List Record) (name : CString)
    (answer : Except Fault Int) : Prop :=
  if isDirectory inode then
    ((∃ e ∈ v.entries inode, e.Names name) → v.dataBlocks inode ≤ 12 →
      ∃ e ∈ v.entries inode, e.Names name ∧ answer = .ok e.inode.toInt) ∧
    ((∀ e ∈ v.entries inode ++ far, ¬e.Names name) → answer = .ok (-ENOENT))
  else answer = .ok (-ENOTDIR)

/-- The first record with a name that `f` begins with is the entry, or there is none. A record that has
an error for its number is as good as none; and for an inode that is no directory, it has to have one. -/
def Leads (v : Volume) (inode : Inode) (far : List Record) (name : CString) (f : List (BitVec 8)) : Prop :=
  if isDirectory inode then
    ((∃ e ∈ v.entries inode, e.Names name) → v.dataBlocks inode ≤ 12 →
      ∃ e ∈ v.entries inode, e.Names name ∧ v.Hits inode f e.inode.toInt) ∧
    ((∀ e ∈ v.entries inode ++ far, ¬e.Names name) → v.Misses inode f ∨ v.Hits inode f (-ENOENT))
  else v.Hits inode f (-ENOTDIR)

/-- The record has room for its name, and ends in its block. -/
def Record.Tiles (r : Record) : Prop :=
  8 + r.namelength.toNat ≤ r.size.toNat ∧ r.off + r.size.toNat ≤ r.block.size

section Probe

variable {f : List (BitVec 8)} {r : Record} {k : Int}

theorem length_memoryAt (name : CString) (behind : Nat → BitVec 8) :
    255 ≤ (memoryAt name behind).length := by
  simp only [memoryAt, List.length_append, List.length_cons, List.length_map, List.length_range]
  omega

theorem probe_none_iff (hf : 255 ≤ f.length) : r.probe f = .ok none ↔ r.Inside f ∧ ¬r.Begins f := by
  rw [probe_eq hf]
  by_cases hin : r.Inside f <;> by_cases hb : r.Begins f <;> simp [hin, hb]

theorem probe_some_iff (hf : 255 ≤ f.length) :
    r.probe f = .ok (some k) ↔ r.Inside f ∧ r.Begins f ∧ r.inode.toInt = k := by
  rw [probe_eq hf]
  by_cases hin : r.Inside f <;> by_cases hb : r.Begins f <;> simp [hin, hb]

theorem probe_ok_iff (hf : 255 ≤ f.length) : (∃ o, r.probe f = .ok o) ↔ r.Inside f := by
  rw [probe_eq hf]
  by_cases hin : r.Inside f <;> simp [hin]

theorem Record.Tiles.inside (h : r.Tiles) (f : List (BitVec 8)) : r.Inside f := by
  obtain ⟨hroom, hend⟩ := h
  exact ⟨by omega, fun j hj _ => by omega⟩

/-- A record without a name is found under every name. -/
theorem begins_unnamed (h : r.namelength = 0) (f : List (BitVec 8)) : r.Begins f := by
  intro j hj
  rw [h] at hj
  exact absurd hj (Nat.not_lt_zero j)

/-- A name without zeros is found under every name that it is the beginning of. -/
theorem begins_iff_prefix {name : CString} {behind : Nat → BitVec 8} (h : 0 ∉ r.name) :
    r.Begins (memoryAt name behind) ↔ r.name <+: name.bytes := by
  have hname (i : Nat) (hi : i < r.namelength.toNat) : r.name[i]? = some (r.nameByte i) := by
    rw [Record.name, Buffer.getElem?_bytes, if_pos hi]
    rfl
  have hlength : r.name.length = r.namelength.toNat := Buffer.length_bytes ..
  have hinside (i : Nat) (hi : i < name.bytes.length) :
      name.bytes[i]? = some ((memoryAt name behind).getD i 0) := by
    rw [memoryAt, List.getD_eq_getElem?_getD, List.getElem?_append_left hi, List.getElem?_eq_getElem hi]
    rfl
  constructor
  · intro hb
    have hle : r.namelength.toNat ≤ name.bytes.length := by
      by_contra hlong
      have hzero : r.nameByte name.bytes.length = 0 := by
        rw [hb _ (by omega), memoryAt, List.getD_eq_getElem?_getD,
          List.getElem?_append_right (Nat.le_refl _)]
        simp
      exact h (List.mem_of_getElem? ((hname _ (by omega)).trans (congrArg some hzero)))
    rw [List.prefix_iff_getElem?]
    intro i hi
    rw [hinside i (by omega), ← hb i (by omega), ← hname i (by omega)]
    exact List.getElem?_eq_getElem hi
  · intro hprefix j hj
    have hjname : j < r.name.length := by omega
    have hjbytes : j < name.bytes.length := Nat.lt_of_lt_of_le hjname hprefix.length_le
    have hat := List.prefix_iff_getElem?.mp hprefix j hjname
    rw [hinside j hjbytes, ← List.getElem?_eq_getElem hjname, hname j hj] at hat
    exact (Option.some.inj hat).symm

end Probe

section Lookup

variable {dev : Device} {v : Volume} {inode : Inode} {dino : Int} {f : List (BitVec 8)}

theorem readDirectory_some (hmount : mount dev = .ok (.ok v)) (hinode : readInode v dino = .ok inode)
    (hf : 255 ≤ f.length) (k : Int) :
    readDirectory v dino f = .ok k ↔ v.Hits inode f k ∨ v.Misses inode f ∧ k = -ENOENT := by
  rw [readDirectory_eq hmount hinode]
  have hhits : (v.candidates inode).findSomeM? (Record.probe f) = .ok (some k) ↔ v.Hits inode f k := by
    simp only [findSomeM?_eq_some, probe_none_iff hf, probe_some_iff hf, Volume.Hits, Volume.Comes]
    constructor
    · rintro ⟨pre, r, post, hsplit, hpre, hr⟩
      exact ⟨r, ⟨pre, post, hsplit, hpre⟩, hr⟩
    · rintro ⟨r, ⟨pre, post, hsplit, hpre⟩, hr⟩
      exact ⟨pre, r, post, hsplit, hpre, hr⟩
  have hmisses : (v.candidates inode).findSomeM? (Record.probe f) = .ok none ↔ v.Misses inode f := by
    simp only [findSomeM?_eq_none, probe_none_iff hf, Volume.Misses]
  rw [← hhits, ← hmisses]
  cases hscan : (v.candidates inode).findSomeM? (Record.probe f) with
  | error e => simp [Except.map]
  | ok o => cases o <;> simp [Except.map, eq_comm]

/-- A lookup answers right exactly when the first record that it finds is the right one. No inode has the
number that -ENOENT is. -/
theorem readDirectory_right_iff (hmount : mount dev = .ok (.ok v))
    (hinode : readInode v dino = .ok inode) (hnumbers : ∀ e ∈ v.entries inode, e.inode ≠ 0xFFFFFFFE)
    (far : List Record) (name : CString) (behind : Nat → BitVec 8) :
    Answers v inode far name (readDirectory v dino (memoryAt name behind)) ↔
      Leads v inode far name (memoryAt name behind) := by
  have hanswer := readDirectory_some hmount hinode (length_memoryAt name behind)
  have hentry (e : Record) (he : e ∈ v.entries inode) :
      readDirectory v dino (memoryAt name behind) = .ok e.inode.toInt ↔
        v.Hits inode (memoryAt name behind) e.inode.toInt := by
    have hne : e.inode.toInt ≠ -ENOENT := by
      intro heq
      exact hnumbers e he (BitVec.eq_of_toInt_eq heq)
    simp [hanswer, hne]
  have hnotdir : readDirectory v dino (memoryAt name behind) = .ok (-ENOTDIR) ↔
      v.Hits inode (memoryAt name behind) (-ENOTDIR) := by
    simp [hanswer, ENOTDIR, ENOENT]
  have hnone : readDirectory v dino (memoryAt name behind) = .ok (-ENOENT) ↔
      v.Misses inode (memoryAt name behind) ∨ v.Hits inode (memoryAt name behind) (-ENOENT) := by
    simp [hanswer, or_comm]
  rw [Answers, Leads, hnotdir, hnone]
  split
  · apply and_congr_left
    intro _
    apply imp_congr_right
    intro _
    apply imp_congr_right
    intro _
    constructor
    · rintro ⟨e, he, hnames, hread⟩
      exact ⟨e, he, hnames, (hentry e he).mp hread⟩
    · rintro ⟨e, he, hnames, hhits⟩
      exact ⟨e, he, hnames, (hentry e he).mpr hhits⟩
  · exact Iff.rfl

theorem readDirectory_ok_iff (hmount : mount dev = .ok (.ok v)) (hinode : readInode v dino = .ok inode) :
    (∃ k, readDirectory v dino f = .ok k) ↔ ∃ o, (v.candidates inode).findSomeM? (Record.probe f) = .ok o := by
  rw [readDirectory_eq hmount hinode]
  cases (v.candidates inode).findSomeM? (Record.probe f) <;> simp [Except.map]

/-- A lookup comes to an end and reads inside its buffer exactly when every record that it comes to lies
inside its block. -/
theorem readDirectory_inside_iff (hmount : mount dev = .ok (.ok v))
    (hinode : readInode v dino = .ok inode) (name : CString) (behind : Nat → BitVec 8) :
    (∃ k, readDirectory v dino (memoryAt name behind) = .ok k) ↔
      ∀ r, v.Comes inode (memoryAt name behind) r → r.Inside (memoryAt name behind) := by
  have hf := length_memoryAt name behind
  rw [readDirectory_ok_iff hmount hinode, findSomeM?_ok_iff]
  simp only [probe_none_iff hf, probe_ok_iff hf, Volume.Comes]
  constructor
  · rintro h r ⟨pre, post, hsplit, hpre⟩
    exact h pre r post hsplit hpre
  · intro h pre r post hsplit hpre
    exact h r ⟨pre, post, hsplit, hpre⟩

/-- Where records tile the blocks that are scanned, no lookup reads outside. -/
theorem readDirectory_tiled (hmount : mount dev = .ok (.ok v)) (hinode : readInode v dino = .ok inode)
    (htiled : ∀ r ∈ v.candidates inode, r.Tiles) (name : CString) (behind : Nat → BitVec 8) :
    ∃ k, readDirectory v dino (memoryAt name behind) = .ok k := by
  rw [readDirectory_ok_iff hmount hinode, findSomeM?_ok_iff]
  intro pre r post hsplit _
  have hmem : r ∈ v.candidates inode := by
    rw [hsplit]
    exact List.mem_append_right _ List.mem_cons_self
  exact (probe_ok_iff (length_memoryAt name behind)).mpr ((htiled r hmem).inside _)

end Lookup

/-- A device whose root directory holds `x` as inode 3, with this size for its record. -/
def recordDevice (size : BitVec 16) : Device := deviceOf ([
  (2 * 1024 + 8, 3),                                                -- the inode table
  (3 * 1024 + 129, 0x41), (3 * 1024 + 133, 4), (3 * 1024 + 168, 4),  -- type, size and block of the root
  (4 * 1024, 3), (4 * 1024 + 4, size.setWidth 8), (4 * 1024 + 5, (size >>> 8).setWidth 8),
  (4 * 1024 + 6, 1), (4 * 1024 + 8, 0x78), (1024 + 20, 1), (1024 + 40, 8)] ++ signature)

def recordVolume (size : BitVec 16) : Volume := { blank with disk := (recordDevice size).sectors }

/-- The record of `x`. -/
def recordX (size : BitVec 16) : Record := ⟨(recordVolume size).blockBuffer 4, 0⟩

def nameX : CString := ⟨[0x78], by decide⟩

def nameXY : CString := ⟨[0x78, 0x79], by decide⟩

def nameY : CString := ⟨[0x79], by decide⟩

theorem recordDevice_root :
    ∃ inode, mount (recordDevice 1024) = .ok (.ok (recordVolume 1024)) ∧
      readInode (recordVolume 1024) 2 = .ok inode ∧ isDirectory inode ∧
      (recordVolume 1024).entries inode = [recordX 1024] ∧
      (recordVolume 1024).candidates inode = [recordX 1024] :=
  ⟨_, rfl, rfl, rfl, rfl, rfl⟩

/-- The entry `x` is found. -/
theorem readDirectory_x :
    ∃ inode, readInode (recordVolume 1024) 2 = .ok inode ∧
      Answers (recordVolume 1024) inode [] nameX
        (readDirectory (recordVolume 1024) 2 (memoryAt nameX fun _ => 0)) := by
  obtain ⟨inode, hmount, hinode, hdir, hentries, hcandidates⟩ := recordDevice_root
  refine ⟨inode, hinode, (readDirectory_right_iff hmount hinode ?_ [] nameX fun _ => 0).mpr ?_⟩
  · rw [hentries]
    decide +kernel
  · have hmem : recordX 1024 ∈ (recordVolume 1024).entries inode := by
      rw [hentries]
      exact List.mem_singleton_self _
    have hnames : (recordX 1024).Names nameX := ⟨by decide +kernel, by decide +kernel⟩
    rw [Leads, if_pos hdir]
    constructor
    · intro _ _
      refine ⟨recordX 1024, hmem, hnames, recordX 1024, ?_, by decide +kernel, by decide +kernel, rfl⟩
      exact ⟨[], [], hcandidates, by simp⟩
    · intro hnone
      exact absurd hnames (hnone _ (List.mem_append_left _ hmem))

/-- `xy` is found as well, though there is only `x`. -/
theorem readDirectory_xy :
    ∃ inode, mount (recordDevice 1024) = .ok (.ok (recordVolume 1024)) ∧
      readInode (recordVolume 1024) 2 = .ok inode ∧
      (∀ e ∈ (recordVolume 1024).entries inode, e.inode ≠ 0xFFFFFFFE) ∧
      ¬Answers (recordVolume 1024) inode [] nameXY
        (readDirectory (recordVolume 1024) 2 (memoryAt nameXY fun _ => 0)) := by
  obtain ⟨inode, hmount, hinode, hdir, hentries, -⟩ := recordDevice_root
  refine ⟨inode, hmount, hinode, ?_, ?_⟩
  · rw [hentries]
    decide +kernel
  · rw [Answers, if_pos hdir, hentries]
    intro hanswers
    have hnone : readDirectory (recordVolume 1024) 2 (memoryAt nameXY fun _ => 0) = .ok (-ENOENT) := by
      apply hanswers.2
      intro e he hnames
      rw [List.append_nil, List.mem_singleton] at he
      rw [he] at hnames
      exact absurd hnames.2 (by decide +kernel)
    have hread : readDirectory (recordVolume 1024) 2 (memoryAt nameXY fun _ => 0) = .ok 3 := rfl
    rw [hread] at hnone
    exact absurd hnone (by decide)

/-- The scan of a well-formed block stays inside. -/
theorem readDirectory_inside_x :
    ∃ k, readDirectory (recordVolume 1024) 2 (memoryAt nameX fun _ => 0) = .ok k := by
  obtain ⟨inode, hmount, hinode, -, -, hcandidates⟩ := recordDevice_root
  apply (readDirectory_inside_iff hmount hinode nameX fun _ => 0).mpr
  rintro r ⟨pre, post, hsplit, -⟩
  have hmem : r ∈ [recordX 1024] := by
    rw [← hcandidates, hsplit]
    simp
  rw [List.mem_singleton.mp hmem]
  decide +kernel

/-- A record that ends four bytes before its block does is followed by one that is read from outside. -/
theorem readDirectory_outside :
    ∃ inode, mount (recordDevice 1020) = .ok (.ok (recordVolume 1020)) ∧
      readInode (recordVolume 1020) 2 = .ok inode ∧
      ¬∃ k, readDirectory (recordVolume 1020) 2 (memoryAt nameY fun _ => 0) = .ok k := by
  have hfault : readDirectory (recordVolume 1020) 2 (memoryAt nameY fun _ => 0) =
      .error .outOfBounds := rfl
  refine ⟨_, rfl, rfl, ?_⟩
  rw [hfault]
  rintro ⟨k, h⟩
  cases h

end Levos.Ext2
