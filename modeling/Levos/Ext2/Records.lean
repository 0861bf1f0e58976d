import Levos.Ext2.Division
import Levos.Framework.Scan

namespace Levos.Ext2

open Levos.Framework Levos.Lib

/-- A `struct ext2_dir` in a block. -/
structure Record where
  block : Buffer
  off : Nat

namespace Record

def inode (r : Record) : BitVec 32 :=
  r.block.byte (r.off + 3) ++ r.block.byte (r.off + 2) ++ r.block.byte (r.off + 1) ++ r.block.byte r.off

def size (r : Record) : BitVec 16 := r.block.byte (r.off + 4 + 1) ++ r.block.byte (r.off + 4)

def namelength (r : Record) : BitVec 8 := r.block.byte (r.off + 6)

def nameByte (r : Record) (j : Nat) : BitVec 8 := r.block.byte (r.off + 8 + j)

def name (r : Record) : List (BitVec 8) := r.block.bytes (r.off + 8) r.namelength.toNat

/-- `f` begins with the record's name. -/
def Begins (r : Record) (f : List (BitVec 8)) : Prop :=
  ∀ j < r.namelength.toNat, r.nameByte j = f.getD j 0

/-- The header of the record is inside its block, and so is its name up to the first byte that is not
that of `f`. -/
def Inside (r : Record) (f : List (BitVec 8)) : Prop :=
  r.off + 6 < r.block.size ∧ ∀ j < r.namelength.toNat, (∀ i < j, r.nameByte i = f.getD i 0) →
    r.off + 8 + j < r.block.size

instance (r : Record) (f : List (BitVec 8)) : Decidable (r.Begins f) :=
  inferInstanceAs (Decidable (∀ j < _, _))

instance (r : Record) (f : List (BitVec 8)) : Decidable (r.Inside f) :=
  inferInstanceAs (Decidable (_ ∧ ∀ j < _, _))

/-- A record is compared with `f`: its inode where `f` begins with its name. -/
def probe (f : List (BitVec 8)) (r : Record) : Except Fault (Option Int) := do
  let namelength ← r.block.load8 (r.off + 6)
  if (← strncmp (fun i => r.block.load8 (r.off + 8 + i)) (Ext2.nameByte f) namelength.toNat) = 0 then
    let k ← r.block.load32 r.off
    return some k.toInt
  else
    let _ ← r.block.load16 (r.off + 4)
    return none

end Record

/-- The records of a block from offset `off` on, each as far behind the last one as its size says. -/
def recordsFrom (bs : Nat) (b : Buffer) : Nat → Nat → List Record
  | 0, _ => []
  | fuel + 1, off =>
    if off < bs then
      let r : Record := ⟨b, off⟩
      r :: if r.size = 0 then [] else recordsFrom bs b fuel (off + r.size.toNat)
    else []

/-- A block as it is read. -/
def Volume.blockBuffer (v : Volume) (block : BitVec 32) : Buffer :=
  (Buffer.zero v.blocksize).filled 0 v.blocksize (v.blockByte block)

/-- The records of a block. -/
def Volume.recordsOf (v : Volume) (block : BitVec 32) : List Record :=
  recordsFrom v.blocksize (v.blockBuffer block) (v.blocksize + 1) 0

/-- The records that a lookup comes to, block by block, up to one whose first record has no size or no
name. -/
def Volume.candidatesFrom (v : Volume) (inode : Inode) : List Nat → List Record
  | [] => []
  | i :: is =>
    let first : Record := ⟨v.blockBuffer (inode.dbp i), 0⟩
    if first.size = 0 ∨ first.namelength = 0 then []
    else v.recordsOf (inode.dbp i) ++ v.candidatesFrom inode is

def Volume.candidates (v : Volume) (inode : Inode) : List Record :=
  v.candidatesFrom inode (List.range 12)

/-- What stands in memory from a name on: the name, its zero and what follows. -/
def memoryAt (name : CString) (behind : Nat → BitVec 8) : List (BitVec 8) :=
  name.bytes ++ 0 :: (List.range 255).map behind

section Compare

variable {α β : Nat → BitVec 8} {str1 str2 : Nat → Except Fault (BitVec 8)} {p : Nat → Prop} {e : Fault}
  {i n : Nat}

/-- A comparison that stays where its first string can be read tells whether the strings agree. -/
theorem strncmpFrom_ok (h1 : ∀ k, p k → str1 k = .ok (α k)) (h2 : ∀ k < i + n, str2 k = .ok (β k))
    (hp : ∀ j, i ≤ j → j < i + n → (∀ k, i ≤ k → k < j → α k = β k) → p j) :
    ∃ d, strncmpFrom str1 str2 i n = .ok d ∧ (d = 0 ↔ ∀ j, i ≤ j → j < i + n → α j = β j) := by
  induction n generalizing i with
  | zero => exact ⟨0, rfl, by simp only [true_iff]; omega⟩
  | succ n ih =>
    have hfirst : p i := hp i (Nat.le_refl i) (by omega) (by omega)
    rw [strncmpFrom, h1 i hfirst, ok_bind, h2 i (by omega), ok_bind]
    by_cases heq : α i = β i
    · have hsplit (j : Nat) (hj : i ≤ j) : j = i ∨ i + 1 ≤ j := by omega
      obtain ⟨d, hd, hiff⟩ := ih (i := i + 1) (fun k hk => h2 k (by omega)) (by
        intro j hj hjn hbefore
        apply hp j (by omega) (by omega)
        intro k hk hkj
        rcases hsplit k hk with rfl | hlater
        · exact heq
        · exact hbefore k hlater hkj)
      rw [if_neg (not_not.mpr heq)]
      refine ⟨d, hd, hiff.trans ?_⟩
      constructor
      · intro hall j hj hjn
        rcases hsplit j hj with rfl | hlater
        · exact heq
        · exact hall j hlater (by omega)
      · intro hall j hj hjn
        exact hall j (by omega) (by omega)
    · rw [if_pos heq]
      refine ⟨_, rfl, ?_⟩
      apply iff_of_false
      · intro hzero
        exact heq (BitVec.eq_of_toNat_eq (by omega))
      · intro hall
        exact heq (hall i (Nat.le_refl i) (by omega))

/-- A comparison whose strings agree up to where the first one cannot be read goes wrong there. -/
theorem strncmpFrom_error (h1 : ∀ k, p k → str1 k = .ok (α k)) (h1' : ∀ k, ¬p k → str1 k = .error e)
    (h2 : ∀ k < i + n, str2 k = .ok (β k)) {j : Nat} (hj : i ≤ j) (hjn : j < i + n)
    (hbefore : ∀ k, i ≤ k → k < j → α k = β k) (hp : ¬p j) :
    strncmpFrom str1 str2 i n = .error e := by
  induction n generalizing i with
  | zero => omega
  | succ n ih =>
    rw [strncmpFrom]
    by_cases hfirst : p i
    · have hne : i ≠ j := by
        intro heq
        exact hp (heq ▸ hfirst)
      rw [h1 i hfirst, ok_bind, h2 i (by omega), ok_bind,
        if_neg (not_not.mpr (hbefore i (Nat.le_refl i) (by omega)))]
      apply ih (fun k hk => h2 k (by omega)) (by omega) (by omega)
      intro k hk hkj
      exact hbefore k (by omega) hkj
    · rw [h1' i hfirst]
      rfl

end Compare

section Probe

variable {f : List (BitVec 8)} {r : Record}

theorem nameByte_ok {i : Nat} (h : i < f.length) : nameByte f i = .ok (f.getD i 0) := by
  rw [nameByte, List.getElem?_eq_getElem h, List.getD_eq_getElem?_getD, List.getElem?_eq_getElem h]
  rfl

/-- A record that lies inside its block is compared, any other one is read from outside. -/
theorem probe_eq (hf : 255 ≤ f.length) (r : Record) :
    r.probe f = if r.Inside f then .ok (if r.Begins f then some r.inode.toInt else none)
      else .error .outOfBounds := by
  have hn : r.namelength.toNat ≤ 255 := by
    have := r.namelength.isLt
    omega
  have h1 (k : Nat) (hk : r.off + 8 + k < r.block.size) :
      r.block.load8 (r.off + 8 + k) = .ok (r.nameByte k) := if_pos hk
  have h2 (k : Nat) (hk : k < 0 + r.namelength.toNat) : nameByte f k = .ok (f.getD k 0) :=
    nameByte_ok (by omega)
  by_cases hheader : r.off + 6 < r.block.size
  · have hlength : r.block.load8 (r.off + 6) = .ok r.namelength := if_pos hheader
    rw [Record.probe, hlength, ok_bind]
    by_cases hin : r.Inside f
    · obtain ⟨d, hd, hiff⟩ := strncmpFrom_ok (i := 0) h1 h2 (by
        intro j _ hj hbefore
        exact hin.2 j (by omega) fun i hi => hbefore i (Nat.zero_le i) hi)
      have hbegins : d = 0 ↔ r.Begins f := by simpa [Record.Begins] using hiff
      have hinode : r.block.load32 r.off = .ok r.inode := if_pos (by omega)
      have hsize : r.block.load16 (r.off + 4) = .ok r.size := if_pos (by omega)
      rw [strncmp, hd, ok_bind, if_pos hin]
      by_cases hd0 : d = 0
      · rw [if_pos hd0, if_pos (hbegins.mp hd0), hinode]
        rfl
      · rw [if_neg hd0, if_neg (fun hb => hd0 (hbegins.mpr hb)), hsize]
        rfl
    · rw [if_neg hin]
      have hout : ∃ j < r.namelength.toNat, (∀ i < j, r.nameByte i = f.getD i 0) ∧
          ¬r.off + 8 + j < r.block.size := by
        by_contra hno
        apply hin
        refine ⟨hheader, fun j hj hbefore => ?_⟩
        by_contra hlt
        exact hno ⟨j, hj, hbefore, hlt⟩
      obtain ⟨j, hj, hbefore, hlt⟩ := hout
      rw [strncmp, strncmpFrom_error (e := .outOfBounds) h1 (fun k hk => if_neg hk) h2 (Nat.zero_le j)
        (by omega) (fun k _ hk => hbefore k hk) hlt]
      rfl
  · rw [Record.probe, Buffer.load8, if_neg hheader, if_neg (fun hin => hheader hin.1)]
    rfl

end Probe

section Scan

variable {v : Volume} {inode : Inode} {f : List (BitVec 8)} {b : Buffer} {bs : Nat}

/-- The loop goes on behind a record that is passed. -/
theorem scanBlock_passed {fuel off : Nat} (hoff : off < bs) (h : (Record.mk b off).probe f = .ok none) :
    scanBlock bs b f (fuel + 1) off = if (Record.mk b off).size = 0 then .ok none
      else scanBlock bs b f fuel (off + (Record.mk b off).size.toNat) := by
  obtain ⟨n, hlength, h⟩ := bind_eq_ok.mp h
  obtain ⟨d, hcmp, h⟩ := bind_eq_ok.mp h
  by_cases hd : d = 0
  · rw [if_pos hd] at h
    obtain ⟨k, -, h⟩ := bind_eq_ok.mp h
    cases h
  · rw [if_neg hd] at h
    obtain ⟨size, hload, -⟩ := bind_eq_ok.mp h
    have hsize : size = (Record.mk b off).size := by
      rw [Buffer.load16] at hload
      split at hload
      · exact (Except.ok.inj hload).symm
      · cases hload
    -- a record without a name agrees with everything
    have hn : n ≠ 0 := by
      intro h0
      rw [h0] at hcmp
      exact hd (Except.ok.inj hcmp).symm
    rw [scanBlock, if_pos hoff, hlength, ok_bind, hcmp, ok_bind, if_neg hd, hload, ok_bind, hsize]
    simp only [hn, or_false]
    rfl

/-- It ends at any other one. -/
theorem scanBlock_stopped {fuel off : Nat} (hoff : off < bs) (h : (Record.mk b off).probe f ≠ .ok none) :
    scanBlock bs b f (fuel + 1) off = (Record.mk b off).probe f := by
  rw [Record.probe] at h ⊢
  rw [scanBlock, if_pos hoff]
  cases hlength : b.load8 (off + 6) with
  | error e => rfl
  | ok n =>
    rw [hlength, ok_bind] at h
    rw [ok_bind, ok_bind]
    cases hcmp : strncmp (fun i => b.load8 (off + 8 + i)) (nameByte f) n.toNat with
    | error e => rfl
    | ok d =>
      rw [hcmp, ok_bind] at h
      rw [ok_bind, ok_bind]
      by_cases hd : d = 0
      · rw [if_pos hd, if_pos hd]
      · rw [if_neg hd] at h ⊢
        rw [if_neg hd]
        cases hload : b.load16 (off + 4) with
        | error e => rfl
        | ok size =>
          rw [hload] at h
          exact absurd rfl h

/-- The loop over the records of a block looks for the first one that `f` begins with. It comes to an
end: each record is behind the last. -/
theorem scanBlock_eq (fuel off : Nat) (hfuel : bs - off < fuel) :
    scanBlock bs b f fuel off = (recordsFrom bs b fuel off).findSomeM? (Record.probe f) := by
  induction fuel generalizing off with
  | zero => omega
  | succ fuel ih =>
    rw [recordsFrom]
    by_cases hoff : off < bs
    · rw [if_pos hoff]
      by_cases hpassed : (Record.mk b off).probe f = .ok none
      · rw [scanBlock_passed hoff hpassed, findSomeM?_passed hpassed]
        by_cases hzero : (Record.mk b off).size = 0
        · rw [if_pos hzero, if_pos hzero]
          rfl
        · have hpos : (Record.mk b off).size.toNat ≠ 0 := fun h0 => hzero (BitVec.eq_of_toNat_eq h0)
          rw [if_neg hzero, if_neg hzero]
          exact ih _ (by omega)
      · rw [scanBlock_stopped hoff hpassed]
        exact (findSomeM?_stopped hpassed).symm
    · rw [scanBlock, if_neg hoff, if_neg hoff]
      rfl

/-- The loop over the blocks goes on with the next block's records. -/
theorem scanBlocks_eq (hbs : 1024 ≤ v.blocksize) (hspb : 512 * v.spb = v.blocksize)
    (stale : Nat → BitVec 8) (is : List Nat) :
    scanBlocks v inode f is ((Buffer.zero v.blocksize).filled 0 v.blocksize stale) =
      ((v.candidatesFrom inode is).findSomeM? (Record.probe f)).map (·.getD (-ENOENT)) := by
  induction is generalizing stale with
  | nil => rfl
  | cons i is ih =>
    let first : Record := ⟨v.blockBuffer (inode.dbp i), 0⟩
    have hread : readBlock v ((Buffer.zero v.blocksize).filled 0 v.blocksize stale) 0 (inode.dbp i) =
        .ok (v.blockBuffer (inode.dbp i)) := by
      rw [readBlock_ok hspb (by simp [Buffer.zero]), Buffer.filled_filled]
      rfl
    have hroom : 1024 ≤ (v.blockBuffer (inode.dbp i)).size := hbs
    have hsize : (v.blockBuffer (inode.dbp i)).load16 4 = .ok first.size := if_pos (by omega)
    have hlength : (v.blockBuffer (inode.dbp i)).load8 6 = .ok first.namelength := if_pos (by omega)
    rw [scanBlocks, hread, ok_bind, hsize, ok_bind, Volume.candidatesFrom]
    by_cases hs : first.size = 0
    · rw [if_pos hs, if_pos (.inl hs)]
      rfl
    · rw [if_neg hs, hlength, ok_bind]
      by_cases hl : first.namelength = 0
      · rw [if_pos hl, if_pos (.inr hl)]
        rfl
      · rw [if_neg hl, if_neg (by simp only [not_or]; exact ⟨hs, hl⟩), scanBlock_eq _ _ (by omega),
          ← Volume.recordsOf]
        cases hscan : (v.recordsOf (inode.dbp i)).findSomeM? (Record.probe f) with
        | error e =>
          rw [findSomeM?_append_stopped (by simp [hscan]), hscan]
          rfl
        | ok o =>
          cases o with
          | none =>
            rw [findSomeM?_append_none hscan]
            exact ih _
          | some k =>
            rw [findSomeM?_append_stopped (by simp [hscan]), hscan]
            rfl

/-- A lookup is a search among the records that it comes to. -/
theorem readDirectory_eq {dev : Device} {dino : Int} (hmount : mount dev = .ok (.ok v))
    (hinode : readInode v dino = .ok inode) :
    readDirectory v dino f =
      ((v.candidates inode).findSomeM? (Record.probe f)).map (·.getD (-ENOENT)) := by
  obtain ⟨hbs, -, hspb⟩ := mount_bounds hmount
  have hzero : Buffer.zero v.blocksize =
      (Buffer.zero v.blocksize).filled 0 v.blocksize fun _ => 0 := by
    simp [Buffer.filled, Buffer.zero]
  rw [readDirectory, hinode, ok_bind, if_neg (by decide : ¬(0x4000 : BitVec 16) = 0)]
  have htype : ¬inode.type &&& 0 ≠ 0 := not_not.mpr BitVec.and_zero
  rw [if_neg htype, hzero]
  exact scanBlocks_eq hbs hspb _ _

end Scan

end Levos.Ext2
