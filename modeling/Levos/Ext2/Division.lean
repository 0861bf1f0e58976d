import Levos.Ext2.Super

namespace Levos.Ext2

open Levos.Framework Levos.Lib

/-- A division by zero, or a shift by the width of the word or more. -/
def Undefined (e : Fault) : Prop := e = .divideByZero ∨ e = .shiftTooFar

theorem defined_outOfBounds : ¬Undefined .outOfBounds := by
  rintro (h | h) <;> cases h

theorem defined_uninitialised : ¬Undefined .uninitialised := by
  rintro (h | h) <;> cases h

theorem defined_diverges : ¬Undefined .diverges := by
  rintro (h | h) <;> cases h

/-- A volume whose divisors are not zero. -/
structure Divisible (v : Volume) : Prop where
  blocksize : v.blocksize ≠ 0
  inodesPerBlock : v.inodesPerBlock ≠ 0
  inodesInBlockgroup : v.inodesInBlockgroup ≠ 0

section Inode

variable {v : Volume}

theorem readBlock_defined (buf : Buffer) (off : Nat) (block : BitVec 32) :
    Avoids Undefined (readBlock v buf off block) := Buffer.avoids_fill defined_outOfBounds _ _ _ _

theorem inodeRead_defined (b : Buffer) (off : Nat) : Avoids Undefined (Inode.read b off) := by
  have h16 (i : Nat) := b.avoids_load16 defined_outOfBounds i
  have h32 (i : Nat) := b.avoids_load32 defined_outOfBounds i
  refine .bind (h16 _) fun _ => .bind (h16 _) fun _ => .bind (h32 _) fun _ => .bind (h16 _) fun _ =>
    .bind (h16 _) fun _ => .bind (h32 _) fun _ => ?_
  split
  · exact .ok _
  · exact .error defined_outOfBounds

theorem readInode_defined (hv : Divisible v) (ino : Int) : Avoids Undefined (readInode v ino) := by
  rw [readInode, if_neg hv.inodesInBlockgroup]
  refine .bind (readBlock_defined _ _ _) fun _ => ?_
  rw [if_neg hv.blocksize]
  refine .bind (Buffer.avoids_load32 defined_outOfBounds _ _) fun _ =>
    .bind (readBlock_defined _ _ _) fun _ => ?_
  rw [if_neg hv.inodesPerBlock]
  exact inodeRead_defined _ _

theorem strncmpFrom_defined {a b : Nat → Except Fault (BitVec 8)}
    (ha : ∀ i, Avoids Undefined (a i)) (hb : ∀ i, Avoids Undefined (b i)) (n i : Nat) :
    Avoids Undefined (strncmpFrom a b i n) := by
  induction n generalizing i with
  | zero => exact .ok _
  | succ n ih =>
    refine .bind (ha i) fun _ => .bind (hb i) fun _ => ?_
    split
    · exact .ok _
    · exact ih _

theorem nameByte_defined (f : List (BitVec 8)) (i : Nat) : Avoids Undefined (nameByte f i) := by
  rw [nameByte]
  split
  · exact .ok _
  · exact .error defined_outOfBounds

theorem scanBlock_defined (bs : Nat) (buf : Buffer) (f : List (BitVec 8)) (fuel r : Nat) :
    Avoids Undefined (scanBlock bs buf f fuel r) := by
  have h8 (i : Nat) := buf.avoids_load8 defined_outOfBounds i
  induction fuel generalizing r with
  | zero => exact .error defined_diverges
  | succ fuel ih =>
    rw [scanBlock]
    split
    · refine .bind (h8 _) fun _ =>
        .bind (strncmpFrom_defined (fun i => h8 _) (nameByte_defined f) _ _) fun _ => ?_
      split
      · exact .bind (Buffer.avoids_load32 defined_outOfBounds _ _) fun _ => .ok _
      · refine .bind (Buffer.avoids_load16 defined_outOfBounds _ _) fun _ => ?_
        split
        · exact .ok _
        · exact ih _
    · exact .ok _

theorem scanBlocks_defined (inode : Inode) (f : List (BitVec 8)) (is : List Nat) (buf : Buffer) :
    Avoids Undefined (scanBlocks v inode f is buf) := by
  induction is generalizing buf with
  | nil => exact .ok _
  | cons i is ih =>
    refine .bind (readBlock_defined _ _ _) fun _ =>
      .bind (Buffer.avoids_load16 defined_outOfBounds _ _) fun _ => ?_
    split
    · exact .ok _
    · refine .bind (Buffer.avoids_load8 defined_outOfBounds _ _) fun _ => ?_
      split
      · exact .ok _
      · refine .bind (scanBlock_defined _ _ _ _ _) fun k => ?_
        cases k with
        | none => exact ih _
        | some k => exact .ok _

theorem readDirectory_defined (hv : Divisible v) (dino : Int) (f : List (BitVec 8)) :
    Avoids Undefined (readDirectory v dino f) := by
  refine .bind (readInode_defined hv dino) fun _ => ?_
  rw [if_neg (by decide : ¬(0x4000 : BitVec 16) = 0)]
  split
  · exact .ok _
  · exact scanBlocks_defined _ _ _ _

end Inode

section Lookup

variable {v : Volume}

theorem load_defined (h : Heap) (p : Ptr) : Avoids Undefined (h.load p) := by
  rw [Heap.load]
  split
  · exact .error defined_outOfBounds
  · exact .ok _

theorem store_defined (h : Heap) (p : Ptr) (b : BitVec 8) : Avoids Undefined (h.store p b) := by
  rw [Heap.store]
  split
  · exact .error defined_outOfBounds
  · exact .ok _

theorem skipDelims_defined (h : Heap) (delim : List (BitVec 8)) (fuel : Nat) (p : Ptr) :
    Avoids Undefined (skipDelims h delim fuel p) := by
  induction fuel generalizing p with
  | zero => exact .error defined_diverges
  | succ fuel ih =>
    refine .bind (load_defined h p) fun _ => ?_
    split
    · exact ih _
    · exact .ok _

theorem cutToken_defined (h : Heap) (delim : List (BitVec 8)) (fuel : Nat) (p : Ptr) :
    Avoids Undefined (cutToken h delim fuel p) := by
  induction fuel generalizing p with
  | zero => exact .error defined_diverges
  | succ fuel ih =>
    refine .bind (load_defined h p) fun _ => ?_
    split
    · exact .ok _
    · split
      · exact .bind (store_defined h p 0) fun _ => .ok _
      · exact ih _

theorem strtok_defined (str : Option Ptr) (delim : List (BitVec 8)) (s : Strings) :
    Avoids Undefined (strtok str delim s) := by
  rw [strtok]
  split
  · exact .ok _
  · split
    · exact .ok _
    · refine .bind (skipDelims_defined _ _ _ _) fun _ => .bind (load_defined _ _) fun _ => ?_
      split
      · exact .ok _
      · exact .bind (cutToken_defined _ _ _ _) fun _ => .ok _

theorem walk_defined (hv : Divisible v) (fuel : Nat) (ino : Int) (pch : Ptr) (s : Strings) :
    Avoids Undefined (walk v fuel ino pch s) := by
  induction fuel generalizing ino pch s with
  | zero => exact .error defined_diverges
  | succ fuel ih =>
    refine .bind (readDirectory_defined hv _ _) fun _ => ?_
    split
    · exact .ok _
    · refine .bind (strtok_defined _ _ _) fun (pch, s) => ?_
      cases pch with
      | none => exact .ok _
      | some pch => exact ih _ _ _

theorem findFileInode_defined (hv : Divisible v) (path : CString) (s : Strings) :
    Avoids Undefined (findFileInode v path s) := by
  refine .bind (strtok_defined _ _ _) fun (pch, s) => ?_
  cases pch with
  | none => exact .ok _
  | some pch => exact walk_defined hv _ _ _ _

end Lookup

section File

variable {f : File}

theorem fileReadBlock_defined (hv : Divisible f.fs) (buf : Buffer) (off : Nat) (b : BitVec 32)
    (s : Strings) : Avoids Undefined (fileReadBlock f buf off b s) := by
  refine .bind (findFileInode_defined hv _ _) fun (ino, s) => ?_
  dsimp only
  split
  · exact .ok _
  · refine .bind (readInode_defined hv _) fun _ => ?_
    split
    · exact .bind (readBlock_defined _ _ _) fun _ => .ok _
    · split
      · exact .bind (readBlock_defined _ _ _) fun _ => .error defined_uninitialised
      · exact .ok _

theorem readBlocks_defined (hv : Divisible f.fs) (cblock : Int) (is : List Nat) (block : Buffer)
    (s : Strings) : Avoids Undefined (readBlocks f cblock is block s) := by
  induction is generalizing block s with
  | nil => exact .ok _
  | cons i is ih => exact .bind (fileReadBlock_defined hv _ _ _ _) fun _ => ih _ _

theorem readFile_defined (hv : Divisible f.fs) (buf : Option Buffer) (count : BitVec 32)
    (mem : Option (Nat → BitVec 8)) (s : Strings) :
    Avoids Undefined (readFile f buf count mem s) := by
  unfold readFile
  split
  · exact .ok _
  · cases buf with
    | none => exact .ok _
    | some buf =>
      refine .bind (findFileInode_defined hv _ _) fun (inode, s) => ?_
      dsimp only
      rw [if_neg hv.blocksize]
      split
      · exact .ok _
      · cases mem with
        | none => exact .ok _
        | some mem =>
          exact .bind (readBlocks_defined hv _ _ _ _) fun _ =>
            .bind (Buffer.avoids_memcpy defined_outOfBounds _ _ _ _) fun _ => .ok _

end File

/-- The mount, and all that is done with the mounted volume later, is free of undefined arithmetic. -/
def DividesSafely (dev : Device) : Prop :=
  Avoids Undefined (mount dev) ∧ ∀ v, mount dev = .ok (.ok v) →
    (∀ ino, Avoids Undefined (readInode v ino)) ∧
    (∀ dino f, Avoids Undefined (readDirectory v dino f)) ∧
    ∀ (f : File) (buf : Option Buffer) (count : BitVec 32) (mem : Option (Nat → BitVec 8))
      (s : Strings), f.fs = v → Avoids Undefined (readFile f buf count mem s)

section Mount

variable {dev : Device} {sb : Superblock}

theorem superblock_read (dev : Device) : ∃ sb, Superblock.read dev.superblock = .ok sb := ⟨_, rfl⟩

/-- The block size in the 32 bits it is kept in. -/
theorem blocksize_eq {n : BitVec 32} (hn : n.toNat < 32) :
    ((1024 : BitVec 32) <<< n).toNat = if n.toNat ≤ 21 then 1024 * 2 ^ n.toNat else 0 := by
  have hall : ∀ n < 32, ((1024 : BitVec 32) <<< n).toNat = if n ≤ 21 then 1024 * 2 ^ n else 0 := by
    decide
  rw [BitVec.shiftLeft_eq']
  exact hall _ hn

theorem mount_eq (hblk : dev.type = DEV_TYPE_BLK) (hsb : Superblock.read dev.superblock = .ok sb)
    (hsig : sb.ext2Sig = EXT2_SIGNATURE) :
    mount dev = (do
      let v ← mountSuperblock dev sb
      return .ok v) := by
  rw [mount, if_neg (not_not.mpr hblk), hsb, ok_bind, if_neg (not_not.mpr hsig)]

theorem blocksize_ne_zero {n : BitVec 32} (hn : n.toNat ≤ 21) : (1024 : BitVec 32) <<< n ≠ 0 := by
  have hbs := blocksize_eq (n := n) (by omega)
  have hpow : 2 ^ 0 ≤ 2 ^ n.toNat := Nat.pow_le_pow_right (by omega) (by omega)
  rw [if_pos hn] at hbs
  intro h0
  rw [h0] at hbs
  change 0 = _ at hbs
  omega

/-- What `ext2_mount` makes of a superblock when nothing goes wrong. -/
theorem mountSuperblock_ok (dev : Device) (hhint : sb.blocksizeHint.toNat ≤ 21)
    (hgroup : sb.blocksInBlockgroup ≠ 0) :
    ∃ v, mountSuperblock dev sb = .ok v ∧ v.blocksize = 1024 * 2 ^ sb.blocksizeHint.toNat ∧
      v.inodesPerBlock = v.blocksize / inodeSize ∧
      v.inodesInBlockgroup = sb.inodesInBlockgroup.toNat := by
  have hbs := blocksize_eq (n := sb.blocksizeHint) (by omega)
  rw [if_pos hhint] at hbs
  rw [mountSuperblock, if_neg (by omega), if_neg hgroup]
  exact ⟨_, if_neg (blocksize_ne_zero hhint), hbs, rfl, rfl⟩

/-- A device that is mounted has a superblock whose block size is not zero, and the volume is made of
its fields. -/
theorem mount_inv {v : Volume} (h : mount dev = .ok (.ok v))
    (hsb : Superblock.read dev.superblock = .ok sb) :
    sb.blocksizeHint.toNat < 32 ∧ (1024 : BitVec 32) <<< sb.blocksizeHint ≠ 0 ∧ v = {
      disk := dev.sectors
      firstBgd := sb.superblockId + 1024 / ((1024 : BitVec 32) <<< sb.blocksizeHint)
      blocksize := ((1024 : BitVec 32) <<< sb.blocksizeHint).toNat
      sectorsPerBlock := ((1024 : BitVec 32) <<< sb.blocksizeHint).toNat / 512
      inodesPerBlock := ((1024 : BitVec 32) <<< sb.blocksizeHint).toNat / inodeSize
      inodesInBlockgroup := sb.inodesInBlockgroup.toNat } := by
  rw [mount, hsb] at h
  split at h
  · cases h
  · rw [ok_bind] at h
    split at h
    · cases h
    · obtain ⟨v', hv', hret⟩ := bind_eq_ok.mp h
      cases hret
      rw [mountSuperblock] at hv'
      split at hv'
      · cases hv'
      · split at hv'
        · cases hv'
        · by_cases hzero : (1024 : BitVec 32) <<< sb.blocksizeHint = 0
          · rw [if_pos hzero] at hv'
            cases hv'
          · rw [if_neg hzero] at hv'
            exact ⟨by omega, hzero, (Except.ok.inj hv').symm⟩

/-- The block size of a mounted volume is one of those that ext2 has, in whole sectors. -/
theorem mount_geometry {v : Volume} (h : mount dev = .ok (.ok v)) :
    (∃ k ≤ 21, v.blocksize = 1024 * 2 ^ k) ∧ v.sectorsPerBlock = v.blocksize / 512 := by
  obtain ⟨sb, hsb⟩ := superblock_read dev
  obtain ⟨hshift, hzero, hv⟩ := mount_inv h hsb
  have hbs := blocksize_eq hshift
  have hhint : sb.blocksizeHint.toNat ≤ 21 := by
    by_contra hlarge
    rw [if_neg hlarge] at hbs
    exact hzero (BitVec.eq_of_toNat_eq hbs)
  rw [if_pos hhint] at hbs
  rw [hv]
  exact ⟨⟨sb.blocksizeHint.toNat, hhint, hbs⟩, rfl⟩

theorem mount_bounds {v : Volume} (h : mount dev = .ok (.ok v)) :
    1024 ≤ v.blocksize ∧ v.blocksize ≤ 2 ^ 31 ∧ 512 * v.spb = v.blocksize :=
  Volume.bounds (mount_geometry h).1 (mount_geometry h).2

/-- The divisors are not zero, and the shift is not too far, exactly for these superblocks. -/
theorem mount_divides_iff (hblk : dev.type = DEV_TYPE_BLK)
    (hsb : Superblock.read dev.superblock = .ok sb) (hsig : sb.ext2Sig = EXT2_SIGNATURE) :
    DividesSafely dev ↔ sb.blocksizeHint.toNat ≤ 21 ∧ sb.blocksInBlockgroup ≠ 0 ∧
      sb.inodesInBlockgroup ≠ 0 := by
  rw [DividesSafely, mount_eq hblk hsb hsig]
  constructor
  · rintro ⟨hmount, hlater⟩
    have hshift : sb.blocksizeHint.toNat < 32 := by
      by_contra hfar
      rw [mountSuperblock, if_pos (by omega)] at hmount
      exact hmount _ rfl (.inr rfl)
    have hgroup : sb.blocksInBlockgroup ≠ 0 := by
      intro h0
      rw [mountSuperblock, if_neg (by omega), if_pos h0] at hmount
      exact hmount _ rfl (.inl rfl)
    have hhint : sb.blocksizeHint.toNat ≤ 21 := by
      by_contra hlarge
      have hbs := blocksize_eq hshift
      rw [if_neg hlarge] at hbs
      have hzero : mountSuperblock dev sb = .error .divideByZero := by
        rw [mountSuperblock, if_neg (by omega), if_neg hgroup]
        exact if_pos (BitVec.eq_of_toNat_eq hbs)
      rw [hzero] at hmount
      exact hmount _ rfl (.inl rfl)
    refine ⟨hhint, hgroup, fun h0 => ?_⟩
    obtain ⟨v, hv, -, -, hinodes⟩ := mountSuperblock_ok dev hhint hgroup
    rw [hv] at hlater
    have hread : readInode v 0 = .error .divideByZero := by
      rw [readInode, if_pos (by rw [hinodes, h0]; rfl)]
    exact (hlater v rfl).1 0 _ hread (.inl rfl)
  · rintro ⟨hhint, hgroup, hinodes⟩
    obtain ⟨v, hv, hbs, hper, hin⟩ := mountSuperblock_ok dev hhint hgroup
    have hpow : 2 ^ 0 ≤ 2 ^ sb.blocksizeHint.toNat := Nat.pow_le_pow_right (by omega) (by omega)
    have hdiv : Divisible v := by
      refine ⟨by omega, ?_, ?_⟩
      · rw [hper, hbs, inodeSize]
        omega
      · rw [hin]
        exact fun h0 => hinodes (BitVec.eq_of_toNat_eq h0)
    rw [hv]
    refine ⟨.ok _, fun v' hv' => ?_⟩
    cases hv'
    refine ⟨readInode_defined hdiv, readDirectory_defined hdiv, ?_⟩
    rintro f buf count mem s rfl
    exact readFile_defined hdiv buf count mem s

end Mount

/-- A device with a superblock in sectors 2 and 3. -/
def deviceOf (bytes : List (Nat × BitVec 8)) : Device where
  type := DEV_TYPE_BLK
  sectors := fun sector i => (bytes.lookup (sector.toNat * 512 + i)).getD 0

/-- The signature, and 8192 blocks in a block group. -/
def signature : List (Nat × BitVec 8) := [(1024 + 56, 0x53), (1024 + 57, 0xEF), (1024 + 33, 0x20)]

/-- A superblock whose groups have no inodes is mounted, and divides by zero at the first inode. -/
theorem mount_noInodes :
    (∃ sb, Superblock.read (deviceOf signature).superblock = .ok sb ∧
      sb.ext2Sig = EXT2_SIGNATURE) ∧
    ¬DividesSafely (deviceOf signature) ∧
    ∃ v, mount (deviceOf signature) = .ok (.ok v) ∧ readInode v 2 = .error .divideByZero := by
  obtain ⟨v, hv, hread⟩ : ∃ v, mount (deviceOf signature) = .ok (.ok v) ∧
      readInode v 2 = .error .divideByZero := ⟨_, rfl, rfl⟩
  exact ⟨⟨_, rfl, rfl⟩, fun hsafe => (hsafe.2 v hv).1 2 _ hread (.inl rfl), v, hv, hread⟩

/-- A superblock with 8 inodes in a block group. -/
theorem mount_divides_eight : DividesSafely (deviceOf ((1024 + 40, 8) :: signature)) :=
  (@mount_divides_iff _ ⟨0, 0, 0, 0x2000, 8, 0xEF53⟩ rfl rfl rfl).mpr (by decide)

end Levos.Ext2
