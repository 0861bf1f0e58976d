import Levos.Ext2.Division

namespace Levos.Ext2

open Levos.Framework

/-- `ext2_read_inode`, with the bytes that it copies to `buf`. -/
def readInodeInto (v : Volume) (buf : Buffer) (inode : Int) : Except Fault Buffer := do
  if v.inodesInBlockgroup = 0 then .error .divideByZero
  else
    let n := (BitVec.ofInt 32 (inode - 1)).toNat
    let bg := n / v.inodesInBlockgroup
    let blockBuf ← readBlock v (Buffer.zero v.blocksize) 0 v.firstBgd
    let index := n % v.inodesInBlockgroup
    if v.blocksize = 0 then .error .divideByZero
    else
      let block := index * inodeSize % 2 ^ 32 / v.blocksize
      let table ← blockBuf.load32 (32 * bg + 8)
      let blockBuf ← readBlock v blockBuf 0 (table + BitVec.ofNat 32 block)
      if v.inodesPerBlock = 0 then .error .divideByZero
      else buf.memcpy blockBuf (inodeSize * (index % v.inodesPerBlock) : Nat) inodeSize

/-- Byte `j` of what stands at offset `o` of the inode table that begins with block `table`. -/
def Volume.tableByte (v : Volume) (table : BitVec 32) (o j : Nat) : BitVec 8 :=
  v.blockByte (table + BitVec.ofNat 32 (o / v.blocksize)) (o % v.blocksize + j)

/-- The block of the inode table of group `g`, in the descriptor table that begins with block `start`. -/
def Volume.inodeTable (v : Volume) (start : BitVec 32) (g : Nat) : BitVec 32 :=
  v.word (start + BitVec.ofNat 32 (32 * g / v.blocksize)) (32 * g % v.blocksize + 8)

/-- The block that holds the superblock. -/
def Volume.superblockBlock (v : Volume) : Nat := 1024 / v.blocksize

def Volume.groupOf (v : Volume) (i : BitVec 32) : Nat := (i.toNat - 1) / v.inodesInBlockgroup

/-- The offset of an inode in the table of its group. -/
def Volume.inodeOffset (v : Volume) (i : BitVec 32) : Nat :=
  inodeSize * ((i.toNat - 1) % v.inodesInBlockgroup)

/-- Byte `j` of inode `i`. The descriptor table begins in the block after the superblock's. -/
def Volume.inodeByte (v : Volume) (i : BitVec 32) (j : Nat) : BitVec 8 :=
  v.tableByte (v.inodeTable (BitVec.ofNat 32 (v.superblockBlock + 1)) (v.groupOf i)) (v.inodeOffset i) j

/-- What a valid volume's superblock says: which block it is in, and as many inodes in a group as a
bitmap of one block has bits. -/
structure Valid (v : Volume) (sb : Superblock) : Prop where
  first : sb.superblockId = BitVec.ofNat 32 v.superblockBlock
  inodes : sb.inodesInBlockgroup ≠ 0
  bitmap : sb.inodesInBlockgroup.toNat ≤ 8 * v.blocksize

/-- The group's descriptor is in the first block of the table; and the table is where the kernel looks
for it, or the block there leads to the same bytes. -/
def Reachable (v : Volume) (i : BitVec 32) : Prop :=
  32 * v.groupOf i < v.blocksize ∧ (v.blocksize = 1024 ∨ ∀ j < inodeSize,
    v.tableByte (v.inodeTable 0 (v.groupOf i)) (v.inodeOffset i % 2 ^ 32) j = v.inodeByte i j)

section Mount

variable {dev : Device} {sb : Superblock} {v : Volume}

/-- What `ext2_mount` keeps of the superblock. -/
theorem mount_fields (h : mount dev = .ok (.ok v)) (hsb : Superblock.read dev.superblock = .ok sb) :
    v.firstBgd = sb.superblockId + BitVec.ofNat 32 (1024 / v.blocksize) ∧
      v.inodesPerBlock = v.blocksize / inodeSize ∧
      v.inodesInBlockgroup = sb.inodesInBlockgroup.toNat := by
  obtain ⟨-, -, hv⟩ := mount_inv h hsb
  rw [hv]
  refine ⟨?_, rfl, rfl⟩
  apply congrArg (sb.superblockId + ·)
  apply BitVec.eq_of_toNat_eq
  rw [BitVec.toNat_udiv, BitVec.toNat_ofNat]
  exact (Nat.mod_eq_of_lt (Nat.lt_of_le_of_lt (Nat.div_le_self ..) (by decide))).symm

end Mount

section Read

variable {dev : Device} {sb : Superblock} {v : Volume} {buf : Buffer} {i : BitVec 32}

/-- The block size in inodes, in descriptors, and as a divisor of the address space. -/
theorem blocksize_dvd (hblocks : ∃ k ≤ 21, v.blocksize = 1024 * 2 ^ k) :
    v.blocksize % 1024 = 0 ∧ v.blocksize ∣ 2 ^ 32 := by
  obtain ⟨k, hk, hbs⟩ := hblocks
  constructor
  · rw [hbs]
    exact Nat.mul_mod_right ..
  · have hpow : (2 : Nat) ^ 32 = 1024 * 2 ^ 22 := by decide
    rw [hbs, hpow]
    exact Nat.mul_dvd_mul_left _ (Nat.pow_dvd_pow 2 (by omega))

theorem toNat_pred (h : i ≠ 0) : (BitVec.ofInt 32 (i.toInt - 1)).toNat = i.toNat - 1 := by
  have hpos : 0 < i.toNat := BitVec.toNat_pos_of_ne_zero h
  rw [BitVec.toNat_ofInt, BitVec.toInt_eq_toNat_cond]
  have := i.isLt
  split <;> omega

/-- The kernel finds the descriptor in the block from `first_bgd` on, or looks behind its buffer. -/
theorem readInodeInto_eq (hmount : mount dev = .ok (.ok v))
    (hsb : Superblock.read dev.superblock = .ok sb) (hinodes : sb.inodesInBlockgroup ≠ 0) (hi : i ≠ 0)
    (hbuf : inodeSize ≤ buf.size) :
    readInodeInto v buf i.toInt =
      if 32 * v.groupOf i < v.blocksize then
        .ok (buf.filled 0 inodeSize
          (v.tableByte (v.word v.firstBgd (32 * v.groupOf i + 8)) (v.inodeOffset i % 2 ^ 32)))
      else .error .outOfBounds := by
  obtain ⟨-, hper, hin⟩ := mount_fields hmount hsb
  obtain ⟨hmin, -, hspb⟩ := mount_bounds hmount
  obtain ⟨hmod, hdvd⟩ := blocksize_dvd (mount_geometry hmount).1
  have hin0 : v.inodesInBlockgroup ≠ 0 := by
    rw [hin]
    exact fun h0 => hinodes (BitVec.eq_of_toNat_eq h0)
  have hper0 : v.inodesPerBlock ≠ 0 := by
    rw [hper, inodeSize]
    omega
  have hstage : 0 + v.blocksize ≤ (Buffer.zero v.blocksize).size := by simp [Buffer.zero]
  have hbg : (i.toNat - 1) / v.inodesInBlockgroup = v.groupOf i := rfl
  have hindex : (i.toNat - 1) % v.inodesInBlockgroup * inodeSize = v.inodeOffset i := Nat.mul_comm ..
  -- the inode's place in its block
  have hoff : inodeSize * ((i.toNat - 1) % v.inodesInBlockgroup % v.inodesPerBlock) =
      v.inodeOffset i % 2 ^ 32 % v.blocksize := by
    have hbs : v.blocksize = inodeSize * v.inodesPerBlock := by
      rw [hper, inodeSize]
      omega
    rw [Nat.mod_mod_of_dvd _ hdvd, Volume.inodeOffset, hbs, Nat.mul_mod_mul_left]
  have hplace : v.inodeOffset i % 2 ^ 32 % v.blocksize + inodeSize ≤ v.blocksize := by
    have hlt := Nat.mod_lt ((i.toNat - 1) % v.inodesInBlockgroup) (Nat.pos_of_ne_zero hper0)
    rw [← hoff]
    simp only [inodeSize] at hper ⊢
    omega
  simp only [readInodeInto, if_neg hin0, toNat_pred hi, readBlock_ok hspb hstage, ok_bind,
    if_neg (by omega : ¬v.blocksize = 0), if_neg hper0, hbg, hindex, hoff]
  by_cases hgroup : 32 * v.groupOf i < v.blocksize
  · have hdesc : 32 * v.groupOf i + 8 + 4 ≤ v.blocksize := by omega
    have hsize : v.blocksize ≤ (Buffer.zero v.blocksize).size := Nat.le_refl _
    rw [if_pos hgroup, load32_block hdesc hsize, ok_bind, readBlock_ok hspb (by simpa using hstage),
      ok_bind, Buffer.memcpy_ok hplace hbuf]
    apply congrArg Except.ok
    apply Buffer.filled_eq_iff.mpr
    intro j hj
    rw [Buffer.filled_byte, if_pos (by omega), Nat.sub_zero]
    rfl
  · have hout : ¬32 * v.groupOf i + 8 + 4 ≤
        ((Buffer.zero v.blocksize).filled 0 v.blocksize (v.blockByte v.firstBgd)).size := by
      simp only [Buffer.filled_size, Buffer.zero]
      omega
    rw [if_neg hgroup, Buffer.load32, if_neg hout]
    rfl

/-- A descriptor in the first block of the table. -/
theorem inodeTable_inside {start : BitVec 32} {g : Nat} (h : 32 * g < v.blocksize) :
    v.inodeTable start g = v.word start (32 * g + 8) := by
  rw [Volume.inodeTable, Nat.div_eq_of_lt h, Nat.mod_eq_of_lt h, BitVec.add_zero]

/-- An inode is read right exactly when the kernel reaches its descriptor. -/
theorem readInode_right_iff (hmount : mount dev = .ok (.ok v))
    (hsb : Superblock.read dev.superblock = .ok sb) (hvalid : Valid v sb) (hi : i ≠ 0)
    (hbuf : inodeSize ≤ buf.size) :
    readInodeInto v buf i.toInt = .ok (buf.filled 0 inodeSize (v.inodeByte i)) ↔ Reachable v i := by
  obtain ⟨hfirst, -, hin⟩ := mount_fields hmount hsb
  obtain ⟨hmin, -, -⟩ := mount_bounds hmount
  obtain ⟨hmod, -⟩ := blocksize_dvd (mount_geometry hmount).1
  rw [readInodeInto_eq hmount hsb hvalid.inodes hi hbuf, Reachable, hfirst, hvalid.first]
  by_cases hgroup : 32 * v.groupOf i < v.blocksize
  · rw [if_pos hgroup, Except.ok.injEq, Buffer.filled_eq_iff, and_iff_right hgroup]
    simp only [Volume.inodeByte, Volume.superblockBlock, inodeTable_inside hgroup]
    by_cases hsmall : v.blocksize = 1024
    · -- the table is in the block after the superblock's, and the offset does not overflow
      have hoff : v.inodeOffset i < 2 ^ 32 := by
        have hpos : 0 < v.inodesInBlockgroup := by
          rw [hin]
          exact BitVec.toNat_pos_of_ne_zero hvalid.inodes
        have hlt := Nat.mod_lt (i.toNat - 1) hpos
        have hbitmap := hvalid.bitmap
        simp only [Volume.inodeOffset, inodeSize]
        omega
      rw [hsmall, Nat.mod_eq_of_lt hoff]
      exact iff_of_true (fun _ _ => rfl) (.inl rfl)
    · have hzero : 1024 / v.blocksize = 0 := Nat.div_eq_of_lt (by omega)
      rw [hzero, or_iff_right hsmall]
      exact Iff.rfl
  · simp [hgroup]

end Read

section Fields

variable {v : Volume} {inode : Inode} {b src : Buffer} {off : Nat}

theorem inodeRead_le (h : Inode.read src off = .ok inode) : off + inodeSize ≤ src.size := by
  by_contra hout
  simp only [Inode.read, if_neg hout] at h
  obtain ⟨_, -, h⟩ := bind_eq_ok.mp h
  obtain ⟨_, -, h⟩ := bind_eq_ok.mp h
  obtain ⟨_, -, h⟩ := bind_eq_ok.mp h
  obtain ⟨_, -, h⟩ := bind_eq_ok.mp h
  obtain ⟨_, -, h⟩ := bind_eq_ok.mp h
  obtain ⟨_, -, h⟩ := bind_eq_ok.mp h
  cases h

/-- The fields of an inode are those of its copy. -/
theorem inodeRead_copy (h : Inode.read src off = .ok inode) (hb : inodeSize ≤ b.size) :
    ∃ copy, Inode.read (b.filled 0 inodeSize fun i => src.byte (off + i)) 0 = .ok copy ∧
      { copy with dbp := inode.dbp } = inode ∧ ∀ i < 12, copy.dbp i = inode.dbp i := by
  have hsrc := inodeRead_le h
  have h16 (i : Nat) (hi : i + 2 ≤ inodeSize) := Buffer.load16_copy hi hsrc hb
  have h32 (i : Nat) (hi : i + 4 ≤ inodeSize) := Buffer.load32_copy hi hsrc hb
  have hcopy : inodeSize ≤ (b.filled 0 inodeSize fun i => src.byte (off + i)).size := hb
  simp only [Inode.read, if_pos hsrc, Nat.zero_add, if_pos hcopy] at h ⊢
  rw [h16 0 (by decide), h16 2 (by decide), h32 4 (by decide), h16 24 (by decide), h16 26 (by decide),
    h32 88 (by decide)]
  obtain ⟨type, htype, h⟩ := bind_eq_ok.mp h
  obtain ⟨uid, huid, h⟩ := bind_eq_ok.mp h
  obtain ⟨size, hsize, h⟩ := bind_eq_ok.mp h
  obtain ⟨gid, hgid, h⟩ := bind_eq_ok.mp h
  obtain ⟨hardlinks, hhardlinks, h⟩ := bind_eq_ok.mp h
  obtain ⟨singly, hsingly, h⟩ := bind_eq_ok.mp h
  cases h
  rw [Nat.add_zero, htype, huid, hsize, hgid, hhardlinks, hsingly]
  refine ⟨_, rfl, rfl, ?_⟩
  intro i hi
  simp only [inodeSize]
  rw [Buffer.byte_copy (by omega), Buffer.byte_copy (by omega), Buffer.byte_copy (by omega),
    Buffer.byte_copy (by omega)]
  simp only [Nat.add_assoc]

/-- The inode that the rest of the kernel works with is made of the bytes that were copied. -/
theorem readInode_into {ino : Int} (h : readInode v ino = .ok inode) :
    ∃ buf copy, readInodeInto v (Buffer.zero inodeSize) ino = .ok buf ∧ Inode.read buf 0 = .ok copy ∧
      { copy with dbp := inode.dbp } = inode ∧ ∀ i < 12, copy.dbp i = inode.dbp i := by
  rw [readInode] at h
  rw [readInodeInto]
  split at h
  · cases h
  · obtain ⟨first, hfirst, h⟩ := bind_eq_ok.mp h
    split at h
    · cases h
    · obtain ⟨table, htable, h⟩ := bind_eq_ok.mp h
      obtain ⟨second, hsecond, h⟩ := bind_eq_ok.mp h
      split at h
      · cases h
      · obtain ⟨copy, hread, hfields⟩ := inodeRead_copy (b := Buffer.zero inodeSize) h (Nat.le_refl _)
        refine ⟨_, copy, ?_, hread, hfields⟩
        simp only [*, if_false, ok_bind]
        exact Buffer.memcpy_ok (inodeRead_le h) (Nat.le_refl _)

end Fields

/-- A superblock of a volume with blocks of 1024 bytes and eight inodes in a group. -/
def smallSuper : Superblock := ⟨0, 1, 0, 0x2000, 8, EXT2_SIGNATURE⟩

def smallDevice : Device := deviceOf ((1024 + 20, 1) :: (1024 + 40, 8) :: signature)

theorem readInode_small :
    ∃ v, mount smallDevice = .ok (.ok v) ∧
      readInodeInto v (Buffer.zero inodeSize) (2 : BitVec 32).toInt =
        .ok ((Buffer.zero inodeSize).filled 0 inodeSize (v.inodeByte 2)) := by
  obtain ⟨v, hmount, hblocks, hinodes⟩ : ∃ v, mount smallDevice = .ok (.ok v) ∧ v.blocksize = 1024 ∧
      v.inodesInBlockgroup = 8 := ⟨_, rfl, rfl, rfl⟩
  have hvalid : Valid v smallSuper := by
    constructor
    · rw [Volume.superblockBlock, hblocks]
      rfl
    · decide
    · rw [hblocks]
      decide
  have hreach : Reachable v 2 := by
    refine ⟨?_, .inl hblocks⟩
    rw [Volume.groupOf, hblocks, hinodes]
    decide
  exact ⟨v, hmount, (readInode_right_iff hmount rfl hvalid (by decide) (Nat.le_refl _)).mpr hreach⟩

/-- The same with blocks of 2048 bytes. The inode table is in block 3, and the second inode, the root
directory, has a type. -/
def largeSuper : Superblock := ⟨0, 0, 1, 0x2000, 8, EXT2_SIGNATURE⟩

def largeDevice : Device :=
  deviceOf ((2048 + 8, 3) :: (6144 + 128, 0xED) :: (6144 + 129, 0x41) :: (1024 + 24, 1) ::
    (1024 + 40, 8) :: signature)

/-- With larger blocks the kernel looks for the descriptors in the block of the superblock. -/
theorem readInode_large :
    ∃ v, mount largeDevice = .ok (.ok v) ∧ Superblock.read largeDevice.superblock = .ok largeSuper ∧
      Valid v largeSuper ∧ readInodeInto v (Buffer.zero inodeSize) (2 : BitVec 32).toInt ≠
        .ok ((Buffer.zero inodeSize).filled 0 inodeSize (v.inodeByte 2)) := by
  obtain ⟨v, hmount, hv⟩ : ∃ v, mount largeDevice = .ok (.ok v) ∧
      v = ⟨largeDevice.sectors, 0, 2048, 4, 16, 8⟩ := ⟨_, rfl, rfl⟩
  have hvalid : Valid v largeSuper := by
    rw [hv]
    constructor <;> decide
  refine ⟨v, hmount, rfl, hvalid, ?_⟩
  intro hright
  rw [readInodeInto_eq hmount rfl hvalid.inodes (by decide) (Nat.le_refl _), hv,
    if_pos (by decide)] at hright
  have hbyte := Buffer.filled_eq_iff.mp (Except.ok.inj hright) 0 (by decide)
  exact absurd hbyte (by decide +kernel)

end Levos.Ext2
