import Levos.Framework.Buffer

namespace Levos.Ext2

open Levos.Framework

/-- A mounted volume: the sectors of its device, and what `ext2_mount` keeps of the superblock. -/
structure Volume where
  disk : BitVec 32 → Nat → BitVec 8
  firstBgd : BitVec 32
  blocksize : Nat
  sectorsPerBlock : Nat
  inodesPerBlock : Nat
  inodesInBlockgroup : Nat

/-- `struct ext2_inode`, without the fields that the kernel never reads. -/
structure Inode where
  type : BitVec 16
  uid : BitVec 16
  size : BitVec 32
  gid : BitVec 16
  hardlinks : BitVec 16
  dbp : Nat → BitVec 32
  singlyBlock : BitVec 32

def inodeSize : Nat := 128

/-- The `spb` sectors of a block, as the device delivers them. -/
def Volume.spb (v : Volume) : Nat := if v.sectorsPerBlock = 0 then 1 else v.sectorsPerBlock

def Volume.blockByte (v : Volume) (block : BitVec 32) (i : Nat) : BitVec 8 :=
  v.disk (block * BitVec.ofNat 32 v.spb + BitVec.ofNat 32 (i / 512)) (i % 512)

/-- `ext2_read_block`, into a buffer at offset `off`. -/
def readBlock (v : Volume) (buf : Buffer) (off : Nat) (block : BitVec 32) : Except Fault Buffer :=
  buf.fill off (512 * v.spb) (v.blockByte block)

/-- The copy of an inode out of a buffer. -/
def Inode.read (b : Buffer) (off : Nat) : Except Fault Inode := do
  let type ← b.load16 off
  let uid ← b.load16 (off + 2)
  let size ← b.load32 (off + 4)
  let gid ← b.load16 (off + 24)
  let hardlinks ← b.load16 (off + 26)
  let singlyBlock ← b.load32 (off + 88)
  if off + inodeSize ≤ b.size then
    let word (i : Nat) : BitVec 32 := b.byte (i + 3) ++ b.byte (i + 2) ++ b.byte (i + 1) ++ b.byte i
    return {
      type := type, uid := uid, size := size, gid := gid, hardlinks := hardlinks
      dbp := fun i => word (off + 40 + 4 * i), singlyBlock := singlyBlock }
  else .error .outOfBounds

/-- `ext2_read_inode`. -/
def readInode (v : Volume) (inode : Int) : Except Fault Inode := do
  if v.inodesInBlockgroup = 0 then .error .divideByZero
  else
    let n := (BitVec.ofInt 32 (inode - 1)).toNat
    let bg := n / v.inodesInBlockgroup
    let buf ← readBlock v (Buffer.zero v.blocksize) 0 v.firstBgd
    let index := n % v.inodesInBlockgroup
    if v.blocksize = 0 then .error .divideByZero
    else
      let block := index * inodeSize % 2 ^ 32 / v.blocksize
      let table ← buf.load32 (32 * bg + 8)
      let buf ← readBlock v buf 0 (table + BitVec.ofNat 32 block)
      if v.inodesPerBlock = 0 then .error .divideByZero
      else Inode.read buf (inodeSize * (index % v.inodesPerBlock))

/-- The word at byte `off` of a block. -/
def Volume.word (v : Volume) (block : BitVec 32) (off : Nat) : BitVec 32 :=
  v.blockByte block (off + 3) ++ v.blockByte block (off + 2) ++ v.blockByte block (off + 1) ++
    v.blockByte block off

section Blocks

variable {v : Volume} {buf : Buffer} {block : BitVec 32} {off r : Nat}

theorem Volume.bounds (hblocks : ∃ k ≤ 21, v.blocksize = 1024 * 2 ^ k)
    (hsectors : v.sectorsPerBlock = v.blocksize / 512) :
    1024 ≤ v.blocksize ∧ v.blocksize ≤ 2 ^ 31 ∧ 512 * v.spb = v.blocksize := by
  obtain ⟨k, hk, hbs⟩ := hblocks
  have h1 : 2 ^ 0 ≤ 2 ^ k := Nat.pow_le_pow_right (by omega) (by omega)
  have h2 : 2 ^ k ≤ 2 ^ 21 := Nat.pow_le_pow_right (by omega) hk
  refine ⟨by omega, by omega, ?_⟩
  rw [Volume.spb, hsectors, if_neg (by omega)]
  omega

/-- A block is read whole. -/
theorem readBlock_ok (hv : 512 * v.spb = v.blocksize) (hroom : off + v.blocksize ≤ buf.size) :
    readBlock v buf off block = .ok (buf.filled off v.blocksize (v.blockByte block)) := by
  rw [readBlock, hv, Buffer.fill_ok hroom]

theorem load32_block (h : r + 4 ≤ v.blocksize) (hsize : v.blocksize ≤ buf.size) :
    (buf.filled 0 v.blocksize (v.blockByte block)).load32 r = .ok (v.word block r) := by
  have hbyte (i : Nat) (hi : i < v.blocksize) :
      (buf.filled 0 v.blocksize (v.blockByte block)).byte i = v.blockByte block i := by
    simp [Buffer.filled_byte, hi]
  have hin : r + 4 ≤ (buf.filled 0 v.blocksize (v.blockByte block)).size := by
    rw [Buffer.filled_size]
    omega
  rw [Buffer.load32, if_pos hin, hbyte r (by omega), hbyte (r + 1) (by omega), hbyte (r + 2) (by omega),
    hbyte (r + 3) (by omega)]
  rfl

end Blocks

end Levos.Ext2
