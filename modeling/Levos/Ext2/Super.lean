import Levos.Ext2.File

namespace Levos.Ext2

open Levos.Framework Levos.Lib

def DEV_TYPE_BLK : BitVec 32 := 4

def EXT2_SIGNATURE : BitVec 16 := 0xEF53

/-- `struct device`: its type and its sectors. -/
structure Device where
  type : BitVec 32
  sectors : BitVec 32 → Nat → BitVec 8

/-- `struct ext2_superblock`, without the fields that the kernel never reads. -/
structure Superblock where
  blocks : BitVec 32
  superblockId : BitVec 32
  blocksizeHint : BitVec 32
  blocksInBlockgroup : BitVec 32
  inodesInBlockgroup : BitVec 32
  ext2Sig : BitVec 16

/-- The superblock in its 1024 bytes. -/
def Superblock.read (b : Buffer) : Except Fault Superblock := do
  let blocks ← b.load32 4
  let superblockId ← b.load32 20
  let blocksizeHint ← b.load32 24
  let blocksInBlockgroup ← b.load32 32
  let inodesInBlockgroup ← b.load32 40
  let ext2Sig ← b.load16 56
  return {
    blocks := blocks, superblockId := superblockId, blocksizeHint := blocksizeHint
    blocksInBlockgroup := blocksInBlockgroup, inodesInBlockgroup := inodesInBlockgroup
    ext2Sig := ext2Sig }

/-- The part of `ext2_mount` behind the signature check. -/
def mountSuperblock (dev : Device) (sb : Superblock) : Except Fault Volume :=
  if 32 ≤ sb.blocksizeHint.toNat then .error .shiftTooFar
  else
    let blocksize := (1024 : BitVec 32) <<< sb.blocksizeHint
    if sb.blocksInBlockgroup = 0 then .error .divideByZero
    else if blocksize = 0 then .error .divideByZero
    else .ok {
      disk := dev.sectors
      firstBgd := sb.superblockId + 1024 / blocksize
      blocksize := blocksize.toNat
      sectorsPerBlock := blocksize.toNat / 512
      inodesPerBlock := blocksize.toNat / inodeSize
      inodesInBlockgroup := sb.inodesInBlockgroup.toNat }

/-- The 1024 bytes that `ext2_mount` reads: two sectors from sector 2 on. -/
def Device.superblock (dev : Device) : Buffer :=
  ⟨1024, fun i => dev.sectors (2 + BitVec.ofNat 32 (i / 512)) (i % 512)⟩

/-- `ext2_mount`. -/
def mount (dev : Device) : Except Fault (Except Int Volume) := do
  if dev.type ≠ DEV_TYPE_BLK then return .error (-ENODEV)
  else
    let sb ← Superblock.read dev.superblock
    if sb.ext2Sig ≠ EXT2_SIGNATURE then return .error (-EINVAL)
    else
      let v ← mountSuperblock dev sb
      return .ok v

end Levos.Ext2
