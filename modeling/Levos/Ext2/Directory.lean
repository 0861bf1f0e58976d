import Levos.Ext2.Volume
import Levos.Framework.Errno
import Levos.Lib.String

namespace Levos.Ext2

open Levos.Framework Levos.Lib

/-- A byte of the block that `f` points into. -/
def nameByte (f : List (BitVec 8)) (i : Nat) : Except Fault (BitVec 8) :=
  match f[i]? with
  | some b => .ok b
  | none => .error .outOfBounds

/-- The loop over the records of one block, which stands at offset `r`. The name is compared before
the sizes are looked at. -/
def scanBlock (bs : Nat) (buf : Buffer) (f : List (BitVec 8)) :
    Nat → Nat → Except Fault (Option Int)
  | 0, _ => .error .diverges
  | fuel + 1, r =>
    if r < bs then do
      let namelength ← buf.load8 (r + 6)
      if (← strncmp (fun i => buf.load8 (r + 8 + i)) (nameByte f) namelength.toNat) = 0 then
        let k ← buf.load32 r
        return some k.toInt
      else
        let size ← buf.load16 (r + 4)
        if size = 0 ∨ namelength = 0 then return none
        else scanBlock bs buf f fuel (r + size.toNat)
    else return none

/-- The loop over the direct blocks of a directory. -/
def scanBlocks (v : Volume) (inode : Inode) (f : List (BitVec 8)) :
    List Nat → Buffer → Except Fault Int
  | [], _ => .ok (-ENOENT)
  | i :: is, buf => do
    let buf ← readBlock v buf 0 (inode.dbp i)
    if (← buf.load16 4) = 0 then return -ENOENT
    else if (← buf.load8 6) = 0 then return -ENOENT
    else
      match ← scanBlock v.blocksize buf f (v.blocksize + 1) 0 with
      | some k => return k
      | none => scanBlocks v inode f is buf

/-- `ext2_read_directory`. The test of the inode's type reads `type & (0x4000 == 0)`, which is
never anything but 0, so every inode passes for a directory. -/
def readDirectory (v : Volume) (dino : Int) (f : List (BitVec 8)) : Except Fault Int := do
  let inode ← readInode v dino
  if inode.type &&& (if (0x4000 : BitVec 16) = 0 then 1 else 0) ≠ 0 then return -ENOTDIR
  else scanBlocks v inode f (List.range 12) (Buffer.zero v.blocksize)

end Levos.Ext2
