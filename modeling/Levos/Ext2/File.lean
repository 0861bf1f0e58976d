import Levos.Ext2.Lookup

namespace Levos.Ext2

open Levos.Framework Levos.Lib

/-- `struct file`, of a file that `ext2_open` made. -/
structure File where
  fs : Volume
  respath : CString
  isdir : Int
  pos : BitVec 32

/-- `struct stat`. -/
structure Stat where
  dev : BitVec 16
  ino : BitVec 16
  mode : BitVec 32
  nlink : BitVec 16
  uid : BitVec 16
  gid : BitVec 16
  rdev : BitVec 16
  size : BitVec 32

/-- `ext2_open`. It looks nothing up; `room` says whether `kmalloc` has room for the file. -/
def open' (fs : Option Volume) (p : Option CString) (room : Bool) : Except Int File :=
  match fs, p with
  | some fs, some p =>
    if room then .ok { fs := fs, respath := p, isdir := -1, pos := 0 } else .error (-ENOMEM)
  | _, _ => .error (-EINVAL)

/-- `ext2_stat`. -/
def stat (fs : Option Volume) (p : Option CString) (buf : Option Stat) (room : Bool) (s : Strings) :
    Except Fault (Int × Option Stat × Strings) :=
  match p, buf, fs with
  | some p, some buf, some fs => do
    let (inode, s) ← findFileInode fs p s
    if inode < 0 then return (inode, some buf, s)
    else if room = false then return (-ENOMEM, some buf, s)
    else
      let ibuf ← readInode fs inode
      return (0, some {
        dev := 0, ino := BitVec.ofInt 16 inode, mode := ibuf.type.setWidth 32
        nlink := ibuf.hardlinks, uid := ibuf.uid, gid := ibuf.gid, rdev := 0, size := ibuf.size }, s)
  | _, buf, _ => .ok (-EINVAL, buf, s)

/-- `ext2_file_read_block`, into a buffer at offset `off`. Behind the direct blocks the number of the
block is read from `bb[b - 12]` with the inner `b`, which is not yet initialised. -/
def fileReadBlock (f : File) (buf : Buffer) (off : Nat) (b : BitVec 32) (s : Strings) :
    Except Fault (Int × Buffer × Strings) := do
  let (ino, s) ← findFileInode f.fs f.respath s
  if ino < 0 then return (ino, buf, s)
  else
    let ibuf ← readInode f.fs ino
    if b.toNat < 12 then
      let buf ← readBlock f.fs buf off (ibuf.dbp b.toNat)
      return (0, buf, s)
    else if b.toNat < f.fs.blocksize / 4 then
      let _ ← readBlock f.fs (Buffer.zero f.fs.blocksize) 0 ibuf.singlyBlock
      .error .uninitialised
    else return (-ENOSYS, buf, s)

/-- The block reads of `ext2_read_file`; what they answer is not looked at. -/
def readBlocks (f : File) (cblock : Int) : List Nat → Buffer → Strings →
    Except Fault (Buffer × Strings)
  | [], block, s => .ok (block, s)
  | i :: is, block, s => do
    let (_, block, s) ← fileReadBlock f block (i * f.fs.blocksize) (BitVec.ofInt 32 (cblock + i)) s
    readBlocks f cblock is block s

/-- `ext2_read_file` on a file. The caller's buffer is `buf`; `mem` is what `kmalloc` has for the
staging buffer, with the bytes that stand there. -/
def readFile (f : File) (buf : Option Buffer) (count : BitVec 32) (mem : Option (Nat → BitVec 8))
    (s : Strings) : Except Fault (Int × Option Buffer × File × Strings) :=
  if count = 0 then .ok (0, buf, f, s)
  else
    match buf with
    | none => .ok (-EINVAL, none, f, s)
    | some buf => do
      let (inode, s) ← findFileInode f.fs f.respath s
      if inode < 0 then return (inode, some buf, f, s)
      else if f.fs.blocksize = 0 then .error .divideByZero
      else
        let bs : Int := (BitVec.ofNat 32 f.fs.blocksize).toInt
        let blocks := count.toNat / f.fs.blocksize
        let cblock : Int := f.pos.toInt.tdiv bs
        match mem with
        | none => return (-ENOMEM, some buf, f, s)
        | some mem =>
          let block := ⟨f.fs.blocksize * (blocks + 1) % 2 ^ 32, mem⟩
          let (block, s) ← readBlocks f cblock (List.range (blocks + 1)) block s
          let buf ← buf.memcpy block (f.pos.toInt - cblock * bs) count.toNat
          return (count.toInt, some buf, { f with pos := f.pos + count }, s)

end Levos.Ext2
