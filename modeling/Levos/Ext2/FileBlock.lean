import Levos.Ext2.Division
import Levos.Ext2.ReadFile

namespace Levos.Ext2

open Levos.Framework Levos.Lib

/-- The block number that entry `i` of an indirect block holds. -/
def Volume.entry (v : Volume) (block : BitVec 32) (i : Nat) : BitVec 32 := v.word block (4 * i)

/-- A read of block `b` of a file puts the right disk block into the buffer at `off`, or says that there
is none to read. -/
def ReadsBlock (f : File) (inode : Inode) (buf : Buffer) (off : Nat) (b : BitVec 32) (s : Strings) :
    Prop :=
  ∃ n buf' s', fileReadBlock f buf off b s = .ok (n, buf', s') ∧
    if b.toNat < 12 then
      n = 0 ∧ buf' = buf.filled off f.fs.blocksize (f.fs.blockByte (inode.dbp b.toNat))
    else if b.toNat < 12 + f.fs.blocksize / 4 then
      n = 0 ∧ buf' = buf.filled off f.fs.blocksize
        (f.fs.blockByte (f.fs.entry inode.singlyBlock (b.toNat - 12)))
    else n < 0 ∧ buf' = buf

section Read

variable {f : File} {inode : Inode} {buf : Buffer} {off : Nat} {b : BitVec 32} {s s' : Strings} {ino : Int}

/-- What is left of the function once the file is found. -/
theorem fileReadBlock_eq (hfind : findFileInode f.fs f.respath s = .ok (ino, s')) (hino : 0 ≤ ino)
    (hread : readInode f.fs ino = .ok inode) (hbs : 512 * f.fs.spb = f.fs.blocksize)
    (hroom : off + f.fs.blocksize ≤ buf.size) :
    fileReadBlock f buf off b s =
      if b.toNat < 12 then
        .ok (0, buf.filled off f.fs.blocksize (f.fs.blockByte (inode.dbp b.toNat)), s')
      else if b.toNat < f.fs.blocksize / 4 then .error .uninitialised
      else .ok (-ENOSYS, buf, s') := by
  have hstage : 0 + f.fs.blocksize ≤ (Buffer.zero f.fs.blocksize).size := by simp [Buffer.zero]
  simp only [fileReadBlock, hfind, ok_bind, if_neg (Int.not_lt.mpr hino), hread, readBlock_ok hbs hroom,
    readBlock_ok hbs hstage]
  rfl

/-- A block of a file is read right exactly when it is a direct one, or behind the singly indirect ones. -/
theorem fileReadBlock_right_iff {dev : Device} (hmount : mount dev = .ok (.ok f.fs))
    (hfind : findFileInode f.fs f.respath s = .ok (ino, s')) (hino : 0 ≤ ino)
    (hread : readInode f.fs ino = .ok inode) (hroom : off + f.fs.blocksize ≤ buf.size) :
    ReadsBlock f inode buf off b s ↔ b.toNat < 12 ∨ 12 + f.fs.blocksize / 4 ≤ b.toNat := by
  have hbs := (mount_bounds hmount).2.2
  rw [ReadsBlock, fileReadBlock_eq hfind hino hread hbs hroom]
  by_cases hdirect : b.toNat < 12
  · simp [hdirect]
  · by_cases hindirect : b.toNat < 12 + f.fs.blocksize / 4
    · simp only [if_neg hdirect, if_pos hindirect]
      apply iff_of_false
      · rintro ⟨n, buf', s₁, hcall, hn, -⟩
        split_ifs at hcall
        cases hcall
        exact absurd hn (by decide)
      · omega
    · have hbehind : ¬b.toNat < f.fs.blocksize / 4 := by omega
      simp only [if_neg hdirect, if_neg hindirect, if_neg hbehind]
      apply iff_of_true
      · exact ⟨_, _, _, rfl, by decide, rfl⟩
      · omega

end Read

/-- A device with a superblock for the volume whose root directory holds `x`. -/
def fileDevice : Device := deviceOf ((1024 + 20, 1) :: (1024 + 40, 8) :: signature ++ twoBlocks)

def fileVolume : Volume := { blank with disk := fileDevice.sectors }

/-- `/x`, on that device. -/
def deviceFile : File := { fs := fileVolume, respath := missingPath, isdir := -1, pos := 0 }

theorem deviceFile_found :
    ∃ ino inode s', mount fileDevice = .ok (.ok fileVolume) ∧
      findFileInode fileVolume missingPath ⟨[], none⟩ = .ok (ino, s') ∧ 0 ≤ ino ∧
      readInode fileVolume ino = .ok inode :=
  ⟨3, _, _, rfl, rfl, by decide, rfl⟩

/-- The first block behind the direct ones is not read. -/
theorem fileReadBlock_twelve :
    ∃ ino inode s', mount fileDevice = .ok (.ok fileVolume) ∧
      findFileInode fileVolume missingPath ⟨[], none⟩ = .ok (ino, s') ∧ 0 ≤ ino ∧
      readInode fileVolume ino = .ok inode ∧
      ¬ReadsBlock deviceFile inode (Buffer.zero 1024) 0 12 ⟨[], none⟩ := by
  obtain ⟨ino, inode, s', hmount, hfind, hino, hread⟩ := deviceFile_found
  refine ⟨ino, inode, s', hmount, hfind, hino, hread, ?_⟩
  rintro ⟨n, buf', s₁, hcall, -⟩
  have hbs : 512 * fileVolume.spb = fileVolume.blocksize := rfl
  have hroom : 0 + fileVolume.blocksize ≤ (Buffer.zero 1024).size := by decide
  rw [fileReadBlock_eq (f := deviceFile) hfind hino hread hbs hroom] at hcall
  cases hcall

theorem fileReadBlock_zero :
    ∃ inode, ReadsBlock deviceFile inode (Buffer.zero 1024) 0 0 ⟨[], none⟩ := by
  obtain ⟨ino, inode, s', hmount, hfind, hino, hread⟩ := deviceFile_found
  refine ⟨inode, (fileReadBlock_right_iff (f := deviceFile) hmount hfind hino hread ?_).mpr ?_⟩
  · decide
  · decide

end Levos.Ext2
