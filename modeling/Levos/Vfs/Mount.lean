import Levos.Framework.Errno
import Levos.Lib.String

namespace Levos.Vfs

open Levos.Framework Levos.Lib

def MAX_MOUNTS : Nat := 256

/-- `"/"`. -/
def rootPoint : List (BitVec 8) := [0x2F]

/-- `struct mount`. -/
structure Mount (φ δ : Type) where
  point : CString
  fs : φ
  dev : δ

/-- The state of the VFS layer: the mounts in the order they were made, `root_mount` as a place in
them, and the `mount` operation of each registered file system. -/
structure MountTable (φ δ : Type) where
  mounts : List (Mount φ δ)
  rootMount : Option Nat
  filesystems : List (Option (δ → Except Int φ))

variable {φ δ : Type}

/-- `__check_mounts`. -/
def checkMounts (mounts : List (Mount φ δ)) (str : List (BitVec 8)) : Option Nat :=
  mounts.findIdx? fun m => m.point.bytes = str

/-- The loop of `find_mount`, with the first `n` characters of the path left. -/
def searchMounts (mounts : List (Mount φ δ)) (path : List (BitVec 8)) : Nat → Option Nat
  | 0 => none
  | 1 => none
  | n + 2 =>
    match checkMounts mounts (path.take (n + 2)) with
    | some i => some i
    | none => searchMounts mounts path (n + 1)

/-- `find_mount`. -/
def findMount (s : MountTable φ δ) (path : CString) : Option Nat :=
  if path.bytes = rootPoint then s.rootMount
  else
    match searchMounts s.mounts path.bytes path.bytes.length with
    | some i => some i
    | none => s.rootMount

/-- `vfs_mount_fs`. -/
def mountFs (filesystems : List (Option (δ → Except Int φ))) (dev : δ) : Option φ :=
  filesystems.findSome? fun mount =>
    match mount with
    | none => none
    | some mount =>
      match mount dev with
      | .ok fs => some fs
      | .error _ => none

/-- `__vfs_set_mount`. The table is not checked for room; `room` says whether `kmalloc` has room. -/
def setMount (p : CString) (dev : δ) (fs : φ) (room : Bool) (s : MountTable φ δ) :
    Except Fault (Int × MountTable φ δ) :=
  if room = false then .ok (-ENOMEM, s)
  else if s.mounts.length < MAX_MOUNTS then
    .ok (0, {
      mounts := s.mounts ++ [⟨p, fs, dev⟩]
      rootMount := if p.bytes = rootPoint then some s.mounts.length else s.rootMount
      filesystems := s.filesystems })
  else .error .outOfBounds

/-- `vfs_mount`. -/
def vfsMount (path : CString) (dev : δ) (room : Bool) (s : MountTable φ δ) :
    Except Fault (Int × MountTable φ δ) :=
  if s.rootMount = none ∧ path.bytes ≠ rootPoint then .ok (-EAGAIN, s)
  else
    match mountFs s.filesystems dev with
    | none => .ok (- ENXIO, s)
    | some fs => setMount path dev fs room s

end Levos.Vfs
