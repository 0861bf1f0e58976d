import Levos.Kernel.BootMount

namespace Levos.Kernel

open Levos.Framework Levos.Lib Levos.Ext2 Levos.Vfs Levos.Drivers

def DEV_TYPE_PSEUDO : BitVec 32 := 0
def DEV_TYPE_TTY : BitVec 32 := 3
def DEV_TYPE_TTY_INPUT : BitVec 32 := 5

def TTY_COUNT : Nat := 4

def ATA_CMD_IDENTIFY : BitVec 8 := 0xEC

/-- A device without sectors. -/
def deviceOfType (type : BitVec 32) : Ext2.Device := ⟨type, fun _ _ => 0⟩

/-- The device of the drive, with its sectors as `ata_read` delivers them. -/
def driveDevice (s : AtaBus) : Ext2.Device := ⟨DEV_TYPE_BLK, fun lba i => s.byte (lba.toNat % 2 ^ 28) i⟩

/-- What `kmalloc` has room for at boot: the device of each tty, the buffer and the device of the drive,
`keybuf`, and the mount. -/
structure BootRoom where
  tty : Nat → Bool
  ideBuf : Bool
  ideDev : Bool
  keybuf : Bool
  mount : Bool

/-- `ide_identify`. -/
def ideIdentify (room : BootRoom) (s : AtaBus) (t : Devices) : Except Fault (Int × AtaBus × Devices) := do
  let s := s.outportb ATA_REG_HDDEVSEL 0xA0
  let s := s.outportb ATA_REG_SECCOUNT0 0
  let s := s.outportb ATA_REG_LBA0 0
  let s := s.outportb ATA_REG_LBA1 0
  let s := s.outportb ATA_REG_LBA2 0
  let s := s.outportb ATA_REG_COMMAND ATA_CMD_IDENTIFY
  let status := s.status.headD 0
  let s := { s with status := s.status.tail }
  if status = 0 then return (0, s, t)
  else if room.ideBuf = false then return (-ENOMEM, s, t)
  else
    let (_, s) ← readWords 0 256 0 (Buffer.zero 512) s
    if room.ideDev = false then return (-ENOMEM, s, t)
    else return (1, s, (deviceRegister (some (driveDevice s)) t).2)

/-- The devices as the boot registers them, up to `do_mount`. -/
def bootDevices (room : BootRoom) (s : AtaBus) : Except Fault (AtaBus × Devices) := do
  -- `kmsg_init` and `x86_serial_init`
  let t := registerAll [some (deviceOfType DEV_TYPE_PSEUDO), some (deviceOfType DEV_TYPE_PSEUDO)] noDevices
  -- `tty_init`, where `tty_create_device` answers no device when there is no room
  let t := registerAll ((List.range TTY_COUNT).map fun i =>
    if room.tty i then some (deviceOfType DEV_TYPE_TTY) else none) t
  let (_, s, t) ← ideIdentify room s t
  -- `keyboard_init`
  if room.keybuf = false then return (s, t)
  else return (s, (deviceRegister (some (deviceOfType DEV_TYPE_TTY_INPUT)) t).2)

/-- `ext2_mount` on the drive: the superblock is read with `ata_read` into a buffer of `kmalloc`. -/
def ext2MountAta (stale : Nat → BitVec 8) (s : AtaBus) : Except Fault (Except Int Volume × AtaBus) := do
  let (_, buf, s') ← ataRead s ⟨1024, stale⟩ 0 2 2
  let sb ← Superblock.read buf
  if sb.ext2Sig ≠ EXT2_SIGNATURE then return (.error (-EINVAL), s')
  else
    let v ← mountSuperblock (driveDevice s) sb
    return (.ok v, s')

/-- The `mount` of a file system at boot, where the block device is the drive. -/
abbrev DriveMount := Ext2.Device → AtaBus → Except Fault (Except Int Filesystem × AtaBus)

def devfsMountDrive : DriveMount := fun _ s => .ok (.error (-ENODEV), s)

def ext2MountDrive (stale : Nat → BitVec 8) : DriveMount := fun dev s =>
  if dev.type ≠ DEV_TYPE_BLK then .ok (.error (-ENODEV), s)
  else do
    let (fs, s) ← ext2MountAta stale s
    return (fs.map ext2Fs, s)

/-- `vfs_init`, on the drive. -/
def vfsInitDrive (stale : Nat → BitVec 8) : List DriveMount := [devfsMountDrive, ext2MountDrive stale]

/-- `vfs_mount_fs`, on the drive. -/
def vfsMountFsDrive (dev : Ext2.Device) : List DriveMount → AtaBus →
    Except Fault (Option Filesystem × AtaBus)
  | [], s => .ok (none, s)
  | mount :: filesystems, s => do
    match ← mount dev s with
    | (.ok fs, s) => return (some fs, s)
    | (.error _, s) => vfsMountFsDrive dev filesystems s

/-- `vfs_mount`, on the drive. -/
def vfsMountDrive (filesystems : List DriveMount) (path : CString) (dev : Ext2.Device) (room : Bool)
    (m : MountTable Filesystem Ext2.Device) (s : AtaBus) :
    Except Fault (Int × MountTable Filesystem Ext2.Device × AtaBus) :=
  if m.rootMount = none ∧ path.bytes ≠ rootPoint then .ok (-EAGAIN, m, s)
  else do
    match ← vfsMountFsDrive dev filesystems s with
    | (none, s) => .ok (- ENXIO, m, s)
    | (some fs, s) => do
      let (n, m) ← setMount path dev fs room m
      return (n, m, s)

/-- The loop of `do_mount` on the drive, with `n` devices to go from device `i` on. -/
def mountFromDrive (stale : Nat → BitVec 8) (t : Devices) (room : Nat → Bool) :
    Nat → Nat → MountTable Filesystem Ext2.Device → AtaBus →
    Except Fault (MountTable Filesystem Ext2.Device × AtaBus)
  | 0, _, m, s => .ok (m, s)
  | n + 1, i, m, s =>
    match deviceGet t i with
    | none => .error .nullPointer
    | some dev => do
      let (_, m, s) ← vfsMountDrive (vfsInitDrive stale) rootString dev (room i) m s
      mountFromDrive stale t room n (i + 1) m s

/-- `do_mount`, on the drive. -/
def doMountDrive (stale : Nat → BitVec 8) (t : Devices) (room : Nat → Bool) (s : AtaBus) :
    Except Fault (MountTable Filesystem Ext2.Device × AtaBus) := do
  let (m, s) ← mountFromDrive stale t room (getNumOfDevices t) 0 bootMounts s
  if m.rootMount = none then .error (.panic "unable to mount root directory\n") else return (m, s)

/-- The drive is there, and is registered. -/
def Online (room : BootRoom) (s : AtaBus) : Prop :=
  s.status.headD 0 ≠ 0 ∧ room.ideBuf = true ∧ room.ideDev = true

instance (room : BootRoom) (s : AtaBus) : Decidable (Online room s) :=
  inferInstanceAs (Decidable (_ ∧ _ ∧ _))

/-- The volume that the drive gives the boot, which polls it once for each sector of the superblock. -/
def bootRoot (room : BootRoom) (s : AtaBus) : Except Fault (Option Volume) :=
  if ¬Online room s then .ok none
  else do
    let _ ← polls 2 s.status.tail
    match ← mount (driveDevice s) with
    | .error _ => return none
    | .ok v => return (if room.mount then some v else none)

section Table

variable {room : Nat → Bool} {devs devs' : List Ext2.Device} {i : Nat}

/-- No file system takes a device that is no block device. -/
theorem mount_other {dev : Ext2.Device} (h : dev.type ≠ DEV_TYPE_BLK) : mount dev = .ok (.error (-ENODEV)) :=
  if_pos h

theorem roots_append (room : Nat → Bool) (i : Nat) (devs devs' : List Ext2.Device) :
    roots room i (devs ++ devs') = roots room i devs ++ roots room (i + devs.length) devs' := by
  induction devs generalizing i with
  | nil => rfl
  | cons dev devs ih =>
    rw [List.cons_append, roots_cons, ih, roots_cons room i dev devs, List.append_assoc, List.length_cons]
    congr 3
    omega

theorem roots_other (h : ∀ dev ∈ devs, dev.type ≠ DEV_TYPE_BLK) : roots room i devs = [] := by
  induction devs generalizing i with
  | nil => rfl
  | cons dev devs ih =>
    rw [List.forall_mem_cons] at h
    rw [roots, mount_other h.1]
    exact ih h.2

theorem firstFault_other (h : ∀ dev ∈ devs, dev.type ≠ DEV_TYPE_BLK) (devs' : List Ext2.Device) :
    firstFault (devs ++ devs') = firstFault devs' := by
  induction devs with
  | nil => rfl
  | cons dev devs ih =>
    rw [List.forall_mem_cons] at h
    rw [List.cons_append, firstFault_cons_ok (mount_other h.1)]
    exact ih h.2

end Table

section Drive

variable {s s' : AtaBus} {buf buf' : Buffer} {off n i : Nat}

/-- Reading the data register changes nothing on the drive. -/
theorem readWords_word (h : readWords off n i buf s = .ok (buf', s')) : s'.word = s.word := by
  induction n generalizing i buf s with
  | zero =>
    cases h
    rfl
  | succ n ih =>
    obtain ⟨buf₁, -, hrest⟩ := bind_eq_ok.mp h
    have hword := ih hrest
    exact hword

theorem driveDevice_congr (h : s'.word = s.word) : driveDevice s' = driveDevice s := by
  simp only [driveDevice, AtaBus.byte, h]

/-- The command that is no read only fills the registers. -/
theorem identify_sent (s : AtaBus) :
    ∃ reg, (((((s.outportb ATA_REG_HDDEVSEL 0xA0).outportb ATA_REG_SECCOUNT0 0).outportb ATA_REG_LBA0
      0).outportb ATA_REG_LBA1 0).outportb ATA_REG_LBA2 0).outportb ATA_REG_COMMAND ATA_CMD_IDENTIFY =
      { s with reg := reg } := ⟨_, rfl⟩

/-- `ide_identify` registers a drive that is online, and keeps its sectors. -/
theorem ideIdentify_ok (room : BootRoom) (s : AtaBus) (t : Devices) :
    ∃ n s', ideIdentify room s t = .ok (n, s',
        registerAll (if Online room s then [some (driveDevice s)] else []) t) ∧
      s'.word = s.word ∧ s'.status = s.status.tail := by
  obtain ⟨reg, hsent⟩ := identify_sent s
  let told : AtaBus := { s with reg := reg, status := s.status.tail }
  have hroom : 0 + 0 * 2 + 2 * 256 ≤ (Buffer.zero 512).size := by decide
  obtain ⟨⟨buf, s'⟩, hread, -, hstatus'⟩ := readWords_returns (s := told) hroom
  have hword : s'.word = told.word := readWords_word hread
  by_cases hstatus : s.status.headD 0 = 0
  · have hoff : ¬Online room s := fun h => h.1 hstatus
    refine ⟨0, told, ?_, rfl, rfl⟩
    rw [if_neg hoff, ideIdentify]
    simp only [hsent, if_pos hstatus]
    rfl
  · cases hbuf : room.ideBuf with
    | false =>
      have hoff : ¬Online room s := fun h => Bool.false_ne_true (hbuf.symm.trans h.2.1)
      refine ⟨-ENOMEM, told, ?_, rfl, rfl⟩
      rw [if_neg hoff, ideIdentify]
      simp only [hsent, if_neg hstatus, hbuf]
      rfl
    | true =>
      cases hdev : room.ideDev with
      | false =>
        have hoff : ¬Online room s := fun h => Bool.false_ne_true (hdev.symm.trans h.2.2)
        refine ⟨-ENOMEM, s', ?_, hword, hstatus'⟩
        rw [if_neg hoff, ideIdentify]
        simp only [hsent, if_neg hstatus, hbuf, hdev, Bool.true_eq_false, if_false, if_true]
        exact congrArg (· >>= _) hread
      | true =>
        refine ⟨1, s', ?_, hword, hstatus'⟩
        have hon : Online room s := ⟨hstatus, hbuf, hdev⟩
        have hdrive : driveDevice s' = driveDevice s := driveDevice_congr hword
        rw [if_pos hon, ideIdentify, ← hdrive]
        simp only [hsent, if_neg hstatus, hbuf, hdev, Bool.true_eq_false, if_false]
        exact congrArg (· >>= _) hread

/-- There is room for a few more devices. -/
theorem registerAll_room {t : Devices} {news : List (Option Ext2.Device)}
    (h : t.devs.length + news.length ≤ MAX_DEVICES) :
    (registerAll news t).devs = t.devs ++ news.filterMap id := by
  rw [registerAll_devs, List.take_of_length_le]
  rw [List.length_append]
  exact Nat.le_trans (Nat.add_le_add_left (List.length_filterMap_le id news) _) h

end Drive

section Superblock

variable {b b' : Buffer} {s s' : AtaBus}

/-- The superblock is read from the bytes of the buffer. -/
theorem superblock_congr (hsize : b'.size = b.size) (hbyte : ∀ i < b.size, b'.byte i = b.byte i) :
    Superblock.read b' = Superblock.read b := by
  have h16 (i : Nat) : b'.load16 i = b.load16 i := by
    rw [Buffer.load16, Buffer.load16, hsize]
    split
    · rw [hbyte i (by omega), hbyte (i + 1) (by omega)]
    · rfl
  have h32 (i : Nat) : b'.load32 i = b.load32 i := by
    rw [Buffer.load32, Buffer.load32, hsize]
    split
    · rw [hbyte i (by omega), hbyte (i + 1) (by omega), hbyte (i + 2) (by omega), hbyte (i + 3) (by omega)]
    · rfl
  simp only [Superblock.read, h16, h32]

/-- The superblock that the drive delivers is the one of its device, whatever stood in the buffer. -/
theorem ext2MountAta_eq {stale : Nat → BitVec 8} {n : Nat} {buf : Buffer}
    (hread : ataRead s ⟨1024, stale⟩ 0 2 2 = .ok (n, buf, s')) :
    ext2MountAta stale s = (mount (driveDevice s)).map fun r => (r, s') := by
  obtain ⟨-, hbuf, -⟩ := ataRead_ok hread
  have hsame : Superblock.read buf = Superblock.read (driveDevice s).superblock := by
    apply superblock_congr
    · rw [hbuf]
      rfl
    · intro i hi
      have hlt : i < 1024 := hi
      rw [hbuf, Buffer.filled_byte, Nat.zero_add, if_pos ⟨Nat.zero_le i, hlt⟩, Nat.sub_zero]
      rfl
  obtain ⟨sb, hsb⟩ := superblock_read (driveDevice s)
  have hblk : ¬(driveDevice s).type ≠ DEV_TYPE_BLK := fun h => h rfl
  rw [ext2MountAta, hread, mount, if_neg hblk]
  simp only [ok_bind, hsame, hsb]
  split
  · rfl
  · cases mountSuperblock (driveDevice s) sb with
    | error e => rfl
    | ok v => rfl

/-- `ext2_mount` on the drive stops where the polling does, or reads sectors 2 and 3 and then does what it
does on the device of the drive. -/
theorem ext2MountAta_polls (stale : Nat → BitVec 8) (s : AtaBus) :
    match polls 2 s.status with
    | .error e => ext2MountAta stale s = .error e
    | .ok _ => ∃ s', s'.commands = s.commands ++ [2, 3] ∧
        ext2MountAta stale s = (mount (driveDevice s)).map fun fs => (fs, s') := by
  have hsize : 0 + 512 * (0 + 2) ≤ (⟨1024, stale⟩ : Buffer).size := Nat.le_refl 1024
  rw [← readSectors_polls 2 hsize]
  cases hsectors : readSectors 0 2 2 0 ⟨1024, stale⟩ s with
  | error e =>
    rw [ext2MountAta, ataRead, hsectors]
    rfl
  | ok r =>
    have hread : ataRead s ⟨1024, stale⟩ 0 2 2 = .ok (2, r.1, r.2) := by
      rw [ataRead, hsectors]
      rfl
    obtain ⟨-, -, hcommands⟩ := ataRead_ok hread
    exact ⟨r.2, hcommands, ext2MountAta_eq hread⟩

end Superblock

section Loop

variable {stale : Nat → BitVec 8} {t : Devices} {room : Nat → Bool} {s s' : AtaBus}
  {m : MountTable Filesystem Ext2.Device} {dev : Ext2.Device} {before after devs : List Ext2.Device} {i : Nat}

theorem rootString_mounts (m : MountTable Filesystem Ext2.Device) :
    ¬(m.rootMount = none ∧ rootString.bytes ≠ rootPoint) := fun h => h.2 rfl

/-- A device that is no block device is not mounted, and the drive is left alone. -/
theorem vfsMountDrive_other (h : dev.type ≠ DEV_TYPE_BLK) (room : Bool) :
    vfsMountDrive (vfsInitDrive stale) rootString dev room m s = .ok (- ENXIO, m, s) := by
  rw [vfsMountDrive, if_neg (rootString_mounts m), vfsInitDrive]
  simp only [vfsMountFsDrive, devfsMountDrive, ext2MountDrive, if_pos h, ok_bind]

theorem vfsMount_other (h : dev.type ≠ DEV_TYPE_BLK) (room : Bool) :
    vfsMount vfsInit rootString dev room m = .ok (- ENXIO, m) := by
  rw [vfsMount, if_neg (rootString_mounts m), vfsMountFs_eq, mount_other h]
  rfl

/-- On a drive that answers, `vfs_mount` does what it does on the device of the drive. -/
theorem vfsMountDrive_drive
    (h : ext2MountAta stale s = (mount (driveDevice s)).map fun fs => (fs, s')) (room : Bool) :
    vfsMountDrive (vfsInitDrive stale) rootString (driveDevice s) room m s =
      (vfsMount vfsInit rootString (driveDevice s) room m).map fun r => (r.1, r.2, s') := by
  have hblk : ¬(driveDevice s).type ≠ DEV_TYPE_BLK := fun h => h rfl
  rw [vfsMountDrive, if_neg (rootString_mounts m), vfsInitDrive, vfsMount, if_neg (rootString_mounts m),
    vfsMountFs_eq]
  simp only [vfsMountFsDrive, devfsMountDrive, ext2MountDrive, if_neg hblk, h, ok_bind]
  cases mount (driveDevice s) with
  | error e => rfl
  | ok fs =>
    cases fs with
    | error e => rfl
    | ok v =>
      change (setMount rootString (driveDevice s) (ext2Fs v) room m >>= fun r => .ok (r.1, r.2, s')) =
        (setMount rootString (driveDevice s) (ext2Fs v) room m).map fun r => (r.1, r.2, s')
      cases setMount rootString (driveDevice s) (ext2Fs v) room m with
      | error e => rfl
      | ok r => rfl

theorem vfsMountDrive_stops {e : Fault} (h : ext2MountAta stale s = .error e) (room : Bool) :
    vfsMountDrive (vfsInitDrive stale) rootString (driveDevice s) room m s = .error e := by
  have hblk : ¬(driveDevice s).type ≠ DEV_TYPE_BLK := fun h => h rfl
  rw [vfsMountDrive, if_neg (rootString_mounts m), vfsInitDrive]
  simp only [vfsMountFsDrive, devfsMountDrive, ext2MountDrive, if_neg hblk, h, ok_bind, error_bind]

variable (stale room s m)

/-- Both loops pass over devices that are no block devices. -/
theorem mountFrom_others (hdevs : t.devs.drop i = before ++ after)
    (hbefore : ∀ dev ∈ before, dev.type ≠ DEV_TYPE_BLK) :
    mountFromDrive stale t room (before ++ after).length i m s =
        mountFromDrive stale t room after.length (i + before.length) m s ∧
      mountFrom t room (before ++ after).length i m =
        mountFrom t room after.length (i + before.length) m := by
  induction before generalizing i with
  | nil => exact ⟨rfl, rfl⟩
  | cons dev before ih =>
    rw [List.forall_mem_cons] at hbefore
    obtain ⟨-, hdev, hrest⟩ := deviceGet_drop hdevs
    have hnext := ih hrest hbefore.2
    have hi : i + (before.length + 1) = i + 1 + before.length := by omega
    rw [List.cons_append, List.length_cons, List.length_cons, hi, ← hnext.1, ← hnext.2, mountFromDrive,
      mountFrom, hdev]
    simp only [vfsMountDrive_other hbefore.1, vfsMount_other hbefore.1, ok_bind, and_self]

theorem mountFrom_none (hdevs : t.devs.drop i = devs) (h : ∀ dev ∈ devs, dev.type ≠ DEV_TYPE_BLK) :
    mountFromDrive stale t room devs.length i m s = .ok (m, s) ∧
      mountFrom t room devs.length i m = .ok m := by
  have hdrop : t.devs.drop i = devs ++ [] := by rw [hdevs, List.append_nil]
  have hskip := mountFrom_others stale room s m hdrop h
  rwa [List.append_nil] at hskip

/-- `do_mount` on a drive that is not registered. -/
theorem doMountDrive_none (h : ∀ dev ∈ t.devs, dev.type ≠ DEV_TYPE_BLK) :
    doMountDrive stale t room s = (doMount t room).map fun m => (m, s) := by
  have hdrop : t.devs.drop 0 = t.devs := List.drop_zero
  obtain ⟨hdrive, hdev⟩ := mountFrom_none stale room s bootMounts hdrop h
  rw [doMountDrive, doMount, getNumOfDevices, hdrive, hdev]
  rfl

/-- `do_mount` on a drive that is: it stops where the polling does, or does what it does on the device of
the drive. -/
theorem doMountDrive_drive (hdevs : t.devs = before ++ driveDevice s :: after)
    (hbefore : ∀ dev ∈ before, dev.type ≠ DEV_TYPE_BLK) (hafter : ∀ dev ∈ after, dev.type ≠ DEV_TYPE_BLK) :
    match polls 2 s.status with
    | .error e => doMountDrive stale t room s = .error e
    | .ok _ => ∃ s', s'.commands = s.commands ++ [2, 3] ∧
        doMountDrive stale t room s = (doMount t room).map fun m => (m, s') := by
  have hdrop : t.devs.drop 0 = before ++ driveDevice s :: after := hdevs
  have hskip := mountFrom_others stale room s bootMounts hdrop hbefore
  have hdrop' : t.devs.drop before.length = driveDevice s :: after := by rw [hdevs, List.drop_left]
  obtain ⟨-, hdev, hrest⟩ := deviceGet_drop hdrop'
  have hdrive (s : AtaBus) (m : MountTable Filesystem Ext2.Device) :=
    (mountFrom_none stale room s m hrest hafter).1
  have hdevice (m : MountTable Filesystem Ext2.Device) := (mountFrom_none stale room s m hrest hafter).2
  have hmount := ext2MountAta_polls stale s
  rw [doMountDrive, doMount, getNumOfDevices, hdevs, hskip.1, hskip.2, List.length_cons, Nat.zero_add,
    mountFromDrive, mountFrom, hdev]
  cases hpolls : polls 2 s.status with
  | error e =>
    rw [hpolls] at hmount
    simp only [vfsMountDrive_stops hmount, error_bind]
  | ok rest =>
    rw [hpolls] at hmount
    obtain ⟨s', hcommands, hmount⟩ := hmount
    refine ⟨s', hcommands, ?_⟩
    simp only [vfsMountDrive_drive hmount, hdrive, hdevice]
    cases vfsMount vfsInit rootString (driveDevice s) (room before.length) bootMounts with
    | error e => rfl
    | ok r =>
      simp only [Except.map, ok_bind]
      split
      · rfl
      · rfl

end Loop

section Boot

variable {room : BootRoom} {s : AtaBus}

/-- The devices that are there before the drive. -/
theorem devices_before (tty : Nat → Bool) (t : Devices)
    (h : t = registerAll ((List.range TTY_COUNT).map fun i =>
        if tty i then some (deviceOfType DEV_TYPE_TTY) else none)
      (registerAll [some (deviceOfType DEV_TYPE_PSEUDO), some (deviceOfType DEV_TYPE_PSEUDO)] noDevices)) :
    t.devs.length ≤ 6 ∧ ∀ dev ∈ t.devs, dev.type ≠ DEV_TYPE_BLK := by
  have hpseudo : (registerAll [some (deviceOfType DEV_TYPE_PSEUDO), some (deviceOfType DEV_TYPE_PSEUDO)]
      noDevices).devs = [deviceOfType DEV_TYPE_PSEUDO, deviceOfType DEV_TYPE_PSEUDO] :=
    registerAll_room (by decide)
  have hroom : (List.range TTY_COUNT).length + 2 ≤ MAX_DEVICES := by decide
  rw [h, registerAll_room (by rw [hpseudo, List.length_map, Nat.add_comm]; exact hroom), hpseudo]
  constructor
  · have hle := List.length_filterMap_le id ((List.range TTY_COUNT).map fun i =>
      if tty i then some (deviceOfType DEV_TYPE_TTY) else none)
    rw [List.length_map, List.length_range] at hle
    rw [List.length_append]
    exact Nat.add_le_add_left hle 2
  · intro dev hdev
    rcases List.mem_append.mp hdev with hfirst | hsecond
    · rw [List.eq_of_mem_replicate (n := 2) hfirst]
      decide
    · obtain ⟨new, hnew, hid⟩ := List.mem_filterMap.mp hsecond
      obtain ⟨i, -, rfl⟩ := List.mem_map.mp hnew
      split at hid
      · cases hid
        decide
      · cases hid

/-- The boot registers the drive if it is online, among devices without a volume. -/
theorem bootDevices_ok (room : BootRoom) (s : AtaBus) :
    ∃ s' t before after, bootDevices room s = .ok (s', t) ∧
      (s'.word = s.word ∧ s'.status = s.status.tail) ∧
      t.devs = before ++ (if Online room s then [driveDevice s] else []) ++ after ∧
      (∀ dev ∈ before, dev.type ≠ DEV_TYPE_BLK) ∧ ∀ dev ∈ after, dev.type ≠ DEV_TYPE_BLK := by
  obtain ⟨t₀, ht₀⟩ : ∃ t, t = registerAll ((List.range TTY_COUNT).map fun i =>
      if room.tty i then some (deviceOfType DEV_TYPE_TTY) else none)
    (registerAll [some (deviceOfType DEV_TYPE_PSEUDO), some (deviceOfType DEV_TYPE_PSEUDO)] noDevices) :=
    ⟨_, rfl⟩
  obtain ⟨hlen, hbefore⟩ := devices_before room.tty t₀ ht₀
  obtain ⟨n, s', hide, hkept⟩ := ideIdentify_ok room s t₀
  obtain ⟨t₁, ht₁⟩ : ∃ t, t = registerAll (if Online room s then [some (driveDevice s)] else []) t₀ :=
    ⟨_, rfl⟩
  have hdrive : t₁.devs = t₀.devs ++ if Online room s then [driveDevice s] else [] := by
    rw [ht₁]
    by_cases hon : Online room s
    · rw [if_pos hon, if_pos hon]
      exact registerAll_room (Nat.le_trans (Nat.add_le_add_right hlen 1) (by decide))
    · rw [if_neg hon, if_neg hon, List.append_nil]
      rfl
  have hlen₁ : t₁.devs.length ≤ 7 := by
    rw [hdrive, List.length_append]
    split
    · exact Nat.add_le_add_right hlen 1
    · exact Nat.le_succ_of_le hlen
  rw [bootDevices, ← ht₀, hide, ← ht₁, ok_bind]
  cases hkeys : room.keybuf with
  | false => exact ⟨s', t₁, t₀.devs, [], rfl, hkept, by rw [hdrive, List.append_nil], hbefore, by simp⟩
  | true =>
    obtain ⟨kbd, hkbd⟩ : ∃ kbd, kbd = deviceOfType DEV_TYPE_TTY_INPUT := ⟨_, rfl⟩
    have hlast : (deviceRegister (some kbd) t₁).2.devs = t₁.devs ++ [kbd] :=
      @registerAll_room t₁ [some kbd] (Nat.le_trans (Nat.add_le_add_right hlen₁ 1) (by decide))
    refine ⟨s', (deviceRegister (some kbd) t₁).2, t₀.devs, [kbd], ?_, hkept, ?_, hbefore, ?_⟩
    · rw [hkbd]
      rfl
    · rw [hlast, hdrive]
    · intro dev hdev
      rw [List.mem_singleton.mp hdev, hkbd]
      decide

/-- `do_mount` on the devices of a boot that has no drive. -/
theorem doMount_none {t : Devices} (room : Nat → Bool) (h : ∀ dev ∈ t.devs, dev.type ≠ DEV_TYPE_BLK) :
    doMount t room = .error (.panic "unable to mount root directory\n") := by
  have hnone := firstFault_other h []
  rw [List.append_nil] at hnone
  exact doMount_panics hnone (roots_other h)

/-- `do_mount` on the devices of a boot whose drive delivers what stands on it. -/
theorem doMount_drive {t : Devices} {before after : List Ext2.Device} (room : Bool)
    (hdevs : t.devs = before ++ driveDevice s :: after)
    (hbefore : ∀ dev ∈ before, dev.type ≠ DEV_TYPE_BLK) (hafter : ∀ dev ∈ after, dev.type ≠ DEV_TYPE_BLK) :
    match mount (driveDevice s) with
    | .error e => doMount t (fun _ => room) = .error e
    | .ok (.error _) => doMount t (fun _ => room) = .error (.panic "unable to mount root directory\n")
    | .ok (.ok v) =>
      if room then
        ∃ mounts, doMount t (fun _ => room) = .ok mounts ∧ Mounted mounts ∧ ∀ path, LooksOn mounts path v
      else doMount t (fun _ => room) = .error (.panic "unable to mount root directory\n") := by
  have hfault_after : firstFault after = none := by
    have hnone := firstFault_other hafter []
    rwa [List.append_nil] at hnone
  have hfault : firstFault t.devs = firstFault (driveDevice s :: after) := by
    rw [hdevs, firstFault_other hbefore]
  have hroots : roots (fun _ => room) 0 t.devs = roots (fun _ => room) before.length [driveDevice s] := by
    rw [hdevs, roots_append, roots_cons _ _ (driveDevice s), roots_other hbefore, roots_other hafter,
      List.nil_append, List.append_nil, Nat.zero_add]
  cases hmount : mount (driveDevice s) with
  | error e =>
    refine doMount_faults (hfault.trans ?_)
    exact firstFault_cons_error hmount _
  | ok fs =>
    have hnone : firstFault t.devs = none :=
      hfault.trans ((firstFault_cons_ok hmount _).trans hfault_after)
    rw [roots, hmount] at hroots
    cases fs with
    | error e => exact doMount_panics hnone hroots
    | ok v =>
      cases room with
      | false => exact doMount_panics hnone hroots
      | true =>
        obtain ⟨mounts, hgo, hmounted, -, hlooks⟩ := doMount_root (r := (driveDevice s, v)) hnone
          (by rw [hroots]; rfl)
        exact ⟨mounts, hgo, hmounted, hlooks⟩

/-- `do_mount` on the drive, after the boot. -/
theorem doMountDrive_boot {stale : Nat → BitVec 8} {t : Devices} {s' : AtaBus}
    {before after : List Ext2.Device} (hword : s'.word = s.word) (hstatus : s'.status = s.status.tail)
    (hdevs : t.devs = before ++ (if Online room s then [driveDevice s] else []) ++ after)
    (hbefore : ∀ dev ∈ before, dev.type ≠ DEV_TYPE_BLK) (hafter : ∀ dev ∈ after, dev.type ≠ DEV_TYPE_BLK) :
    match bootRoot room s with
    | .error e => doMountDrive stale t (fun _ => room.mount) s' = .error e
    | .ok none =>
      doMountDrive stale t (fun _ => room.mount) s' = .error (.panic "unable to mount root directory\n")
    | .ok (some v) => ∃ mounts s'', doMountDrive stale t (fun _ => room.mount) s' = .ok (mounts, s'') ∧
        s''.commands = s'.commands ++ [2, 3] ∧ Mounted mounts ∧ ∀ path, LooksOn mounts path v := by
  rw [bootRoot]
  by_cases hon : Online room s
  · rw [if_pos hon, ← driveDevice_congr hword, List.append_assoc] at hdevs
    have hdrive := doMountDrive_drive stale (fun _ => room.mount) s' hdevs hbefore hafter
    have hdevice := doMount_drive room.mount hdevs hbefore hafter
    rw [if_neg (not_not.mpr hon), ← hstatus, ← driveDevice_congr hword]
    cases hpolls : polls 2 s'.status with
    | error e =>
      rw [hpolls] at hdrive
      exact hdrive
    | ok rest =>
      rw [hpolls] at hdrive
      obtain ⟨s'', hcommands, hdrive⟩ := hdrive
      have hstop {e : Fault} (h : doMount t (fun _ => room.mount) = .error e) :
          (doMount t fun _ => room.mount).map (fun m => (m, s'')) = .error e := by
        rw [h]
        rfl
      rw [hdrive, ok_bind]
      cases hmount : mount (driveDevice s') with
      | error e =>
        rw [hmount] at hdevice
        exact hstop hdevice
      | ok fs =>
        rw [hmount] at hdevice
        cases fs with
        | error e => exact hstop hdevice
        | ok v =>
          cases hroom : room.mount with
          | false =>
            rw [hroom] at hdevice hstop
            exact hstop hdevice
          | true =>
            rw [hroom] at hdevice
            obtain ⟨mounts, hgo, hmounted, hlooks⟩ := hdevice
            refine ⟨mounts, s'', ?_, hcommands, hmounted, hlooks⟩
            rw [hgo]
            rfl
  · rw [if_neg hon, List.append_nil] at hdevs
    have hother : ∀ dev ∈ t.devs, dev.type ≠ DEV_TYPE_BLK := by
      rw [hdevs, List.forall_mem_append]
      exact ⟨hbefore, hafter⟩
    rw [if_pos hon]
    exact (doMountDrive_none stale _ s' hother).trans (congrArg (Except.map _) (doMount_none _ hother))

end Boot

/-- A boot has its root on the drive, exactly if the drive is online, answers the reads of its superblock and
a volume stands on it, and every path is looked for on that volume. Without it, `do_mount` panics or polls
without an end. The superblock is read from sectors 2 and 3 of the drive. -/
theorem boot_from_drive (room : BootRoom) (s : AtaBus) :
    ∃ s' t, bootDevices room s = .ok (s', t) ∧ ∀ stale,
      (Answers 2 s.status.tail → ∃ s'', s''.commands = s'.commands ++ [2, 3] ∧
        ext2MountAta stale s' = (mount (driveDevice s)).map fun r => (r, s'')) ∧
      match bootRoot room s with
      | .error e => doMountDrive stale t (fun _ => room.mount) s' = .error e
      | .ok none =>
        doMountDrive stale t (fun _ => room.mount) s' = .error (.panic "unable to mount root directory\n")
      | .ok (some v) => ∃ mounts s'', doMountDrive stale t (fun _ => room.mount) s' = .ok (mounts, s'') ∧
          s''.commands = s'.commands ++ [2, 3] ∧ Mounted mounts ∧ ∀ path, LooksOn mounts path v := by
  obtain ⟨s', t, before, after, hboot, ⟨hword, hstatus⟩, hdevs, hbefore, hafter⟩ := bootDevices_ok room s
  refine ⟨s', t, hboot, fun stale => ⟨?_, doMountDrive_boot hword hstatus hdevs hbefore hafter⟩⟩
  intro hanswers
  rw [← hstatus, answers_iff] at hanswers
  obtain ⟨rest, hpolls⟩ := hanswers
  have hmount := ext2MountAta_polls stale s'
  rwa [hpolls, driveDevice_congr hword] at hmount

/-- A drive with an empty root directory. -/
def emptyDrive : AtaBus where
  reg := fun _ => 0
  word := fun sector i => emptyDevice.sectors (BitVec.ofNat 32 sector) (2 * i + 1) ++
    emptyDevice.sectors (BitVec.ofNat 32 sector) (2 * i)
  status := [ATA_SR_DRQ, ATA_SR_DRQ, ATA_SR_DRQ, ATA_SR_DRQ, ATA_SR_DRQ]
  current := 0
  next := 0
  commands := []

/-- The boot finds its root there. -/
theorem boot_from_drive_empty :
    ∃ s' t v mounts s'', bootDevices ⟨fun _ => true, true, true, true, true⟩ emptyDrive = .ok (s', t) ∧
      mount (driveDevice emptyDrive) = .ok (.ok v) ∧
      doMountDrive (fun _ => 0) t (fun _ => true) s' = .ok (mounts, s'') ∧ LooksOn mounts rootPath v := by
  obtain ⟨v, hmount⟩ : ∃ v, mount (driveDevice emptyDrive) = .ok (.ok v) := ⟨_, rfl⟩
  obtain ⟨s', t, hdevices, hboot⟩ := boot_from_drive ⟨fun _ => true, true, true, true, true⟩ emptyDrive
  have hroot : bootRoot ⟨fun _ => true, true, true, true, true⟩ emptyDrive = .ok (some v) := by
    have hon : Online ⟨fun _ => true, true, true, true, true⟩ emptyDrive := ⟨by decide, rfl, rfl⟩
    have hpolls : polls 2 emptyDrive.status.tail = .ok [] := rfl
    rw [bootRoot, if_neg (not_not.mpr hon), hmount, hpolls]
    rfl
  obtain ⟨-, hmounts⟩ := hboot fun _ => 0
  rw [hroot] at hmounts
  obtain ⟨mounts, s'', hgo, -, -, hlooks⟩ := hmounts
  exact ⟨s', t, v, mounts, s'', hdevices, hmount, hgo, hlooks rootPath⟩

end Levos.Kernel
