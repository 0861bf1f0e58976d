import Levos.Ext2.BlockSectors
import Levos.Framework.Scan
import Levos.Kernel.FileSystem

namespace Levos.Kernel

open Levos.Framework Levos.Lib Levos.Ext2 Levos.Vfs

def MAX_DEVICES : Nat := 256

/-- The devices that are registered: `devs`, as far as `devices` goes. -/
structure Devices where
  devs : List Device
  room : devs.length ≤ MAX_DEVICES

/-- `device_register`; there is no device at 0 or at a negative address. -/
def deviceRegister (dev : Option Device) (t : Devices) : Int × Devices :=
  match dev with
  | none => (-EINVAL, t)
  | some dev =>
    if h : t.devs.length < MAX_DEVICES then
      (0, ⟨t.devs ++ [dev], by rw [List.length_append]; exact h⟩)
    else (-ENOSPC, t)

/-- The table after some calls of `device_register`. -/
def registerAll (news : List (Option Device)) (t : Devices) : Devices :=
  news.foldl (fun t dev => (deviceRegister dev t).2) t

def noDevices : Devices := ⟨[], Nat.zero_le _⟩

def getNumOfDevices (t : Devices) : Nat := t.devs.length

def deviceGet (t : Devices) (i : Nat) : Option Device :=
  if MAX_DEVICES ≤ i then none else t.devs[i]?

/-- The `mount` of a file system, which faults on what it cannot work with. -/
abbrev MountOperation := Device → Except Fault (Except Int Filesystem)

def devfsMount : MountOperation := fun _ => .ok (.error (-ENODEV))

def ext2Mount : MountOperation := fun dev => do
  let fs ← mount dev
  return fs.map ext2Fs

/-- The file systems, in the order in which `vfs_init` registers them. -/
def vfsInit : List MountOperation := [devfsMount, ext2Mount]

/-- `vfs_mount_fs`. -/
def vfsMountFs (filesystems : List MountOperation) (dev : Device) : Except Fault (Option Filesystem) :=
  filesystems.findSomeM? fun mount => do
    let fs ← mount dev
    return fs.toOption

/-- `vfs_mount`, with file systems that may fault. -/
def vfsMount (filesystems : List MountOperation) (path : CString) (dev : Device) (room : Bool)
    (s : MountTable Filesystem Device) : Except Fault (Int × MountTable Filesystem Device) :=
  if s.rootMount = none ∧ path.bytes ≠ rootPoint then .ok (-EAGAIN, s)
  else do
    match ← vfsMountFs filesystems dev with
    | none => .ok (- ENXIO, s)
    | some fs => setMount path dev fs room s

/-- The loop of `do_mount`, with `n` devices to go from device `i` on. -/
def mountFrom (t : Devices) (room : Nat → Bool) : Nat → Nat → MountTable Filesystem Device →
    Except Fault (MountTable Filesystem Device)
  | 0, _, s => .ok s
  | n + 1, i, s =>
    match deviceGet t i with
    | none => .error .nullPointer
    | some dev => do
      let (_, s) ← vfsMount vfsInit rootString dev (room i) s
      mountFrom t room n (i + 1) s

/-- A `mount` for the VFS layer, on devices on which it does not fault. -/
def MountOperation.answer (mount : MountOperation) (dev : Device) : Except Int Filesystem :=
  match mount dev with
  | .ok fs => fs
  | .error _ => .error (-EINVAL)

/-- The VFS layer at boot. -/
def bootMounts : MountTable Filesystem Device := booted (vfsInit.map fun mount => some mount.answer)

/-- `do_mount`; `room` says whether `kmalloc` has room for the mount of a device. -/
def doMount (t : Devices) (room : Nat → Bool) : Except Fault (MountTable Filesystem Device) := do
  let s ← mountFrom t room (getNumOfDevices t) 0 bootMounts
  if s.rootMount = none then .error (.panic "unable to mount root directory\n") else return s

/-- What stops `do_mount` on the devices, if anything does. -/
def firstFault (devs : List Device) : Option Fault :=
  devs.findSome? fun dev =>
    match mount dev with
    | .ok _ => none
    | .error e => some e

/-- The devices with a volume, from device `i` on, as far as there is room for their mounts. -/
def roots (room : Nat → Bool) : Nat → List Device → List (Device × Volume)
  | _, [] => []
  | i, dev :: devs =>
    match mount dev, room i with
    | .ok (.ok v), true => (dev, v) :: roots room (i + 1) devs
    | _, _ => roots room (i + 1) devs

/-- The mount on `/` of a device with its volume. -/
def rootMountOf (r : Device × Volume) : Mount Filesystem Device := ⟨rootString, ext2Fs r.2, r.1⟩

section Turn

variable {s : MountTable Filesystem Device} {dev : Device} {room : Bool}

theorem vfsMountFs_eq (dev : Device) :
    vfsMountFs vfsInit dev = (mount dev).map fun fs => fs.toOption.map ext2Fs := by
  rw [vfsMountFs, vfsInit, List.findSomeM?_cons, List.findSomeM?_cons]
  cases hmount : mount dev with
  | error e =>
    rw [ext2Mount, hmount]
    rfl
  | ok fs =>
    rw [ext2Mount, hmount]
    cases fs with
    | error e => rfl
    | ok v => rfl

theorem mountFs_answer {fs : Except Int Volume} (hmount : mount dev = .ok fs) :
    mountFs bootMounts.filesystems dev = fs.toOption.map ext2Fs := by
  have hanswer : MountOperation.answer ext2Mount dev = fs.map ext2Fs := by
    rw [MountOperation.answer, ext2Mount, hmount]
    rfl
  simp only [bootMounts, booted, vfsInit, mountFs, List.map_cons, List.map_nil, List.findSome?_cons,
    List.findSome?_nil, hanswer]
  cases fs with
  | error e => rfl
  | ok v => rfl

/-- On a device that faults no file system, `vfs_mount` is what the VFS layer says it is. -/
theorem vfsMount_refines (hfss : s.filesystems = bootMounts.filesystems) {fs : Except Int Volume}
    (hmount : mount dev = .ok fs) (path : CString) (room : Bool) :
    vfsMount vfsInit path dev room s = Vfs.vfsMount path dev room s := by
  rw [vfsMount, Vfs.vfsMount, vfsMountFs_eq, hmount, hfss, mountFs_answer hmount]
  split
  · rfl
  · cases fs with
    | error e => rfl
    | ok v => rfl

theorem vfsMount_faults {e : Fault} (hmount : mount dev = .error e) (room : Bool) :
    vfsMount vfsInit rootString dev room s = .error e := by
  have hroot : ¬(s.rootMount = none ∧ rootString.bytes ≠ rootPoint) := fun h => h.2 rfl
  rw [vfsMount, if_neg hroot, vfsMountFs_eq, hmount]
  rfl

/-- A device is mounted on `/` when it has a volume and there is room. -/
theorem mount_root (hs : Rooted s) (hfss : s.filesystems = bootMounts.filesystems)
    (hlen : s.mounts.length < MAX_MOUNTS) {fs : Except Int Volume} (hmount : mount dev = .ok fs)
    (room : Nat → Bool) (i : Nat) : ∃ n s', vfsMount vfsInit rootString dev (room i) s = .ok (n, s') ∧
      Rooted s' ∧ s'.filesystems = bootMounts.filesystems ∧
      s'.mounts = s.mounts ++ (roots room i [dev]).map rootMountOf := by
  have hacc : accepted s.filesystems s.mounts [⟨rootString, dev, room i⟩] =
      s.mounts ++ (roots room i [dev]).map rootMountOf := by
    rw [accepted, hfss, mountFs_answer hmount, roots, hmount]
    cases fs with
    | error e => exact (List.append_nil _).symm
    | ok v =>
      cases room i with
      | false => simp [Except.toOption, accepted, roots]
      | true => simp [Except.toOption, accepted, roots, rootString, rootMountOf]
  rw [vfsMount_refines hfss hmount]
  rcases vfsMount_spec hs ⟨rootString, dev, room i⟩ with hkept | hmounted
  · obtain ⟨hsame, n, hcall, -⟩ := hkept
    exact ⟨n, s, hcall, hs, hfss, hsame.symm.trans hacc⟩
  · obtain ⟨fs', hnew, hcase⟩ := hmounted
    rcases hcase with hroom | hfull
    · obtain ⟨-, s', hcall, hs', hmounts, hfss'⟩ := hroom
      exact ⟨0, s', hcall, hs', hfss'.trans hfss, hmounts.trans (hnew.symm.trans hacc)⟩
    · exact absurd hlen (Nat.not_lt.mpr hfull.1)

end Turn

section Loop

variable {t : Devices} {room : Nat → Bool} {s : MountTable Filesystem Device}

theorem roots_cons (room : Nat → Bool) (i : Nat) (dev : Device) (devs : List Device) :
    roots room i (dev :: devs) = roots room i [dev] ++ roots room (i + 1) devs := by
  rw [roots, roots]
  split
  · rfl
  · rfl

theorem firstFault_cons_ok {dev : Device} {fs : Except Int Volume} (h : mount dev = .ok fs)
    (devs : List Device) : firstFault (dev :: devs) = firstFault devs := by
  rw [firstFault, List.findSome?_cons, h]
  rfl

theorem firstFault_cons_error {dev : Device} {e : Fault} (h : mount dev = .error e) (devs : List Device) :
    firstFault (dev :: devs) = some e := by
  rw [firstFault, List.findSome?_cons, h]

theorem length_roots_le (room : Nat → Bool) (i : Nat) (devs : List Device) :
    (roots room i devs).length ≤ devs.length := by
  induction devs generalizing i with
  | nil => exact Nat.le_refl 0
  | cons dev devs ih =>
    have hrest := ih (i + 1)
    rw [roots]
    split
    · simpa using hrest
    · exact Nat.le_succ_of_le hrest

theorem deviceGet_drop {i : Nat} {dev : Device} {devs : List Device} (h : t.devs.drop i = dev :: devs) :
    i < MAX_DEVICES ∧ deviceGet t i = some dev ∧ t.devs.drop (i + 1) = devs := by
  have hget : t.devs[i]? = some dev := by
    rw [← List.head?_drop, h, List.head?_cons]
  have hi : i < MAX_DEVICES := Nat.lt_of_lt_of_le (List.getElem?_eq_some_iff.mp hget).1 t.room
  refine ⟨hi, ?_, ?_⟩
  · rw [deviceGet, if_neg (Nat.not_le.mpr hi), hget]
  · rw [← List.tail_drop, h, List.tail_cons]

/-- The loop stops at the first fault, or mounts every device that has a volume. -/
theorem mountFrom_spec {devs : List Device} {i : Nat} (hs : Rooted s)
    (hfss : s.filesystems = bootMounts.filesystems) (hlen : s.mounts.length ≤ i)
    (hdevs : t.devs.drop i = devs) :
    match firstFault devs with
    | some e => mountFrom t room devs.length i s = .error e
    | none => ∃ s', mountFrom t room devs.length i s = .ok s' ∧ Rooted s' ∧
        s'.mounts = s.mounts ++ (roots room i devs).map rootMountOf := by
  induction devs generalizing i s with
  | nil => exact ⟨s, rfl, hs, (List.append_nil _).symm⟩
  | cons dev devs ih =>
    obtain ⟨hi, hdev, hrest⟩ := deviceGet_drop hdevs
    rw [List.length_cons, mountFrom, hdev]
    cases hmount : mount dev with
    | error e =>
      rw [firstFault_cons_error hmount]
      simp only [vfsMount_faults hmount]
      rfl
    | ok fs =>
      obtain ⟨n, s', hcall, hs', hfss', hmounts⟩ :=
        mount_root hs hfss (Nat.lt_of_le_of_lt hlen hi) hmount room i
      have hlen' : s'.mounts.length ≤ i + 1 := by
        have hone := length_roots_le room i [dev]
        rw [List.length_singleton] at hone
        rw [hmounts, List.length_append, List.length_map]
        omega
      have hnext := ih hs' hfss' hlen' hrest
      rw [firstFault_cons_ok hmount, roots_cons]
      simp only [hcall, ok_bind]
      cases hfault : firstFault devs with
      | some e =>
        rw [hfault] at hnext
        exact hnext
      | none =>
        rw [hfault] at hnext
        obtain ⟨s'', hgo, hs'', hmounts'⟩ := hnext
        refine ⟨s'', hgo, hs'', ?_⟩
        rw [hmounts', hmounts, List.map_append, List.append_assoc]

end Loop

section Root

variable {t : Devices} {room : Nat → Bool} {s : MountTable Filesystem Device} {news : List (Option Device)}

/-- The devices are registered in order until the table is full. -/
theorem registerAll_devs (news : List (Option Device)) (t : Devices) :
    (registerAll news t).devs = (t.devs ++ news.filterMap id).take MAX_DEVICES := by
  induction news generalizing t with
  | nil =>
    rw [List.filterMap_nil, List.append_nil, List.take_of_length_le t.room]
    rfl
  | cons new news ih =>
    have hnext := ih (deviceRegister new t).2
    rw [registerAll, List.foldl_cons]
    refine hnext.trans ?_
    cases new with
    | none => rfl
    | some dev =>
      have hid : (some dev :: news).filterMap id = dev :: news.filterMap id := List.filterMap_cons_some rfl
      rw [hid, deviceRegister]
      by_cases hlt : t.devs.length < MAX_DEVICES
      · simp [hlt]
      · have hfull : t.devs.length = MAX_DEVICES := Nat.le_antisymm t.room (Nat.not_lt.mp hlt)
        simp only [hlt, dif_neg, not_false_eq_true]
        rw [List.take_append_of_le_length hfull.ge, List.take_append_of_le_length hfull.ge]

/-- With all mounts on `/`, every path is looked for on the last one. -/
theorem looksOn_last {rs : List (Device × Volume)} {r : Device × Volume} (hs : Rooted s)
    (hmounts : s.mounts = (rs ++ [r]).map rootMountOf) (hr : mount r.1 = .ok (.ok r.2)) (path : CString) :
    LooksOn s path r.2 := by
  have hpoint {m : Mount Filesystem Device} (hm : m ∈ s.mounts) : m.point.bytes = rootPoint := by
    rw [hmounts] at hm
    obtain ⟨r', -, rfl⟩ := List.mem_map.mp hm
    rfl
  have hlast : s.mounts = rs.map rootMountOf ++ [rootMountOf r] := by rw [hmounts, List.map_append]; rfl
  have hnew : Newest s.mounts (rs.map rootMountOf).length := by
    rw [hlast]
    exact newest_append_root _ _ rfl
  have hat : s.mounts[(rs.map rootMountOf).length]? = some (rootMountOf r) := by rw [hlast]; simp
  rcases findMount_spec hs path with hnone | hfound
  · rw [hlast] at hnone
    exact absurd hnone.1 (by simp)
  · obtain ⟨i, hi, hcase⟩ := hfound
    rcases hcase with hlong | hroot
    · obtain ⟨m, hm, hbegins, -⟩ := hlong
      have htwo := hbegins.2
      rw [hpoint (List.mem_of_getElem? hm)] at htwo
      exact absurd htwo (by decide)
    · exact ⟨i, rootMountOf r, hi, by rwa [hroot.2.unique hnew], hr⟩

theorem mem_roots {i : Nat} {devs : List Device} {r : Device × Volume} (h : r ∈ roots room i devs) :
    mount r.1 = .ok (.ok r.2) := by
  induction devs generalizing i with
  | nil => cases h
  | cons dev devs ih =>
    rw [roots] at h
    split at h
    · rename_i v hmount _
      rcases List.mem_cons.mp h with rfl | hrest
      · exact hmount
      · exact ih hrest
    · exact ih h

/-- The loop of `do_mount`. -/
theorem mountFrom_all (t : Devices) (room : Nat → Bool) :
    match firstFault t.devs with
    | some e => mountFrom t room (getNumOfDevices t) 0 bootMounts = .error e
    | none => ∃ s, mountFrom t room (getNumOfDevices t) 0 bootMounts = .ok s ∧ Rooted s ∧
        s.mounts = (roots room 0 t.devs).map rootMountOf :=
  mountFrom_spec (booted_rooted _) rfl (Nat.zero_le _) List.drop_zero

/-- A fault on a device stops `do_mount`. -/
theorem doMount_faults {e : Fault} (h : firstFault t.devs = some e) : doMount t room = .error e := by
  have hloop := mountFrom_all t room
  rw [h] at hloop
  rw [doMount]
  exact congrArg (· >>= _) hloop

/-- The mounts that the loop leaves. -/
theorem mountFrom_roots (h : firstFault t.devs = none) (room : Nat → Bool) :
    ∃ s, mountFrom t room (getNumOfDevices t) 0 bootMounts = .ok s ∧ Rooted s ∧
      s.mounts = (roots room 0 t.devs).map rootMountOf := by
  have hloop := mountFrom_all t room
  rwa [h] at hloop

/-- Without a volume there is no root. -/
theorem doMount_panics (h : firstFault t.devs = none) (hnone : roots room 0 t.devs = []) :
    doMount t room = .error (.panic "unable to mount root directory\n") := by
  obtain ⟨s, hgo, hs, hmounts⟩ := mountFrom_roots h room
  rw [hnone, List.map_nil] at hmounts
  rw [doMount, hgo, ok_bind, if_pos (hs.none_iff.mpr hmounts)]

/-- The last volume is the root. -/
theorem doMount_root {r : Device × Volume} (h : firstFault t.devs = none)
    (hlast : (roots room 0 t.devs).getLast? = some r) :
    ∃ s, doMount t room = .ok s ∧ Mounted s ∧ s.mounts = (roots room 0 t.devs).map rootMountOf ∧
      ∀ path, LooksOn s path r.2 := by
  obtain ⟨s, hgo, hs, hmounts⟩ := mountFrom_roots h room
  obtain ⟨rs, hrs⟩ := List.getLast?_eq_some_iff.mp hlast
  have hne : s.mounts ≠ [] := by
    rw [hmounts, hrs]
    simp
  refine ⟨s, ?_, ⟨hs, hne, ?_⟩, hmounts, ?_⟩
  · rw [doMount, hgo, ok_bind, if_neg fun hnone => hne (hs.none_iff.mp hnone)]
    rfl
  · intro m hm
    rw [hmounts] at hm
    obtain ⟨r', hmem, rfl⟩ := List.mem_map.mp hm
    exact ⟨r'.2, mem_roots hmem, rfl⟩
  · have hmem : r ∈ roots room 0 t.devs := by
      rw [hrs]
      simp
    rw [hrs] at hmounts
    exact looksOn_last hs hmounts (mem_roots hmem)

end Root

/-- What `do_mount` does with the devices that are registered: a fault on one of them stops it, without a
volume it panics, and otherwise the last volume is the root, on which every path is looked for. -/
theorem root_mounted (t : Devices) (room : Nat → Bool) :
    (∀ e, firstFault t.devs = some e → doMount t room = .error e) ∧
      (firstFault t.devs = none → roots room 0 t.devs = [] →
        doMount t room = .error (.panic "unable to mount root directory\n")) ∧
      ∀ r, firstFault t.devs = none → (roots room 0 t.devs).getLast? = some r →
        ∃ s, doMount t room = .ok s ∧ Mounted s ∧ s.mounts = (roots room 0 t.devs).map rootMountOf ∧
          ∀ path, LooksOn s path r.2 :=
  ⟨fun _ => doMount_faults, doMount_panics, fun _ => doMount_root⟩

/-- Two devices with a volume: paths are looked for on the second. -/
theorem root_mounted_two :
    ∃ v v' s, mount smallDevice = .ok (.ok v) ∧ mount emptyDevice = .ok (.ok v') ∧
      doMount ⟨[smallDevice, emptyDevice], by decide⟩ (fun _ => true) = .ok s ∧ LooksOn s rootPath v' := by
  obtain ⟨v, hv⟩ : ∃ v, mount smallDevice = .ok (.ok v) := ⟨_, rfl⟩
  obtain ⟨v', hv'⟩ : ∃ v, mount emptyDevice = .ok (.ok v) := ⟨_, rfl⟩
  obtain ⟨-, -, hroot⟩ := root_mounted ⟨[smallDevice, emptyDevice], by decide⟩ fun _ => true
  have hfault : firstFault [smallDevice, emptyDevice] = none := by
    rw [firstFault_cons_ok hv, firstFault_cons_ok hv']
    rfl
  have hroots : roots (fun _ => true) 0 [smallDevice, emptyDevice] =
      [(smallDevice, v), (emptyDevice, v')] := by
    rw [roots, hv, roots, hv']
    rfl
  obtain ⟨s, hgo, -, -, hlooks⟩ := hroot (emptyDevice, v') hfault (by rw [hroots]; rfl)
  exact ⟨v, v', s, hv, hv', hgo, hlooks rootPath⟩

end Levos.Kernel
