import Levos.Ext2.FileBlock
import Levos.Kernel.FileTable
import Levos.Vfs.FindMount

namespace Levos.Kernel

open Levos.Framework Levos.Lib Levos.Ext2 Levos.Vfs Levos.Arch

/-- `struct filesystem`, with its operations. -/
structure Filesystem where
  open' : Option CString → Bool → Except Int OpenFile
  stat : Option (Option CString → Option Stat → Bool → Strings →
    Except Fault (Int × Option Stat × Strings))

/-- A copy of `ext2_fs` for a volume. -/
def ext2Fs (v : Volume) : Filesystem where
  open' := fun p room => (Ext2.open' (some v) p room).map .ext2
  stat := some (Ext2.stat (some v))

/-- `vfs_open`. -/
def vfsOpen (mounts : MountTable Filesystem Device) (path : CString) (room : Bool) :
    Except Fault (Except Int OpenFile) :=
  match (findMount mounts path).bind (mounts.mounts[·]?) with
  | none => .error .nullPointer
  | some m => .ok (m.fs.open' (some path) room)

/-- `vfs_stat`. -/
def vfsStat (mounts : MountTable Filesystem Device) (path : CString) (buf : Option Stat) (room : Bool)
    (s : Strings) : Except Fault (Int × Option Stat × Strings) :=
  match (findMount mounts path).bind (mounts.mounts[·]?) with
  | none => .error (.panic "Location %s was not mounted!\n")
  | some m =>
    match m.fs.stat with
    | none => .ok (-ENOSYS, buf, s)
    | some stat => stat (some path) buf room s

/-- What the system calls find of the file systems: the mounts, the cursor and the heap, and whether
`kmalloc` has room. -/
structure Files where
  mounts : MountTable Filesystem Device
  strings : Strings
  room : Bool

/-- The file systems behind the system calls. `text` is the string at an address; what a call stores
in the caller's buffer is left out, and the consoles take all they are given. -/
def fileSystem (text : BitVec 32 → CString) : Backend Files where
  vfsOpen := fun path s => (vfsOpen s.mounts (text path) s.room).toOption.map fun f => (f, s)
  vfsStat := fun path buf s =>
    (vfsStat s.mounts (text path) (if buf = 0 then none else some ⟨0, 0, 0, 0, 0, 0, 0, 0⟩) s.room
      s.strings).toOption.map fun (n, _, strings) => (n, { s with strings := strings })
  readFile := fun f buf count s =>
    (readFile f (if buf = 0 then none else some (Buffer.zero count.toNat)) count
      (if s.room then some fun _ => 0 else none) s.strings).toOption.map
      fun (n, _, f, strings) => (n, f, { s with strings := strings })
  consoleWrite := fun _ count s => some (count.toInt, s)
  rmProcess := fun _ _ => none

/-- The mounts as `vfs_mount` leaves them: there is a root, and every mount is of a volume that
`ext2_mount` accepted. -/
structure Mounted (mounts : MountTable Filesystem Device) : Prop where
  rooted : Rooted mounts
  root : mounts.mounts ≠ []
  volumes : ∀ m ∈ mounts.mounts, ∃ v, mount m.dev = .ok (.ok v) ∧ m.fs = ext2Fs v

/-- The volume that a path is looked for on. -/
theorem Mounted.volume {mounts : MountTable Filesystem Device} (h : Mounted mounts) (path : CString) :
    ∃ i m v, findMount mounts path = some i ∧ mounts.mounts[i]? = some m ∧
      mount m.dev = .ok (.ok v) ∧ m.fs = ext2Fs v := by
  rcases findMount_spec h.rooted path with ⟨hnil, -⟩ | ⟨i, hfind, hcase⟩
  · exact absurd hnil h.root
  · obtain ⟨m, hm⟩ : ∃ m, mounts.mounts[i]? = some m := by
      rcases hcase with ⟨m, hm, -⟩ | ⟨-, ⟨m, hm, -⟩, -⟩
      · exact ⟨m, hm⟩
      · exact ⟨m, hm⟩
    obtain ⟨v, hv, hfs⟩ := h.volumes m (List.mem_of_getElem? hm)
    exact ⟨i, m, v, hfind, hm, hv, hfs⟩

/-- A read of the file comes back with no error. -/
def CanRead (f : OpenFile) (s : Strings) : Prop :=
  ∃ g buf count mem n res, f = .ext2 g ∧ count ≠ 0 ∧
    readFile g (some buf) count mem s = .ok (n, res) ∧ 0 ≤ n

/-- `vfs_stat` succeeds. -/
def StatOk (mounts : MountTable Filesystem Device) (path : CString) (st : Stat) (room : Bool)
    (s : Strings) : Prop :=
  ∃ st' s', vfsStat mounts path (some st) room s = .ok (0, st', s')

/-- The path is looked for on the volume `v`. -/
def LooksOn (mounts : MountTable Filesystem Device) (path : CString) (v : Volume) : Prop :=
  ∃ i m, findMount mounts path = some i ∧ mounts.mounts[i]? = some m ∧ mount m.dev = .ok (.ok v)

/-- `open` and `stat` agree about a path, and both refuse it when a component is missing. -/
structure OpensLikeStat (text : BitVec 32 → CString) (r : PtRegs) (p : Process) (s : Files) (st : Stat) :
    Prop where
  reads : (∃ f, vfsOpen s.mounts (text r.ebx) s.room = .ok (.ok f) ∧ CanRead f s.strings) ↔
    StatOk s.mounts (text r.ebx) st s.room s.strings
  opens : (∃ n p' s', syscallOpen (fileSystem text) r p s = .ok (some (n, p', s')) ∧ 0 ≤ n) ↔
    StatOk s.mounts (text r.ebx) st s.room s.strings
  missing : ∀ v, LooksOn s.mounts (text r.ebx) v → resolve v (text r.ebx) = .ok (-ENOENT) →
    (∃ e, vfsOpen s.mounts (text r.ebx) s.room = .ok (.error e) ∧ e < 0) ∧
    ∃ e st' s', vfsStat s.mounts (text r.ebx) (some st) s.room s.strings = .ok (e, st', s') ∧ e < 0

/-- The next lookup finds an inode that can be read: the cursor is reset, or the text it was left in
leads to one. -/
def RestsReadable (v : Volume) (s : Strings) : Prop :=
  s.sp = none ∨ ∃ u k inode, Pending s u ∧ resolveFrom v 2 (inPlace slash u) = .ok k ∧ 0 ≤ k ∧
    readInode v k = .ok inode

/-- The path leads to an inode that can be read, so does the text that the cursor was left in, if it
was, and `kmalloc` has room. -/
def Present (text : BitVec 32 → CString) (r : PtRegs) (s : Files) : Prop :=
  ∃ v k inode, LooksOn s.mounts (text r.ebx) v ∧ resolve v (text r.ebx) = .ok k ∧ 0 ≤ k ∧
    readInode v k = .ok inode ∧ RestsReadable v s.strings ∧ s.room = true

section Files

variable {v : Volume} {path : CString} {s : Strings}

theorem stat_ok_iff {st : Stat} {room : Bool} :
    (∃ st' s', Ext2.stat (some v) (some path) (some st) room s = .ok (0, st', s')) ↔
      room = true ∧ ∃ k s' inode, findFileInode v path s = .ok (k, s') ∧ 0 ≤ k ∧
        readInode v k = .ok inode := by
  constructor
  · rintro ⟨st', s', hstat⟩
    obtain ⟨⟨k, s₁⟩, hfind, hrest⟩ := bind_eq_ok.mp hstat
    by_cases hk : k < 0
    · simp only [if_pos hk] at hrest
      cases hrest
      omega
    · simp only [if_neg hk] at hrest
      cases room with
      | false => cases hrest
      | true =>
        simp only [Bool.true_eq_false, if_false] at hrest
        obtain ⟨inode, hread, -⟩ := bind_eq_ok.mp hrest
        exact ⟨rfl, k, s₁, inode, hfind, by omega, hread⟩
  · rintro ⟨rfl, k, s', inode, hfind, hk, hread⟩
    simp only [Ext2.stat, hfind, ok_bind, if_neg (Int.not_lt.mpr hk), Bool.true_eq_false, if_false,
      hread]
    exact ⟨_, s', rfl⟩

theorem RestsReadable.rests (h : RestsReadable v s) : Rests v s := by
  rcases h with hnone | ⟨u, k, -, hu, hres, hk, -⟩
  · exact .inl hnone
  · exact .inr ⟨u, k, hu, hres, hk⟩

theorem restsReadable_of_find {k : Int} {s' : Strings} {inode : Inode}
    (hs : s.sp = none ∨ ∃ u, Pending s u) (hfind : findFileInode v path s = .ok (k, s'))
    (hk : 0 ≤ k) (hread : readInode v k = .ok inode) : RestsReadable v s := by
  rcases hs with hclean | ⟨u, hu⟩
  · exact .inl hclean
  · exact .inr ⟨u, k, inode, hu, (findFileInode_ok (.inr hu) hfind).1, hk, hread⟩

/-- A lookup with such a cursor finds an inode that can be read, given that the path leads to one. -/
theorem RestsReadable.find {k : Int} {inode : Inode} (h : RestsReadable v s)
    (hres : resolve v path = .ok k) (hk : 0 ≤ k) (hread : readInode v k = .ok inode) :
    ∃ k' s' inode', findFileInode v path s = .ok (k', s') ∧ 0 ≤ k' ∧ readInode v k' = .ok inode' := by
  rcases h with hnone | ⟨u, k₁, inode₁, hu, hres₁, hk₁, hread₁⟩
  · obtain ⟨s', hfind, -⟩ := findFileInode_of_resolve path (.inl ⟨hnone, rfl⟩) hres
    exact ⟨k, s', inode, hfind, hk, hread⟩
  · obtain ⟨s', hfind, -⟩ := findFileInode_of_resolve path (.inr hu) hres₁
    exact ⟨k₁, s', inode₁, hfind, hk₁, hread₁⟩

/-- A file that is there can be read. -/
theorem canRead_of_found {f : File} {inode : Inode} (h : Found f inode) (hs : Rests f.fs s)
    (hpos : f.pos = 0) : CanRead (.ext2 f) s := by
  have hbs := h.bounds
  have hdiv : 1 / f.fs.blocksize = 0 := Nat.div_eq_of_lt (by omega)
  have hmod : 1 % f.fs.blocksize = 1 := Nat.mod_eq_of_lt (by omega)
  have hfits : ReadFits f 1 (some fun _ => 0) s := by
    refine ⟨hs, by simp, by rw [hpos]; decide, ?_⟩
    rw [hpos]
    change FitsAt f.fs.blocksize 0 1
    refine ⟨?_, ?_, ?_⟩
    · rw [hdiv]
      omega
    · rw [hmod, Nat.zero_mod]
      omega
    · rw [hdiv, Nat.zero_div]
      omega
  obtain ⟨buf', s', hread, -⟩ := hfits.readFile h (Buffer.zero 1) (by decide)
    (by rw [hpos]; decide) (Nat.le_refl _)
  exact ⟨f, _, 1, _, _, _, rfl, by decide, hread, by decide⟩

/-- A file that can be read with the cursor left where the next lookup succeeds has a path that can be
looked up, to an inode that can be read unless it is missing. -/
theorem CanRead.resolves {f : File} (h : CanRead (.ext2 f) s) (hs : Rests f.fs s)
    (hbs : f.fs.blocksize ≠ 0) :
    ∃ k, resolve f.fs f.respath = .ok k ∧ (0 ≤ k → ∃ inode, readInode f.fs k = .ok inode) := by
  obtain ⟨g, buf, count, mem, n, res, hg, hcount, hread, hn⟩ := h
  cases hg
  simp only [readFile, if_neg hcount] at hread
  obtain ⟨⟨k₁, s₁⟩, hfind, hrest⟩ := bind_eq_ok.mp hread
  by_cases hk₁ : k₁ < 0
  · simp only [if_pos hk₁] at hrest
    cases hrest
    omega
  · simp only [if_neg hk₁, if_neg hbs] at hrest
    have hclean : s₁.sp = none := by
      refine clean_of_find ?_ hfind (Int.not_lt.mp hk₁)
      rcases hs with hnone | ⟨u, k, hu, -, -⟩
      · exact .inl hnone
      · exact .inr ⟨u, hu⟩
    cases mem with
    | none =>
      cases hrest
      exact absurd hn (by decide)
    | some stale =>
      obtain ⟨⟨block, s₂⟩, hblocks, -⟩ := bind_eq_ok.mp hrest
      rw [List.range_succ_eq_map, readBlocks] at hblocks
      obtain ⟨⟨n₂, block₂, s₃⟩, hfirst, -⟩ := bind_eq_ok.mp hblocks
      obtain ⟨⟨k, s₄⟩, hsecond, hinode⟩ := bind_eq_ok.mp hfirst
      have hres := (findFileInode_ok (.inl ⟨hclean, rfl⟩) hsecond).1
      refine ⟨k, hres, fun hk => ?_⟩
      simp only [if_neg (Int.not_lt.mpr hk)] at hinode
      obtain ⟨inode, hread', -⟩ := bind_eq_ok.mp hinode
      exact ⟨inode, hread'⟩

end Files

section Agreement

variable {mounts : MountTable Filesystem Device} {path : CString} {v : Volume} {room : Bool}

theorem LooksOn.unique {v' : Volume} (h : LooksOn mounts path v) (h' : LooksOn mounts path v') :
    v = v' := by
  obtain ⟨i, m, hi, hm, hv⟩ := h
  obtain ⟨i', m', hi', hm', hv'⟩ := h'
  cases hi.symm.trans hi'
  cases hm.symm.trans hm'
  cases hv.symm.trans hv'
  rfl

theorem Mounted.looksOn (h : Mounted mounts) (path : CString) : ∃ v, LooksOn mounts path v := by
  obtain ⟨i, m, v, hi, hm, hv, -⟩ := h.volume path
  exact ⟨v, i, m, hi, hm, hv⟩

/-- A path on a volume is opened without a look at the volume. -/
theorem vfsOpen_eq (room : Bool) (h : Mounted mounts) (hv : LooksOn mounts path v) :
    vfsOpen mounts path room =
      .ok (if room then .ok (.ext2 ⟨v, path, -1, 0⟩) else .error (-ENOMEM)) := by
  obtain ⟨i, m, v', hi, hm, hv', hfs⟩ := h.volume path
  cases hv.unique ⟨i, m, hi, hm, hv'⟩
  rw [vfsOpen, hi, Option.bind_some, hm]
  simp only [hfs]
  cases room <;> rfl

theorem vfsStat_eq (h : Mounted mounts) (hv : LooksOn mounts path v) (buf : Option Stat)
    (s : Strings) : vfsStat mounts path buf room s = Ext2.stat (some v) (some path) buf room s := by
  obtain ⟨i, m, v', hi, hm, hv', hfs⟩ := h.volume path
  cases hv.unique ⟨i, m, hi, hm, hv'⟩
  rw [vfsStat, hi, Option.bind_some, hm]
  simp only [hfs]
  rfl

theorem LooksOn.geometry (h : LooksOn mounts path v) :
    (∃ k ≤ 21, v.blocksize = 1024 * 2 ^ k) ∧ v.sectorsPerBlock = v.blocksize / 512 := by
  obtain ⟨i, m, -, -, hv⟩ := h
  exact mount_geometry hv

theorem LooksOn.blocksize_ne_zero (h : LooksOn mounts path v) : v.blocksize ≠ 0 := by
  obtain ⟨⟨k, -, hbs⟩, -⟩ := h.geometry
  have hpow : 0 < 2 ^ k := Nat.two_pow_pos k
  omega

/-- With a free descriptor `open` answers one, whatever `vfs_open` answers. -/
theorem syscallOpen_free {text : BitVec 32 → CString} {r : PtRegs} {p : Process} {s : Files}
    {i : Fin 128} (hm : Mounted s.mounts) (hi : LowestFree p i) :
    ∃ n p' s', syscallOpen (fileSystem text) r p s = .ok (some (n, p', s')) ∧ 0 ≤ n := by
  obtain ⟨v, hv⟩ := hm.looksOn (text r.ebx)
  refine ⟨i.val, ?_⟩
  rw [syscallOpen]
  change ∃ p' s', Except.ok (((vfsOpen s.mounts (text r.ebx) s.room).toOption.map _).map _) = _ ∧ _
  rw [vfsOpen_eq _ hm hv]
  simp only [Except.toOption, Option.map_some, hi.freeEntry]
  exact ⟨_, _, rfl, by omega⟩

end Agreement

/-- `open` and `stat` agree about a path exactly when it leads to an inode that can be read. -/
theorem open_agrees_iff {text : BitVec 32 → CString} {r : PtRegs} {p : Process} {s : Files} {st : Stat}
    (hm : Mounted s.mounts) (hsp : s.strings.sp = none ∨ ∃ u, Pending s.strings u)
    (hfree : ∃ i, LowestFree p i) : OpensLikeStat text r p s st ↔ Present text r s := by
  obtain ⟨v, hv⟩ := hm.looksOn (text r.ebx)
  obtain ⟨i, hi⟩ := hfree
  have hopen := vfsOpen_eq s.room hm hv
  have hstat : StatOk s.mounts (text r.ebx) st s.room s.strings ↔
      s.room = true ∧ ∃ k s' inode, findFileInode v (text r.ebx) s.strings = .ok (k, s') ∧ 0 ≤ k ∧
        readInode v k = .ok inode := by
    rw [StatOk, vfsStat_eq hm hv]
    exact stat_ok_iff
  constructor
  · intro hagree
    have hok := hagree.opens.mp (syscallOpen_free hm hi)
    obtain ⟨hroom, k, s', inode, hfind, hk, hread⟩ := hstat.mp hok
    have hrests : Rests v s.strings := rests_of_find hsp hfind hk
    obtain ⟨f, hf, hcan⟩ := hagree.reads.mpr hok
    rw [hopen, if_pos hroom] at hf
    cases hf
    obtain ⟨k', hres, hinode⟩ := hcan.resolves hrests hv.blocksize_ne_zero
    have hk' : 0 ≤ k' := by
      by_contra hneg
      have hmissing : k' = -ENOENT := by
        obtain ⟨s'', -, hlt, -⟩ := findFileInode_of_resolve (s := ⟨[], none⟩) (text r.ebx)
          (.inl ⟨rfl, rfl⟩) hres
        exact (hlt (by omega)).1
      subst hmissing
      obtain ⟨⟨e, hrefused, -⟩, -⟩ := hagree.missing v hv hres
      rw [hopen, if_pos hroom] at hrefused
      cases hrefused
    obtain ⟨inode', hread'⟩ := hinode hk'
    exact ⟨v, k', inode', hv, hres, hk', hread', restsReadable_of_find hsp hfind hk hread, hroom⟩
  · rintro ⟨v', k, inode, hv', hres, hk, hread, hrests, hroom⟩
    cases hv.unique hv'
    have hfound : Found ⟨v, text r.ebx, -1, 0⟩ inode :=
      ⟨hv.geometry.1, hv.geometry.2, k, hres, hk, hread⟩
    have hok : StatOk s.mounts (text r.ebx) st s.room s.strings :=
      hstat.mpr ⟨hroom, hrests.find hres hk hread⟩
    refine ⟨iff_of_true ⟨_, by rw [hopen, if_pos hroom], ?_⟩ hok,
      iff_of_true (syscallOpen_free hm hi) hok, fun v' hv' hmissing => ?_⟩
    · exact canRead_of_found hfound hrests.rests rfl
    · cases hv.unique hv'
      cases hres.symm.trans hmissing
      exact absurd hk (by decide)

/-- A device with an empty root directory, mounted on `/`. -/
def emptyDevice : Device := deviceOf ((1024 + 40, 8) :: signature)

def rootMounted (v : Volume) : MountTable Filesystem Device :=
  ⟨[⟨rootString, ext2Fs v, emptyDevice⟩], some 0, []⟩

theorem rootFs_mounted {v : Volume} {dev : Device} (hv : mount dev = .ok (.ok v)) :
    Mounted ⟨[⟨rootString, ext2Fs v, dev⟩], some 0, []⟩ := by
  refine ⟨⟨fun _ => ⟨0, rfl⟩, fun i hi => ?_⟩, by simp, fun m hm => ?_⟩
  · cases hi
    exact newest_append_root [] _ rfl
  · rw [List.mem_singleton.mp hm]
    exact ⟨v, hv, rfl⟩

def emptyStat : Stat := ⟨0, 0, 0, 0, 0, 0, 0, 0⟩

/-- `/x` is not there: `stat` refuses it, and `open` answers descriptor 3. -/
theorem open_missing :
    ∃ v, mount emptyDevice = .ok (.ok v) ∧ resolve v missingPath = .ok (-ENOENT) ∧
      ¬OpensLikeStat (fun _ => missingPath) (openCall 0x1000) (freshProcess 2)
        ⟨rootMounted v, ⟨[], none⟩, true⟩ emptyStat := by
  obtain ⟨v, hv, hres⟩ : ∃ v, mount emptyDevice = .ok (.ok v) ∧
      resolve v missingPath = .ok (-ENOENT) := ⟨_, rfl, by decide +kernel⟩
  refine ⟨v, hv, hres, fun hagree => ?_⟩
  have hlooks : LooksOn (rootMounted v) missingPath v := ⟨0, _, rfl, rfl, hv⟩
  have hmounted : Mounted (rootMounted v) := rootFs_mounted hv
  obtain ⟨⟨e, hrefused, -⟩, -⟩ := hagree.missing v hlooks hres
  rw [vfsOpen_eq _ hmounted hlooks] at hrefused
  cases hrefused

/-- `/x/y/x`, a path with a missing component. -/
def behindPath : CString := ⟨[0x2F, 0x78, 0x2F, 0x79, 0x2F, 0x78], by decide⟩

/-- `open` and `stat` agree about `/x`, though a lookup of `/x/y/x` left the cursor at its last `x`. -/
theorem open_agrees_file :
    ∃ v s, mount fileDevice = .ok (.ok v) ∧ findFileInode v behindPath ⟨[], none⟩ = .ok (-ENOENT, s) ∧
      Pending s [0x78] ∧ OpensLikeStat (fun _ => missingPath) (openCall 0x1000) (freshProcess 2)
        ⟨⟨[⟨rootString, ext2Fs v, fileDevice⟩], some 0, []⟩, s, true⟩ emptyStat := by
  obtain ⟨v, hv, hfile, hbehind, inode, hread⟩ : ∃ v, mount fileDevice = .ok (.ok v) ∧
      resolve v missingPath = .ok 3 ∧
      findFileInode v behindPath ⟨[], none⟩ =
        .ok (-ENOENT, ⟨[[0x2F, 0x78, 0, 0x79, 0, 0x78, 0]], some ⟨0, 5⟩⟩) ∧
      ∃ inode, readInode v 3 = .ok inode :=
    ⟨_, rfl, by decide +kernel, rfl, _, rfl⟩
  have hpending : Pending ⟨[[0x2F, 0x78, 0, 0x79, 0, 0x78, 0]], some ⟨0, 5⟩⟩ [0x78] :=
    ⟨⟨0, 5⟩, rfl, rfl, by decide⟩
  have hmounted : Mounted ⟨[⟨rootString, ext2Fs v, fileDevice⟩], some 0, []⟩ :=
    rootFs_mounted hv
  refine ⟨v, _, hv, hbehind, hpending, ?_⟩
  refine (open_agrees_iff hmounted (.inr ⟨[0x78], hpending⟩) ⟨3, freeEntry_some rfl⟩).mpr ?_
  -- the `x` before the cursor leads to the file too
  exact ⟨v, 3, inode, ⟨0, _, rfl, rfl, hv⟩, hfile, by decide, hread,
    .inr ⟨[0x78], 3, inode, hpending, hfile, by decide, hread⟩, rfl⟩

end Levos.Kernel
