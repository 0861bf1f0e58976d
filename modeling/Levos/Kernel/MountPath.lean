import Levos.Ext2.Entries
import Levos.Kernel.FileSystem

namespace Levos.Kernel

open Levos.Framework Levos.Lib Levos.Ext2 Levos.Vfs

/-- A mount, made on `/` and alone. -/
def onRoot (m : Mount Filesystem Device) : MountTable Filesystem Device :=
  ⟨[{ m with point := rootString }], some 0, []⟩

/-- A path with a slash before it. -/
def slashed (rest : CString) : CString where
  bytes := 0x2F :: rest.bytes
  noNul := noNul_cons.mpr ⟨by decide, rest.noNul⟩

/-- The path `rest` below a mount point. -/
def below (point rest : CString) : CString where
  bytes := point.bytes ++ (slashed rest).bytes
  noNul := List.not_mem_append point.noNul (slashed rest).noNul

/-- The arguments of a `read`, and what `kmalloc` has for the staging buffer. -/
structure ReadCall where
  buf : Buffer
  count : BitVec 32
  mem : Option (Nat → BitVec 8)

/-- Reads of a file one after the other, up to the first that answers an error: what each answers, and
what it leaves in the buffer. -/
def readAll : File → List ReadCall → Strings → Except Fault (List (Int × Option Buffer))
  | _, [], _ => .ok []
  | f, c :: cs, s => do
    let (n, buf, f, s) ← readFile f (some c.buf) c.count c.mem s
    if n < 0 then return [(n, buf)]
    else
      let rest ← readAll f cs s
      return (n, buf) :: rest

/-- What `vfs_stat` answers, and what it leaves in the buffer. -/
def statAnswer (mounts : MountTable Filesystem Device) (path : CString) (buf : Option Stat) (room : Bool)
    (s : Strings) : Except Fault (Int × Option Stat) :=
  (vfsStat mounts path buf room s).map fun r => (r.1, r.2.1)

/-- A path below the mount point of `m` stands for `rest` on the volume of `m`: a file that is opened
leads there, and `stat` and reads answer what they answer with the volume on `/`. -/
structure Restricted (mounts : MountTable Filesystem Device) (m : Mount Filesystem Device) (v : Volume)
    (rest : CString) : Prop where
  opens : ∀ room f, vfsOpen mounts (below m.point rest) room = .ok (.ok (.ext2 f)) →
    f.fs = v ∧ resolve f.fs f.respath = resolve v rest
  stats : ∀ buf room s, s.sp = none → statAnswer mounts (below m.point rest) buf room s =
    statAnswer (onRoot m) (slashed rest) buf room s
  reads : ∀ room f g, vfsOpen mounts (below m.point rest) room = .ok (.ok (.ext2 f)) →
    vfsOpen (onRoot m) (slashed rest) room = .ok (.ok (.ext2 g)) →
    ∀ cs s, s.sp = none → readAll f cs s = readAll g cs s

section Agreement

variable {v : Volume} {p q : CString} {s t : Strings}

theorem findFileInode_alike (h : resolve v p = resolve v q) (hs : s.sp = none) (ht : t.sp = none) :
    Alike (fun a b => a.1 = b.1 ∧ resolve v p = .ok a.1 ∧
        (0 ≤ a.1 → a.2.sp = none ∧ b.2.sp = none))
      (findFileInode v p s) (findFileInode v q t) := by
  rcases findFileInode_spec p (.inl ⟨hs, rfl⟩) with ⟨e, hp, hres⟩ | ⟨k, s', hp, hres, -, hclean⟩
  · rcases findFileInode_spec q (.inl ⟨ht, rfl⟩) with ⟨e', hq, hres'⟩ | ⟨k', t', hq, hres', -⟩
    · rw [hp, hq]
      have he : (.error e : Except Fault Int) = .error e' := hres.symm.trans (h.trans hres')
      cases he
      exact rfl
    · cases hres.symm.trans (h.trans hres')
  · obtain ⟨t', hq, -, hclean'⟩ := findFileInode_of_resolve q (.inl ⟨ht, rfl⟩) (h.symm.trans hres)
    rw [hp, hq]
    exact ⟨rfl, hres, fun hpos => ⟨hclean hpos, hclean' hpos⟩⟩

theorem stat_alike (h : resolve v p = resolve v q) (hs : s.sp = none) (ht : t.sp = none)
    (buf : Option Stat) (room : Bool) :
    Alike (fun a b => a.1 = b.1 ∧ a.2.1 = b.2.1) (Ext2.stat (some v) (some p) buf room s)
      (Ext2.stat (some v) (some q) buf room t) := by
  cases buf with
  | none => exact ⟨rfl, rfl⟩
  | some buf =>
    apply (findFileInode_alike h hs ht).bind
    rintro ⟨k, s'⟩ ⟨k', t'⟩ ⟨hk, -, -⟩
    cases hk
    dsimp only
    by_cases hneg : k < 0
    · simp only [if_pos hneg]
      exact ⟨rfl, rfl⟩
    · simp only [if_neg hneg]
      by_cases hroom : room = false
      · simp only [if_pos hroom]
        exact ⟨rfl, rfl⟩
      · simp only [if_neg hroom]
        apply Alike.same
        intro inode
        exact ⟨rfl, rfl⟩

end Agreement

section Reads

variable {f : File} {q : CString} {s t : Strings}

theorem fileReadBlock_alike {k : Int} (h : resolve f.fs f.respath = resolve f.fs q)
    (hk : resolve f.fs f.respath = .ok k) (hpos : 0 ≤ k) (hs : s.sp = none) (ht : t.sp = none)
    (block : Buffer) (off : Nat) (b : BitVec 32) :
    Alike (fun x y => x.1 = y.1 ∧ x.2.1 = y.2.1 ∧ x.2.2.sp = none ∧ y.2.2.sp = none)
      (fileReadBlock f block off b s) (fileReadBlock { f with respath := q } block off b t) := by
  apply (findFileInode_alike h hs ht).bind
  rintro ⟨i, s'⟩ ⟨j, t'⟩ ⟨hij, hi, hclean⟩
  cases hij
  have hik : k = i := Except.ok.inj (hk.symm.trans hi)
  rw [hik] at hpos
  have hcursors := hclean hpos
  have hfound : ¬i < 0 := Int.not_lt.mpr hpos
  simp only [if_neg hfound]
  apply Alike.same
  intro inode
  by_cases hdirect : b.toNat < 12
  · simp only [if_pos hdirect]
    apply Alike.same
    intro block'
    exact ⟨rfl, rfl, hcursors⟩
  · simp only [if_neg hdirect]
    by_cases hindirect : b.toNat < f.fs.blocksize / 4
    · simp only [if_pos hindirect]
      apply Alike.same
      intro bb
      exact rfl
    · simp only [if_neg hindirect]
      exact ⟨rfl, rfl, hcursors⟩

theorem readBlocks_alike {k : Int} (h : resolve f.fs f.respath = resolve f.fs q)
    (hk : resolve f.fs f.respath = .ok k) (hpos : 0 ≤ k) (hs : s.sp = none) (ht : t.sp = none)
    (c : Int) (is : List Nat) (block : Buffer) :
    Alike (fun x y => x.1 = y.1 ∧ x.2.sp = none ∧ y.2.sp = none)
      (readBlocks f c is block s) (readBlocks { f with respath := q } c is block t) := by
  induction is generalizing block s t with
  | nil => exact ⟨rfl, hs, ht⟩
  | cons i is ih =>
    apply (fileReadBlock_alike h hk hpos hs ht _ _ _).bind
    rintro ⟨n, block₁, s₁⟩ ⟨n', block₂, t₁⟩ ⟨-, hblock, hs₁, ht₁⟩
    cases hblock
    exact ih hs₁ ht₁ block₁

/-- A read under another path that leads to the same file answers the same, and goes on alike unless it
answers an error. -/
theorem readFile_alike (h : resolve f.fs f.respath = resolve f.fs q) (hs : s.sp = none)
    (ht : t.sp = none) (buf : Buffer) (count : BitVec 32) (mem : Option (Nat → BitVec 8)) :
    Alike (fun x y => x.1 = y.1 ∧ x.2.1 = y.2.1 ∧ y.2.2.1 = { x.2.2.1 with respath := q } ∧
        x.2.2.1.fs = f.fs ∧ x.2.2.1.respath = f.respath ∧
        (0 ≤ x.1 → x.2.2.2.sp = none ∧ y.2.2.2.sp = none))
      (readFile f (some buf) count mem s) (readFile { f with respath := q } (some buf) count mem t) := by
  unfold readFile
  by_cases hcount : count = 0
  · rw [if_pos hcount, if_pos hcount]
    exact ⟨rfl, rfl, rfl, rfl, rfl, fun _ => ⟨hs, ht⟩⟩
  · rw [if_neg hcount, if_neg hcount]
    apply (findFileInode_alike h hs ht).bind
    rintro ⟨k, s'⟩ ⟨k', t'⟩ ⟨hk, hres, hclean⟩
    cases hk
    dsimp only
    by_cases hneg : k < 0
    · simp only [if_pos hneg]
      refine ⟨rfl, rfl, rfl, rfl, rfl, ?_⟩
      intro hpos
      exact absurd hneg (Int.not_lt.mpr hpos)
    · have hpos : 0 ≤ k := Int.not_lt.mp hneg
      have hcursors := hclean hpos
      simp only [if_neg hneg]
      by_cases hzero : f.fs.blocksize = 0
      · simp only [if_pos hzero]
        exact rfl
      · simp only [if_neg hzero]
        cases mem with
        | none => exact ⟨rfl, rfl, rfl, rfl, rfl, fun _ => hcursors⟩
        | some stale =>
          apply (readBlocks_alike h hres hpos hcursors.1 hcursors.2 _ _ _).bind
          rintro ⟨block, s₁⟩ ⟨block', t₁⟩ ⟨hblock, hs₁, ht₁⟩
          cases hblock
          apply Alike.same
          intro buf'
          exact ⟨rfl, rfl, rfl, rfl, rfl, fun _ => ⟨hs₁, ht₁⟩⟩

theorem readAll_renamed (cs : List ReadCall) (h : resolve f.fs f.respath = resolve f.fs q)
    (hs : s.sp = none) (ht : t.sp = none) : readAll f cs s = readAll { f with respath := q } cs t := by
  induction cs generalizing f s t with
  | nil => rfl
  | cons c cs ih =>
    have hread := readFile_alike h hs ht c.buf c.count c.mem
    rw [readAll, readAll]
    cases hf : readFile f (some c.buf) c.count c.mem s with
    | error e =>
      rw [hf] at hread
      cases hg : readFile { f with respath := q } (some c.buf) c.count c.mem t with
      | error e' =>
        rw [hg] at hread
        exact congrArg _ hread
      | ok r =>
        rw [hg] at hread
        exact hread.elim
    | ok r =>
      rw [hf] at hread
      cases hg : readFile { f with respath := q } (some c.buf) c.count c.mem t with
      | error e =>
        rw [hg] at hread
        exact hread.elim
      | ok r' =>
        rw [hg] at hread
        obtain ⟨hn, hbuf, hfile, hfs, hpath, hclean⟩ := hread
        simp only [ok_bind, hn, hbuf, hfile]
        by_cases hneg : r'.1 < 0
        · rw [if_pos hneg, if_pos hneg]
        · rw [if_neg hneg, if_neg hneg]
          have hcursors := hclean (by rw [hn]; exact Int.not_lt.mp hneg)
          have hsame : resolve r.2.2.1.fs r.2.2.1.respath = resolve r.2.2.1.fs q := by
            rw [hfs, hpath]
            exact h
          rw [ih hsame hcursors.1 hcursors.2]

end Reads

section Mounts

variable {mounts : MountTable Filesystem Device} {m : Mount Filesystem Device} {v : Volume}
  {rest : CString} {i : Nat}

theorem resolve_slashed (v : Volume) (rest : CString) : resolve v (slashed rest) = resolve v rest := by
  have hslash : (0x2F : BitVec 8) ∈ slash := by decide
  rw [resolve, slashed, inPlace, inPlaceFrom, if_pos hslash]
  rfl

/-- The components of the mount point are looked up on the volume before those of the rest. -/
theorem resolve_below (v : Volume) (point rest : CString) :
    ∃ parts, parts.map cstr = tokens slash point.bytes ∧ resolve v (below point rest) = (do
      let k ← resolveFrom v 2 parts
      if k < 0 then .ok (-ENOENT) else resolveFrom v k (inPlace slash rest.bytes)) := by
  have hslash : (0x2F : BitVec 8) ∈ slash := by decide
  obtain ⟨parts, hparts, hnames⟩ := inPlace_append hslash point.noNul rest.bytes
  refine ⟨parts, hnames, ?_⟩
  rw [← resolveFrom_append v (by decide), ← hparts]
  rfl

theorem onRoot_mounted (hv : mount m.dev = .ok (.ok v)) (hfs : m.fs = ext2Fs v) : Mounted (onRoot m) := by
  refine ⟨⟨fun _ => ⟨0, rfl⟩, ?_⟩, by simp [onRoot], ?_⟩
  · intro i hi
    cases hi
    exact newest_append_root [] _ rfl
  · intro m' hm'
    rw [List.mem_singleton.mp hm']
    exact ⟨v, hv, hfs⟩

theorem Mounted.fs_eq (hm : Mounted mounts) (hmount : mounts.mounts[i]? = some m)
    (hv : mount m.dev = .ok (.ok v)) : m.fs = ext2Fs v := by
  obtain ⟨v', hv', hfs⟩ := hm.volumes m (List.mem_of_getElem? hmount)
  cases hv.symm.trans hv'
  exact hfs

/-- With one mount, every path is looked for there. -/
theorem onRoot_looksOn (hv : mount m.dev = .ok (.ok v)) (hfs : m.fs = ext2Fs v) (path : CString) :
    LooksOn (onRoot m) path v := by
  obtain ⟨i, m', v', hi, hm', hv', -⟩ := (onRoot_mounted hv hfs).volume path
  have hdev : m'.dev = m.dev := by
    have hmem := List.mem_of_getElem? hm'
    rw [List.mem_singleton.mp hmem]
  refine ⟨i, m', hi, hm', ?_⟩
  rw [hdev]
  exact hv

/-- A path below a mount point stands for the rest of it exactly when, on the volume itself, the whole
path leads where the rest does: nothing takes the mount point off. -/
theorem restricted_iff (hm : Mounted mounts) (hi : findMount mounts (below m.point rest) = some i)
    (hmount : mounts.mounts[i]? = some m) (hv : mount m.dev = .ok (.ok v)) :
    Restricted mounts m v rest ↔ resolve v (below m.point rest) = resolve v rest := by
  have hlooks : LooksOn mounts (below m.point rest) v := ⟨i, m, hi, hmount, hv⟩
  have hopen (room : Bool) := vfsOpen_eq room hm hlooks
  constructor
  · intro hright
    exact (hright.opens true _ (hopen true)).2
  · intro hsame
    have hroot : Mounted (onRoot m) := onRoot_mounted hv (hm.fs_eq hmount hv)
    have hlooksRoot : LooksOn (onRoot m) (slashed rest) v := onRoot_looksOn hv (hm.fs_eq hmount hv) _
    have hslashed : resolve v (below m.point rest) = resolve v (slashed rest) := by
      rw [hsame, resolve_slashed]
    constructor
    · intro room f hf
      rw [hopen room] at hf
      cases room with
      | false => cases hf
      | true =>
        cases hf
        exact ⟨rfl, hsame⟩
    · intro buf room s hs
      rw [statAnswer, statAnswer, vfsStat_eq hm hlooks, vfsStat_eq hroot hlooksRoot]
      apply (stat_alike hslashed hs hs buf room).map_eq
      rintro a b ⟨hn, hbuf⟩
      rw [hn, hbuf]
    · intro room f g hf hg cs s hs
      rw [hopen room] at hf
      rw [vfsOpen_eq room hroot hlooksRoot] at hg
      cases room with
      | false => cases hf
      | true =>
        cases hf
        cases hg
        exact readAll_renamed cs hslashed hs hs

end Mounts

/-- `/m`. -/
def pointM : CString := ⟨[0x2F, 0x6D], by decide⟩

/-- A device on `/m`. -/
def mountM (dev : Device) (w : Volume) : Mount Filesystem Device := ⟨pointM, ext2Fs w, dev⟩

/-- A device on `/m`, below an empty one. -/
def belowRoot (dev : Device) (v w : Volume) : MountTable Filesystem Device :=
  ⟨[⟨rootString, ext2Fs v, emptyDevice⟩, mountM dev w], some 0, []⟩

theorem belowRoot_mounted {dev : Device} {v w : Volume} (hv : mount emptyDevice = .ok (.ok v))
    (hw : mount dev = .ok (.ok w)) : Mounted (belowRoot dev v w) := by
  refine ⟨⟨fun _ => ⟨0, rfl⟩, ?_⟩, by simp [belowRoot], ?_⟩
  · intro i hi
    cases hi
    have hroot : Newest [⟨rootString, ext2Fs v, emptyDevice⟩] 0 := newest_append_root [] _ rfl
    have hpoint : pointM.bytes ≠ rootPoint := by decide
    exact hroot.append (m := mountM dev w) hpoint
  · intro m hm
    simp only [belowRoot, List.mem_cons, List.not_mem_nil, or_false] at hm
    rcases hm with hm | hm
    · rw [hm]
      exact ⟨v, hv, rfl⟩
    · rw [hm]
      exact ⟨w, hw, rfl⟩

/-- With the volume on `/m`, `/m/x` is looked for in a directory `m` of the volume. -/
theorem restricted_missing :
    ∃ v w, mount emptyDevice = .ok (.ok v) ∧ mount (recordDevice 1024) = .ok (.ok w) ∧
      findMount (belowRoot (recordDevice 1024) v w) (below pointM nameX) = some 1 ∧
      ¬Restricted (belowRoot (recordDevice 1024) v w) (mountM (recordDevice 1024) w) w nameX := by
  obtain ⟨v, hv⟩ : ∃ v, mount emptyDevice = .ok (.ok v) := ⟨_, rfl⟩
  refine ⟨v, recordVolume 1024, hv, rfl, rfl, ?_⟩
  intro hright
  have hlooks : LooksOn (belowRoot (recordDevice 1024) v (recordVolume 1024)) (below pointM nameX)
      (recordVolume 1024) := ⟨1, _, rfl, rfl, rfl⟩
  have hopen := vfsOpen_eq true (belowRoot_mounted hv rfl) hlooks
  have hsame := (hright.opens true _ hopen).2
  have hmissing : resolve (recordVolume 1024) (below pointM nameX) = .ok (-ENOENT) := by decide +kernel
  have hfound : resolve (recordVolume 1024) nameX = .ok 3 := by decide +kernel
  cases hmissing.symm.trans (hsame.trans hfound)

/-- The root directory holds itself as `m`, and `x`. -/
def loopedBytes : List (Nat × BitVec 8) := [
  (2 * 1024 + 8, 3), (3 * 1024 + 168, 4),
  (3 * 1024 + 257, 0x80), (3 * 1024 + 261, 4), (3 * 1024 + 296, 5),
  (4 * 1024, 2), (4 * 1024 + 4, 12), (4 * 1024 + 6, 1), (4 * 1024 + 8, 0x6D),
  (4 * 1024 + 12, 3), (4 * 1024 + 16, 0xF4), (4 * 1024 + 17, 3), (4 * 1024 + 18, 1),
  (4 * 1024 + 20, 0x78)]

def loopedDevice : Device := deviceOf ((1024 + 20, 1) :: (1024 + 40, 8) :: signature ++ loopedBytes)

def loopedVolume : Volume := { blank with disk := loopedDevice.sectors }

/-- On a volume whose directory `m` is the root directory itself, the mount point makes no difference. -/
theorem restricted_looped :
    ∃ v, mount emptyDevice = .ok (.ok v) ∧ resolve loopedVolume nameX = .ok 3 ∧
      Restricted (belowRoot loopedDevice v loopedVolume) (mountM loopedDevice loopedVolume) loopedVolume
        nameX := by
  obtain ⟨v, hv⟩ : ∃ v, mount emptyDevice = .ok (.ok v) := ⟨_, rfl⟩
  have hlooped : mount loopedDevice = .ok (.ok loopedVolume) := rfl
  have hfound : resolve loopedVolume nameX = .ok 3 := by decide +kernel
  refine ⟨v, hv, hfound, ?_⟩
  apply (restricted_iff (i := 1) (belowRoot_mounted hv hlooped) rfl rfl hlooped).mpr
  rw [hfound]
  decide +kernel

end Levos.Kernel
