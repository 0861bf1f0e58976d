import Levos.Ext2.ReadNamed
import Levos.Vfs.FindMount
import Mathlib.Data.List.FinRange

namespace Levos.Kernel

open Levos.Framework Levos.Lib Levos.Ext2 Levos.Vfs

/-- `struct file`, of a file that `ext2_open` made. The path stays where the caller has it. -/
structure PathFile where
  fs : Volume
  respath : BitVec 32
  isdir : Int
  pos : BitVec 32

/-- The file with the string that its path points to now. -/
def PathFile.now (f : PathFile) (text : BitVec 32 → CString) : File :=
  ⟨f.fs, text f.respath, f.isdir, f.pos⟩

/-- `ext2_open`, with the pointer that it is given. -/
def openAt (fs : Option Volume) (p : BitVec 32) (room : Bool) : Except Int PathFile :=
  match fs with
  | none => .error (-EINVAL)
  | some fs =>
    if p = 0 then .error (-EINVAL)
    else if room then .ok ⟨fs, p, -1, 0⟩
    else .error (-ENOMEM)

/-- At the time of the call it makes the file that `ext2_open` makes of the string. -/
theorem openAt_now (fs : Option Volume) (p : BitVec 32) (room : Bool) (text : BitVec 32 → CString) :
    (openAt fs p room).map (·.now text) = open' fs (if p = 0 then none else some (text p)) room := by
  cases fs with
  | none => rfl
  | some fs =>
    by_cases hp : p = 0
    · simp only [openAt, if_pos hp]
      rfl
    · simp only [openAt, if_neg hp]
      cases room <;> rfl

/-- `vfs_open`. -/
def vfsOpenAt (mounts : MountTable Volume Device) (text : BitVec 32 → CString) (p : BitVec 32)
    (room : Bool) : Except Fault (Except Int PathFile) :=
  match (findMount mounts (text p)).bind (mounts.mounts[·]?) with
  | none => .error .nullPointer
  | some m => .ok (openAt (some m.fs) p room)

/-- A program: the string at each address of its memory, the files of its `file_table` (or the error
code that went for one; the console is left out), and the cursor and the copies of `strtok`. -/
structure Program where
  text : BitVec 32 → CString
  fileTable : Fin 128 → Option (Except Int PathFile)
  strings : Strings

/-- What a program does: it writes to its memory, or makes a system call. A read gets a buffer of `count`
bytes, and what it leaves in the memory comes as a write of its own; `mem` is what `kmalloc` has for the
staging buffer. -/
inductive Op
  | overwrite (text : BitVec 32 → CString)
  | open (p : BitVec 32) (room : Bool)
  | read (fd : Fin 128) (bytes : Nat → BitVec 8) (count : BitVec 32) (mem : Option (Nat → BitVec 8))
  | close (fd : Fin 128)

namespace Program

def set (s : Program) (fd : Fin 128) (file : Option (Except Int PathFile)) : Program :=
  { s with fileTable := Function.update s.fileTable fd file }

/-- The scan of `syscall_open` for a free entry. -/
def freeFile (s : Program) : Option (Fin 128) :=
  (List.finRange 128).find? fun i => decide (3 ≤ i.val) && (s.fileTable i).isNone

/-- `syscall_open`, `syscall_read` and `syscall_close`, and the program's own writes. -/
def step (mounts : MountTable Volume Device) (s : Program) : Op → Except Fault Program
  | .overwrite text => .ok { s with text := text }
  | .open p room => do
    let filp ← vfsOpenAt mounts s.text p room
    match s.freeFile with
    | some fd => return s.set fd (some filp)
    | none => return s
  | .read fd bytes count mem =>
    match s.fileTable fd with
    | none => .ok s
    | some (.error _) => .error .outOfBounds
    | some (.ok f) => do
      let r ← readFile (f.now s.text) (some ⟨count.toNat, bytes⟩) count mem s.strings
      return { s.set fd (some (.ok { f with pos := r.2.2.1.pos })) with strings := r.2.2.2 }
  | .close fd => .ok (s.set fd none)

end Program

/-- One step of a program. -/
def Steps (mounts : MountTable Volume Device) (s : Program) (op : Op) (s' : Program) : Prop :=
  s.step mounts op = .ok s'

/-- A read on the descriptor returns data of the file, whatever stands in the staging buffer. -/
def ReadRight (fd : Fin 128) (inode : Inode) (s : Program) : Op → Prop
  | .read fd' bytes count mem => fd' = fd → ∃ f, s.fileTable fd = some (.ok f) ∧
      ∀ mem' : Option (Nat → BitVec 8), (mem' = none ↔ mem = none) →
        ReturnsData (f.now s.text) inode ⟨count.toNat, bytes⟩ count mem' s.strings
  | _ => True

/-- The string that the path points to at a read on the descriptor leads to a file with the same data. -/
def ReadMeets (fd : Fin 128) (inode : Inode) (s : Program) : Op → Prop
  | .read fd' _ count mem => fd' = fd → ∃ f, s.fileTable fd = some (.ok f) ∧
      (count ≠ 0 → StillNamed (f.now s.text) inode count mem s.strings)
  | _ => True

/-- The descriptor is that of a file on the volume, and the cursor is reset or in the text of a path. -/
structure Held (fd : Fin 128) (v : Volume) (s : Program) : Prop where
  file : ∃ f, s.fileTable fd = some (.ok f) ∧ f.fs = v ∧ 0 ≤ f.pos.toInt
  cursor : s.strings.sp = none ∨ ∃ u, Pending s.strings u

section Descriptor

variable {mounts : MountTable Volume Device} {s s' : Program} {fd : Fin 128} {v : Volume} {inode : Inode}
  {op : Op}

theorem set_fileTable (s : Program) (fd : Fin 128) (file : Option (Except Int PathFile)) (i : Fin 128) :
    (s.set fd file).fileTable i = if i = fd then file else s.fileTable i := Function.update_apply ..

theorem freeFile_some (h : s.freeFile = some fd) : s.fileTable fd = none := by
  have hfound := List.find?_some h
  rw [Bool.and_eq_true, Option.isNone_iff_eq_none] at hfound
  exact hfound.2

/-- A read of no bytes is right. -/
theorem returnsData_zero (f : File) (inode : Inode) (buf : Buffer) (mem : Option (Nat → BitVec 8))
    (s : Strings) : ReturnsData f inode buf 0 mem s := by
  refine ⟨⟨buf, f, s, rfl, rfl, fun i => ?_, rfl, rfl, rfl, by simp⟩, fun h => absurd rfl h⟩
  simp

/-- Another descriptor is set. -/
theorem Held.set_ne {fd' : Fin 128} (h : Held fd v s) (hne : fd ≠ fd')
    (file : Option (Except Int PathFile)) : Held fd v (s.set fd' file) := by
  obtain ⟨⟨f, hf, hfs, hpos⟩, hcursor⟩ := h
  refine ⟨⟨f, ?_, hfs, hpos⟩, hcursor⟩
  rw [set_fileTable, if_neg hne]
  exact hf

/-- A read on the descriptor that is right moves the position on by the count. -/
theorem Held.pos_of_right {bytes : Nat → BitVec 8} {count : BitVec 32} {mem : Option (Nat → BitVec 8)}
    {f : PathFile} {n : Int} {buf : Option Buffer} {g : File} {strings : Strings} (h : Held fd v s)
    (hf : s.fileTable fd = some (.ok f)) (hright : ReadRight fd inode s (.read fd bytes count mem))
    (hread : readFile (f.now s.text) (some ⟨count.toNat, bytes⟩) count mem s.strings =
      .ok (n, buf, g, strings)) : f.fs = v ∧ 0 ≤ g.pos.toInt := by
  obtain ⟨⟨f₀, hf₀, hfs, hpos⟩, -⟩ := h
  cases hf.symm.trans hf₀
  obtain ⟨f', hf', hdata⟩ := hright rfl
  cases hf.symm.trans hf'
  obtain ⟨⟨buf', g', s'', hok, -, -, -, -, -, hadv⟩, -⟩ := hdata mem Iff.rfl
  cases hread.symm.trans hok
  have hnow : (f.now s.text).pos = f.pos := rfl
  rw [hnow] at hadv
  exact ⟨hfs, by omega⟩

/-- A step that does not close the descriptor, and is right where it reads it, leaves it held. -/
theorem step_held (h : Held fd v s) (hclose : op ≠ .close fd) (hright : ReadRight fd inode s op)
    (hstep : s.step mounts op = .ok s') : Held fd v s' := by
  obtain ⟨f, hf, -⟩ := h.file
  cases op with
  | overwrite text =>
    cases hstep
    exact ⟨h.file, h.cursor⟩
  | «open» p room =>
    obtain ⟨filp, -, hstep⟩ := bind_eq_ok.mp hstep
    cases hfree : s.freeFile with
    | none =>
      simp only [hfree] at hstep
      cases hstep
      exact h
    | some fd' =>
      simp only [hfree] at hstep
      cases hstep
      apply h.set_ne
      intro heq
      rw [heq, freeFile_some hfree] at hf
      cases hf
  | close fd' =>
    cases hstep
    apply h.set_ne
    intro heq
    exact hclose (congrArg Op.close heq.symm)
  | read fd' bytes count mem =>
    rw [Program.step] at hstep
    cases hg : s.fileTable fd' with
    | none =>
      simp only [hg] at hstep
      cases hstep
      exact h
    | some g =>
      cases g with
      | error e =>
        simp only [hg] at hstep
        cases hstep
      | ok g =>
        simp only [hg] at hstep
        obtain ⟨⟨n, buf, g', strings⟩, hread, hret⟩ := bind_eq_ok.mp hstep
        cases hret
        have hcursor := readFile_cursor hread h.cursor
        by_cases hfd : fd = fd'
        · cases hfd
          obtain ⟨hfs, hpos⟩ := h.pos_of_right hg hright hread
          refine ⟨⟨{ g with pos := g'.pos }, ?_, hfs, hpos⟩, hcursor⟩
          change (s.set fd _).fileTable fd = _
          rw [set_fileTable, if_pos rfl]
        · exact ⟨(h.set_ne hfd _).file, hcursor⟩

/-- A read is right exactly when the string that the path points to leads to a file with the same data. -/
theorem readRight_iff {dev : Device} (hmount : mount dev = .ok (.ok v)) (h : Held fd v s) :
    ReadRight fd inode s op ↔ ReadMeets fd inode s op := by
  obtain ⟨⟨f, hf, hfs, hpos⟩, hcursor⟩ := h
  cases op with
  | overwrite text => exact Iff.rfl
  | «open» p room => exact Iff.rfl
  | close fd' => exact Iff.rfl
  | read fd' bytes count mem =>
    apply imp_congr_right
    intro _
    apply exists_congr
    intro g
    apply and_congr_right
    intro hg
    cases hf.symm.trans hg
    by_cases hcount : count = 0
    · subst hcount
      exact iff_of_true (fun _ _ => returnsData_zero ..) (fun h0 => absurd rfl h0)
    · have hvolume : mount dev = .ok (.ok (f.now s.text).fs) := by
        rw [hmount, ← hfs]
        rfl
      rw [imp_iff_right hcount]
      exact returnsData_iff hvolume hcount hpos hcursor

/-- A file that is opened keeps the pointer, and the volume of one of the mounts. -/
theorem vfsOpenAt_ok {text : BitVec 32 → CString} {p : BitVec 32} {room : Bool} {f : PathFile}
    (h : vfsOpenAt mounts text p room = .ok (.ok f)) : ∃ m ∈ mounts.mounts, f = ⟨m.fs, p, -1, 0⟩ := by
  rw [vfsOpenAt] at h
  cases hm : (findMount mounts (text p)).bind (mounts.mounts[·]?) with
  | none =>
    rw [hm] at h
    cases h
  | some m =>
    rw [hm] at h
    obtain ⟨i, -, hi⟩ := Option.bind_eq_some_iff.mp hm
    refine ⟨m, List.mem_of_getElem? hi, ?_⟩
    have hopen : openAt (some m.fs) p room = .ok f := Except.ok.inj h
    by_cases hp : p = 0
    · simp only [openAt, if_pos hp] at hopen
      cases hopen
    · simp only [openAt, if_neg hp] at hopen
      cases room with
      | false => cases hopen
      | true =>
        cases hopen
        rfl

/-- Every read on a descriptor returns data of the file that the path named when it was opened exactly
when, at every read, the string in the path buffer leads to a file with the same data. -/
theorem descriptor_reads_iff {s₁ : Program} {p : BitVec 32} {room : Bool} {f : PathFile} {ops : List Op}
    (hmounts : ∀ m ∈ mounts.mounts, mount m.dev = .ok (.ok m.fs))
    (hsp : s.strings.sp = none ∨ ∃ u, Pending s.strings u)
    (hopen : s.step mounts (.open p room) = .ok s₁) (hfree : s.freeFile = some fd)
    (hfile : s₁.fileTable fd = some (.ok f)) (hheld : .close fd ∉ ops) :
    (∀ inode, Names f.fs (s.text p) inode →
      EachLabel (Steps mounts) s₁ ops (ReadRight fd inode)) ↔
    ∀ inode, Names f.fs (s.text p) inode →
      EachLabel (Steps mounts) s₁ ops (ReadMeets fd inode) := by
  obtain ⟨filp, hvfs, hret⟩ := bind_eq_ok.mp hopen
  simp only [hfree] at hret
  cases hret
  rw [set_fileTable, if_pos rfl] at hfile
  cases hfile
  obtain ⟨m, hm, hf⟩ := vfsOpenAt_ok hvfs
  have hmount : mount m.dev = .ok (.ok f.fs) := by
    rw [hf]
    exact hmounts m hm
  have hheldAt : Held fd f.fs (s.set fd (some (.ok f))) := by
    refine ⟨⟨f, ?_, rfl, ?_⟩, hsp⟩
    · rw [set_fileTable, if_pos rfl]
    · have hzero : 0 ≤ (0 : BitVec 32).toInt := by decide
      rw [hf]
      exact hzero
  apply forall_congr'
  intro inode
  apply imp_congr_right
  intro _
  apply eachLabel_iff (I := Held fd f.fs) hheldAt
  · intro t op _ ht
    exact readRight_iff hmount ht
  · intro t op t' hop ht hright hst
    refine step_held ht ?_ hright hst
    intro heq
    exact hheld (heq ▸ hop)

end Descriptor

/-- The root directory holds the files `x`, with an `X` in it, and `y`, with a `Y`. -/
def twoFiles : List (Nat × BitVec 8) := [
  (2 * 1024 + 8, 3), (3 * 1024 + 168, 4),                              -- the inode table and the root
  (3 * 1024 + 257, 0x80), (3 * 1024 + 261, 4), (3 * 1024 + 296, 5),     -- the inode of `x`
  (3 * 1024 + 385, 0x80), (3 * 1024 + 389, 4), (3 * 1024 + 424, 6),     -- the inode of `y`
  (4 * 1024, 3), (4 * 1024 + 4, 12), (4 * 1024 + 6, 1), (4 * 1024 + 8, 0x78),
  (4 * 1024 + 12, 4), (4 * 1024 + 16, 0xF4), (4 * 1024 + 17, 3), (4 * 1024 + 18, 1), (4 * 1024 + 20, 0x79),
  (5 * 1024, 0x58), (6 * 1024, 0x59)]

def twoFileDevice : Device := deviceOf ((1024 + 20, 1) :: (1024 + 40, 8) :: signature ++ twoFiles)

def twoFileVolume : Volume := { blank with disk := twoFileDevice.sectors }

def twoFileMounts : MountTable Volume Device := ⟨[⟨rootString, twoFileVolume, twoFileDevice⟩], some 0, []⟩

/-- `/y`. -/
def pathY : CString := ⟨[0x2F, 0x79], by decide⟩

/-- `//x`. -/
def pathXX : CString := ⟨[0x2F, 0x2F, 0x78], by decide⟩

/-- A program with `/x` in its buffer and no file open. -/
def fresh : Program := ⟨fun _ => missingPath, fun _ => none, ⟨[], none⟩⟩

/-- The program when `/x` is open as `fd`. -/
def opened (fd : Fin 128) : Program := fresh.set fd (some (.ok ⟨twoFileVolume, 0x1000, -1, 0⟩))

/-- A read of one byte. -/
def readOne (fd : Fin 128) : Op := .read fd (fun _ => 0) 1 (some fun _ => 0)

theorem fresh_opened :
    mount twoFileDevice = .ok (.ok twoFileVolume) ∧
      fresh.step twoFileMounts (.open 0x1000 true) = .ok (opened 3) ∧ fresh.freeFile = some 3 ∧
      (opened 3).fileTable 3 = some (.ok ⟨twoFileVolume, 0x1000, -1, 0⟩) := by
  refine ⟨rfl, rfl, rfl, rfl⟩

theorem readOne_fits (path : CString) :
    ReadFits ⟨twoFileVolume, path, -1, 0⟩ 1 (some fun _ => 0) ⟨[], none⟩ := by
  have hblocks : FitsAt 1024 0 1 := ⟨by decide, by decide, by decide⟩
  have hint : (0 : BitVec 32).toNat + (1 : BitVec 32).toNat < 2 ^ 31 := by decide
  exact ⟨.inl rfl, by simp, hint, hblocks⟩

/-- The first byte of a file, by its first block. -/
theorem firstByte {inode : Inode} {block : BitVec 32} (h : inode.dbp 0 = block) :
    fileByte twoFileVolume inode 0 = twoFileVolume.blockByte block 0 := by
  rw [← h]
  rfl

/-- With `/y` written over the path, the descriptor of `/x` reads the `Y`. -/
theorem reads_overwritten :
    mount twoFileDevice = .ok (.ok twoFileVolume) ∧
      fresh.step twoFileMounts (.open 0x1000 true) = .ok (opened 3) ∧ fresh.freeFile = some 3 ∧
      ∃ inode, Names twoFileVolume (fresh.text 0x1000) inode ∧
        ¬EachLabel (Steps twoFileMounts) (opened 3) [.overwrite fun _ => pathY, readOne 3]
          (ReadRight 3 inode) := by
  obtain ⟨hmount, hopen, hfree, -⟩ := fresh_opened
  have hresolve : resolve twoFileVolume missingPath = .ok 3 := by decide +kernel
  obtain ⟨inode, hinode, hblock⟩ : ∃ inode, readInode twoFileVolume 3 = .ok inode ∧
      inode.dbp 0 = 5 := ⟨_, rfl, rfl⟩
  refine ⟨hmount, hopen, hfree, inode, ⟨3, hresolve, by decide, hinode⟩, ?_⟩
  intro hright
  obtain ⟨f, hf, hdata⟩ := hright [.overwrite fun _ => pathY] (readOne 3) [] _ rfl (.single rfl) rfl
  cases hf
  obtain ⟨⟨buf', f', s', hok, -, hbytes, -⟩, -⟩ := hdata (some fun _ => 0) Iff.rfl
  -- what the read does with the file that the path leads to now
  have hresolveY : resolve twoFileVolume pathY = .ok 4 := by decide +kernel
  obtain ⟨inodeY, hinodeY, hblockY⟩ : ∃ inode, readInode twoFileVolume 4 = .ok inode ∧
      inode.dbp 0 = 6 := ⟨_, rfl, rfl⟩
  have hfound : Found ⟨twoFileVolume, pathY, -1, 0⟩ inodeY :=
    found_of_names hmount ⟨4, hresolveY, by decide, hinodeY⟩
  have hexact : ReadsExactly ⟨twoFileVolume, pathY, -1, 0⟩ inodeY ⟨1, fun _ => 0⟩ 1 (some fun _ => 0)
      ⟨[], none⟩ := (readOne_fits pathY).exact hfound (by decide) (by decide) (by decide)
  obtain ⟨buf, f'', s'', hokY, -, hbytesY, -⟩ := hexact
  cases hok.symm.trans hokY
  have hX : buf'.byte 0 = fileByte twoFileVolume inode 0 := hbytes 0
  have hY : buf'.byte 0 = fileByte twoFileVolume inodeY 0 := hbytesY 0
  rw [hX, firstByte hblock, firstByte hblockY] at hY
  exact absurd hY (by decide +kernel)

/-- With another spelling of the path written over it, the descriptor reads on in `/x`. -/
theorem reads_respelled :
    ∃ inode, Names twoFileVolume (fresh.text 0x1000) inode ∧
      EachLabel (Steps twoFileMounts) (opened 3) [.overwrite fun _ => pathXX, readOne 3]
        (ReadRight 3 inode) := by
  obtain ⟨hmount, hopen, hfree, hfile⟩ := fresh_opened
  have hmounts : ∀ m ∈ twoFileMounts.mounts, mount m.dev = .ok (.ok m.fs) := by
    intro m hm
    rw [List.mem_singleton.mp hm]
    exact hmount
  have hresolve : resolve twoFileVolume missingPath = .ok 3 := by decide +kernel
  have hrespelled : resolve twoFileVolume pathXX = .ok 3 := by decide +kernel
  obtain ⟨inode, hinode, hsize⟩ : ∃ inode, readInode twoFileVolume 3 = .ok inode ∧
      inode.size = 1024 := ⟨_, rfl, rfl⟩
  have hnames : Names twoFileVolume missingPath inode := ⟨3, hresolve, by decide, hinode⟩
  refine ⟨inode, hnames, ?_⟩
  apply (descriptor_reads_iff hmounts (.inl rfl) hopen hfree hfile (by simp [readOne])).mpr ?_ inode hnames
  intro inode' hnames'
  obtain ⟨k, hk, -, hinode'⟩ := hnames'
  cases hresolve.symm.trans hk
  cases hinode.symm.trans hinode'
  refine EachLabel.cons ?_ ?_
  · exact trivial
  · intro t ht
    cases ht
    refine EachLabel.cons ?_ (fun _ _ => .nil)
    intro _
    refine ⟨_, hfile, fun _ => ⟨⟨inode, ⟨3, hrespelled, by decide, hinode⟩, fun _ _ => rfl⟩, ?_, ?_⟩⟩
    · rw [hsize]
      decide
    · exact readOne_fits pathXX

end Levos.Kernel
