import Levos.Ext2.EndOfFile

namespace Levos.Kernel

open Levos.Framework Levos.Lib Levos.Ext2

/-- `elf_header_t`, without the fields that the kernel never reads. -/
structure ElfHeader where
  type : BitVec 16
  entry : BitVec 32
  phoff : BitVec 32
  phnum : BitVec 16

/-- `elf_program_header_t`, without the fields that the kernel never reads. -/
structure ElfProgramHeader where
  type : BitVec 32
  offset : BitVec 32
  vaddr : BitVec 32
  paddr : BitVec 32
  filesz : BitVec 32
  memsz : BitVec 32

def elfHeaderSize : Nat := 52

def elfProgramHeaderSize : Nat := 32

def ElfHeader.read (b : Buffer) : Except Fault ElfHeader := do
  let type ← b.load16 16
  let entry ← b.load32 24
  let phoff ← b.load32 28
  let phnum ← b.load16 44
  return { type := type, entry := entry, phoff := phoff, phnum := phnum }

def ElfProgramHeader.read (b : Buffer) (off : Nat) : Except Fault ElfProgramHeader := do
  let type ← b.load32 off
  let offset ← b.load32 (off + 4)
  let vaddr ← b.load32 (off + 8)
  let paddr ← b.load32 (off + 12)
  let filesz ← b.load32 (off + 16)
  let memsz ← b.load32 (off + 20)
  return {
    type := type, offset := offset, vaddr := vaddr, paddr := paddr, filesz := filesz, memsz := memsz }

/-- For which of its requests `kmalloc` has room: the staging buffers of the three reads, and the table
of program headers. -/
structure ElfRoom where
  probeStaging : Bool
  headerStaging : Bool
  table : Bool
  tableStaging : Bool

/-- What stands in memory before it is written: the variables on the stack, and what `kmalloc` gives. -/
structure ElfMemory where
  magic : Nat → BitVec 8
  probeStaging : Nat → BitVec 8
  header : Nat → BitVec 8
  headerStaging : Nat → BitVec 8
  table : Nat → BitVec 8
  tableStaging : Nat → BitVec 8

def staged (room : Bool) (bytes : Nat → BitVec 8) : Option (Nat → BitVec 8) :=
  if room then some bytes else none

/-- `filp->fops->read` into a buffer of the caller, who does not look at what it answers. -/
def fileRead (f : File) (buf : Buffer) (count : Nat) (mem : Option (Nat → BitVec 8)) (s : Strings) :
    Except Fault (Buffer × File × Strings) := do
  let r ← readFile f (some buf) (BitVec.ofNat 32 count) mem s
  return (r.2.1.getD buf, r.2.2.1, r.2.2.2)

/-- `elf_probe`. -/
def elfProbe (f : File) (room : Bool) (magic staging : Nat → BitVec 8) (s : Strings) :
    Except Fault (Int × File × Strings) := do
  let r ← fileRead f ⟨4, magic⟩ 4 (staged room staging) s
  return (if r.1.bytes 0 4 = [0x7F, 0x45, 0x4C, 0x46] then 1 else 0, r.2)

/-- What `elf_load` answers, the header it has read, and the program headers it has visited. -/
structure Loaded where
  ret : Int
  header : Option ElfHeader
  visited : List ElfProgramHeader

/-- The loop over the program headers, with `n` of them to go from header `i` on. -/
def visitHeaders (ph : Buffer) : Nat → Nat → Except Fault (List ElfProgramHeader)
  | 0, _ => .ok []
  | n + 1, i => do
    let header ← ElfProgramHeader.read ph (elfProgramHeaderSize * i)
    let rest ← visitHeaders ph n (i + 1)
    return header :: rest

/-- The part of `elf_load` behind the read of the header. -/
def elfLoadTable (f : File) (header : ElfHeader) (room : ElfRoom) (mem : ElfMemory) (s : Strings) :
    Except Fault (Loaded × Strings) := do
  if 2 ≤ header.type.toNat then return (⟨-ENOEXEC, some header, []⟩, s)
  else
    let size := elfProgramHeaderSize * header.phnum.toNat
    if room.table = false then return (⟨-ENOMEM, some header, []⟩, s)
    else
      let f := setPosition f header.phoff
      let r ← fileRead f ⟨size, mem.table⟩ size (staged room.tableStaging mem.tableStaging) s
      let visited ← visitHeaders r.1 header.phnum.toNat 0
      return (⟨-ENOSYS, some header, visited⟩, r.2.2)

/-- `elf_load`. -/
def elfLoad (f : File) (room : ElfRoom) (mem : ElfMemory) (s : Strings) :
    Except Fault (Loaded × Strings) := do
  let f := setPosition f 0
  let p ← elfProbe f room.probeStaging mem.magic mem.probeStaging s
  if p.1 = 0 then return (⟨-EBADF, none, []⟩, p.2.2)
  else
    let r ← fileRead p.2.1 ⟨elfHeaderSize, mem.header⟩ elfHeaderSize
      (staged room.headerStaging mem.headerStaging) p.2.2
    let header ← ElfHeader.read r.1
    elfLoadTable r.2.1 header room mem r.2.2

/-- `elf_type_as_string`. -/
def elfTypeAsString (t : BitVec 8) : String :=
  match t.toNat with
  | 1 => "relocatable"
  | 2 => "executable"
  | 3 => "shared"
  | 4 => "core"
  | _ => "unknown"

/-- What the command `elf` prints. -/
inductive ElfLine
  | openFailed (fd : Int)
  | file (fd : Int) (isElf : Bool)
  | type (name : String)
  | entry (e : BitVec 32)
  | ret (r : Int)

/-- The part of `cmd_elf` from the open file up to the call of `elf_load`. -/
def cmdElfReport (fd : Int) (fp : File) (room : ElfRoom) (mem : ElfMemory) (s : Strings) :
    Except Fault (List ElfLine × Option File × Strings) := do
  if fd ≤ 0 then return ([.openFailed fd], none, s)
  else
    let p ← elfProbe fp room.probeStaging mem.magic mem.probeStaging s
    if p.1 = 0 then return ([.file fd false], none, p.2.2)
    else
      let r ← fileRead p.2.1 ⟨elfHeaderSize, mem.header⟩ elfHeaderSize
        (staged room.headerStaging mem.headerStaging) p.2.2
      let header ← ElfHeader.read r.1
      return ([.file fd true, .type (elfTypeAsString (header.type.setWidth 8)), .entry header.entry],
        some r.2.1, r.2.2)

/-- `cmd_elf` from the open file on. -/
def cmdElf (fd : Int) (fp : File) (room loadRoom : ElfRoom) (mem loadMem : ElfMemory) (s : Strings) :
    Except Fault (List ElfLine × Strings) := do
  let r ← cmdElfReport fd fp room mem s
  match r.2.1 with
  | none => return (r.1, r.2.2)
  | some fp =>
    let l ← elfLoad fp loadRoom loadMem r.2.2
    return (r.1 ++ [.ret l.1.ret], l.2)

section Contents

variable (v : Volume) (inode : Inode)

/-- The half word at byte `i` of a file. -/
def fileHalf (i : Nat) : BitVec 16 := dataByte v inode (i + 1) ++ dataByte v inode i

def fileWord (i : Nat) : BitVec 32 :=
  dataByte v inode (i + 3) ++ dataByte v inode (i + 2) ++ dataByte v inode (i + 1) ++ dataByte v inode i

/-- The file begins with a 32-bit ELF header. -/
structure BeginsWithElf : Prop where
  magic : (List.range 4).map (dataByte v inode) = [0x7F, 0x45, 0x4C, 0x46]
  class32 : dataByte v inode 4 = 1
  size : elfHeaderSize ≤ inode.size.toNat

/-- The header that one reads from byte `off` on. -/
def headerAt (off : Nat) : ElfHeader where
  type := fileHalf v inode (off + 16)
  entry := fileWord v inode (off + 24)
  phoff := fileWord v inode (off + 28)
  phnum := fileHalf v inode (off + 44)

def programHeaderAt (off : Nat) : ElfProgramHeader where
  type := fileWord v inode off
  offset := fileWord v inode (off + 4)
  vaddr := fileWord v inode (off + 8)
  paddr := fileWord v inode (off + 12)
  filesz := fileWord v inode (off + 16)
  memsz := fileWord v inode (off + 20)

/-- The program headers of a file with this header, one behind the other. -/
def programHeaders (header : ElfHeader) : List ElfProgramHeader :=
  (List.range header.phnum.toNat).map fun i =>
    programHeaderAt v inode (header.phoff.toNat + elfProgramHeaderSize * i)

end Contents

/-- Whatever stands in memory, `elf_load` finds the fields where the file has them, and visits the
program headers of the file. -/
def LoadsRight (f : File) (inode : Inode) (room : ElfRoom) (s : Strings) : Prop :=
  ∀ mem, ∃ l s' header, elfLoad f room mem s = .ok (l, s') ∧ l.header = some header ∧
    header.type = fileHalf f.fs inode 16 ∧ header.phoff = fileWord f.fs inode 28 ∧
    header.phnum = fileHalf f.fs inode 44 ∧
    l.visited = programHeaders f.fs inode (headerAt f.fs inode 0)

/-- So it does after a probe. -/
def ProbeKeeps (f : File) (inode : Inode) (room : ElfRoom) (s : Strings) : Prop :=
  ∀ probeRoom magic staging r, elfProbe f probeRoom magic staging s = .ok r →
    LoadsRight r.2.1 inode room r.2.2

/-- The command reports the type and the entry point that the file has. -/
def ReportsRight (fd : Int) (fp : File) (inode : Inode) (room : ElfRoom) (s : Strings) : Prop :=
  ∀ mem, ∃ r, cmdElfReport fd fp room mem s = .ok r ∧ r.1 = [.file fd true,
    .type (elfTypeAsString ((fileHalf fp.fs inode 16).setWidth 8)), .entry (fileWord fp.fs inode 24)]

/-- And so it does in the command, behind what the command has read. -/
def ReportLoads (fd : Int) (fp : File) (inode : Inode) (shell room : ElfRoom) (s : Strings) : Prop :=
  ∀ mem lines f' s', cmdElfReport fd fp shell mem s = .ok (lines, some f', s') →
    LoadsRight f' inode room s'

/-- The table of program headers is at a position, and of a size, that can be read. -/
structure TableFits (v : Volume) (phoff : BitVec 32) (phnum : BitVec 16) : Prop where
  placed : 0 ≤ phoff.toInt ∨ phoff.toNat = v.blocksize
  blocks : FitsAt v.blocksize phoff.toNat (elfProgramHeaderSize * phnum.toNat)

section Reads

variable {v : Volume} {f : File} {inode : Inode} {s s' : Strings} {buf : Buffer} {k : Int}
  {off n i : Nat} {mem : Option (Nat → BitVec 8)}

theorem toNat_count (hmax : n < 2 ^ 31) : (BitVec.ofNat 32 n).toNat = n := by
  rw [BitVec.toNat_ofNat, Nat.mod_eq_of_lt (by omega)]

theorem count_ne_zero (hn : 0 < n) (hmax : n < 2 ^ 31) : BitVec.ofNat 32 n ≠ 0 := by
  intro h0
  have hcount := toNat_count hmax
  rw [h0] at hcount
  exact absurd hcount (by simp; omega)

/-- A read that fits delivers the bytes of the file. -/
theorem fileRead_fits (h : Found f inode) (hn : 0 < n) (hmax : n < 2 ^ 31) (hplaced : Placed f)
    (hcursor : Rests f.fs s) (hfits : FitsAt f.fs.blocksize f.pos.toNat n) (bytes stale : Nat → BitVec 8) :
    ∃ buf s', fileRead f ⟨n, bytes⟩ n (some stale) s =
        .ok (buf, { f with pos := f.pos + BitVec.ofNat 32 n }, s') ∧
      buf.size = n ∧ s'.sp = none ∧ ∀ i < n, buf.byte i = dataByte f.fs inode (f.pos.toNat + i) := by
  have hcount := toNat_count hmax
  rw [← hcount] at hfits
  obtain ⟨buf, s', hread, hsize, hclean, hbytes⟩ := hfits.readFile h ⟨n, bytes⟩
    (count_ne_zero hn hmax) hplaced (by rw [hcount]) hcursor stale
  refine ⟨buf, s', ?_, hsize, hclean, ?_⟩
  · rw [fileRead, hread]
    rfl
  · intro i hi
    rw [hbytes i, if_pos (by omega), dataByte, if_pos (hfits.direct_of_lt (by omega))]

/-- Without a file or without room the buffer stays as it was. -/
theorem fileRead_keeps (hbs : f.fs.blocksize ≠ 0) (hn : 0 < n) (hmax : n < 2 ^ 31)
    (hfind : findFileInode f.fs f.respath s = .ok (k, s')) (hkept : k < 0 ∨ mem = none) :
    fileRead f buf n mem s = .ok (buf, f, s') := by
  have hcount := count_ne_zero hn hmax
  by_cases hk : k < 0
  · rw [fileRead, readFile_miss hcount hfind hk]
    rfl
  · rw [fileRead, hkept.resolve_left hk, readFile_noRoom hcount hbs hfind (Int.not_lt.mp hk)]
    rfl

theorem fileRead_looked (hn : 0 < n) (hmax : n < 2 ^ 31) {r : Buffer × File × Strings}
    (hok : fileRead f buf n mem s = .ok r) : ∃ k s', findFileInode f.fs f.respath s = .ok (k, s') := by
  obtain ⟨r', hread, -⟩ := bind_eq_ok.mp hok
  simp only [readFile, if_neg (count_ne_zero hn hmax)] at hread
  obtain ⟨⟨k, s'⟩, hfind, -⟩ := bind_eq_ok.mp hread
  exact ⟨k, s', hfind⟩

theorem half_of_bytes (hi : i + 2 ≤ buf.size)
    (hbytes : ∀ j < buf.size, buf.byte j = dataByte v inode (off + j)) :
    buf.load16 i = .ok (fileHalf v inode (off + i)) := by
  rw [Buffer.load16, if_pos hi, hbytes _ (by omega), hbytes _ (by omega)]
  rfl

theorem word_of_bytes (hi : i + 4 ≤ buf.size)
    (hbytes : ∀ j < buf.size, buf.byte j = dataByte v inode (off + j)) :
    buf.load32 i = .ok (fileWord v inode (off + i)) := by
  rw [Buffer.load32, if_pos hi, hbytes _ (by omega), hbytes _ (by omega), hbytes _ (by omega),
    hbytes _ (by omega)]
  rfl

theorem headerRead_of_bytes (hsize : buf.size = elfHeaderSize)
    (hbytes : ∀ j < buf.size, buf.byte j = dataByte v inode (off + j)) :
    ElfHeader.read buf = .ok (headerAt v inode off) := by
  have hin : 52 ≤ buf.size := Nat.le_of_eq hsize.symm
  rw [ElfHeader.read, half_of_bytes (by omega) hbytes, word_of_bytes (by omega) hbytes,
    word_of_bytes (by omega) hbytes, half_of_bytes (by omega) hbytes]
  rfl

theorem programHeaderRead_of_bytes (hin : i + elfProgramHeaderSize ≤ buf.size)
    (hbytes : ∀ j < buf.size, buf.byte j = dataByte v inode (off + j)) :
    ElfProgramHeader.read buf i = .ok (programHeaderAt v inode (off + i)) := by
  have hin' : i + 32 ≤ buf.size := hin
  rw [ElfProgramHeader.read, word_of_bytes (by omega) hbytes, word_of_bytes (by omega) hbytes,
    word_of_bytes (by omega) hbytes, word_of_bytes (by omega) hbytes, word_of_bytes (by omega) hbytes,
    word_of_bytes (by omega) hbytes]
  rfl

/-- The loop visits the headers of the table in order. -/
theorem visitHeaders_of_bytes (hin : elfProgramHeaderSize * (i + n) ≤ buf.size)
    (hbytes : ∀ j < buf.size, buf.byte j = dataByte v inode (off + j)) :
    visitHeaders buf n i = .ok ((List.range' i n).map fun i =>
      programHeaderAt v inode (off + elfProgramHeaderSize * i)) := by
  induction n generalizing i with
  | zero => rfl
  | succ n ih =>
    have hfirst : elfProgramHeaderSize * i + elfProgramHeaderSize ≤ buf.size := by
      rw [← Nat.mul_succ]
      exact Nat.le_trans (Nat.mul_le_mul_left _ (by omega)) hin
    have hrest : elfProgramHeaderSize * (i + 1 + n) ≤ buf.size := by
      rwa [Nat.add_assoc, Nat.add_comm 1 n]
    rw [visitHeaders, programHeaderRead_of_bytes hfirst hbytes, ih hrest, List.range'_succ]
    rfl

/-- The first byte of the table is the first one of the first header. -/
theorem visitHeaders_first {l : List ElfProgramHeader} (h : visitHeaders buf (n + 1) 0 = .ok l) :
    ∃ header rest, l = header :: rest ∧ header.type.setWidth 8 = buf.byte 0 := by
  obtain ⟨header, hread, h⟩ := bind_eq_ok.mp h
  obtain ⟨rest, -, h⟩ := bind_eq_ok.mp h
  refine ⟨header, rest, (Except.ok.inj h).symm, ?_⟩
  obtain ⟨type, htype, hread⟩ := bind_eq_ok.mp hread
  obtain ⟨_, -, hread⟩ := bind_eq_ok.mp hread
  obtain ⟨_, -, hread⟩ := bind_eq_ok.mp hread
  obtain ⟨_, -, hread⟩ := bind_eq_ok.mp hread
  obtain ⟨_, -, hread⟩ := bind_eq_ok.mp hread
  obtain ⟨_, -, hread⟩ := bind_eq_ok.mp hread
  cases hread
  rw [Buffer.load32] at htype
  split at htype
  · cases htype
    exact BitVec.setWidth_append_eq_right
  · cases htype

/-- Reads of blocks of a file that is there leave the cursor reset. -/
theorem readBlocks_clean (h : Found f inode) {c : Int} {is : List Nat} {buf' : Buffer}
    (hok : readBlocks f c is buf s = .ok (buf', s')) (hs : s.sp = none) : s'.sp = none := by
  induction is generalizing buf s with
  | nil =>
    cases hok
    exact hs
  | cons i is ih =>
    obtain ⟨⟨n, buf₁, s₁⟩, hfirst, hrest⟩ := bind_eq_ok.mp hok
    obtain ⟨k, hfind⟩ := (fileReadBlock_cases hfirst).1
    obtain ⟨k', s₂, hfind', -, -, hclean⟩ := h.find hs
    cases hfind.symm.trans hfind'
    exact ih hrest hclean

/-- A read of a file that is found leaves the cursor reset. -/
theorem fileRead_clean (h : Found f inode) (hn : 0 < n) (hmax : n < 2 ^ 31) (hcursor : Rests f.fs s)
    {r : Buffer × File × Strings} (hok : fileRead f buf n mem s = .ok r) :
    r.2.2.sp = none ∧ r.2.1.fs = f.fs ∧ r.2.1.respath = f.respath := by
  obtain ⟨k, s', hfind, hk, hclean⟩ := hcursor.find h
  have hbs := h.bounds.1
  cases mem with
  | none =>
    cases (fileRead_keeps (by omega) hn hmax hfind (.inr rfl)).symm.trans hok
    exact ⟨hclean, rfl, rfl⟩
  | some stale =>
    obtain ⟨⟨e, b, f', s₁⟩, hread, hret⟩ := bind_eq_ok.mp hok
    cases hret
    refine ⟨?_, readFile_same hread⟩
    simp only [readFile, if_neg (count_ne_zero hn hmax), hfind, ok_bind, if_neg (Int.not_lt.mpr hk),
      if_neg (by omega : ¬f.fs.blocksize = 0)] at hread
    obtain ⟨⟨block, s₂⟩, hblocks, hread⟩ := bind_eq_ok.mp hread
    obtain ⟨buf₂, -, hret⟩ := bind_eq_ok.mp hread
    cases hret
    exact readBlocks_clean h hblocks hclean

end Reads

/-- Memory with the same byte everywhere. -/
def ElfMemory.all (x : BitVec 8) : ElfMemory :=
  ⟨fun _ => x, fun _ => x, fun _ => x, fun _ => x, fun _ => x, fun _ => x⟩

/-- A probe that finds the magic, and the read of the header behind it: what `elf_load` and `cmd_elf`
have in common. -/
def HeaderRead (f : File) (room : ElfRoom) (mem : ElfMemory) (s : Strings) (header : ElfHeader) (f' : File)
    (s' : Strings) : Prop :=
  ∃ p buf, elfProbe f room.probeStaging mem.magic mem.probeStaging s = .ok p ∧ p.1 ≠ 0 ∧
    fileRead p.2.1 ⟨elfHeaderSize, mem.header⟩ elfHeaderSize (staged room.headerStaging mem.headerStaging)
      p.2.2 = .ok (buf, f', s') ∧ ElfHeader.read buf = .ok header

section Probe

variable {f f' : File} {inode : Inode} {s s' : Strings} {room : ElfRoom} {mem : ElfMemory}
  {header : ElfHeader}
  {k : Int}

theorem fits_first (h : Found f inode) {pos n : Nat} (hin : pos + n < 1024) :
    FitsAt f.fs.blocksize pos n := by
  obtain ⟨hlow, hhigh, -⟩ := h.bounds
  have hpos : pos / f.fs.blocksize = 0 := Nat.div_eq_of_lt (by omega)
  have hn : n / f.fs.blocksize = 0 := Nat.div_eq_of_lt (by omega)
  have hposmod : pos % f.fs.blocksize = pos := Nat.mod_eq_of_lt (by omega)
  have hnmod : n % f.fs.blocksize = n := Nat.mod_eq_of_lt (by omega)
  constructor
  · rw [hn]
    omega
  · omega
  · omega

/-- The probe of a file from its beginning leaves the position behind the magic. -/
theorem elfProbe_elf (h : Found f inode) (helf : BeginsWithElf f.fs inode) (hpos : f.pos = 0)
    (hcursor : Rests f.fs s) (magic staging : Nat → BitVec 8) :
    ∃ s', elfProbe f true magic staging s = .ok (1, { f with pos := 4 }, s') ∧ s'.sp = none := by
  have hzero : f.pos.toNat = 0 := congrArg BitVec.toNat hpos
  have hplaced : Placed f := .inl (by rw [hpos]; decide)
  have hfits : FitsAt f.fs.blocksize f.pos.toNat 4 := fits_first h (by omega)
  obtain ⟨buf, s', hread, hsize, hclean, hbytes⟩ :=
    fileRead_fits h (by omega) (by omega) hplaced hcursor hfits magic staging
  have hmagic : buf.bytes 0 4 = [0x7F, 0x45, 0x4C, 0x46] := by
    rw [← helf.magic]
    apply List.map_congr_left
    intro i hi
    have hbyte := hbytes i (List.mem_range.mp hi)
    rw [hzero, Nat.zero_add] at hbyte
    rw [Nat.zero_add, hbyte]
  have hnext : f.pos + BitVec.ofNat 32 4 = 4 := by
    rw [hpos]
    rfl
  refine ⟨s', ?_, hclean⟩
  simp only [elfProbe, staged, if_true, hread, ok_bind, if_pos hmagic, hnext]
  rfl

/-- A probe that reads nothing finds what stood on the stack. -/
theorem elfProbe_unread (hbs : f.fs.blocksize ≠ 0) {probeRoom : Bool}
    (hfind : findFileInode f.fs f.respath s = .ok (k, s')) (hkept : k < 0 ∨ probeRoom = false)
    (staging : Nat → BitVec 8) : elfProbe f probeRoom (fun _ => 0) staging s = .ok (0, f, s') := by
  have hmem : k < 0 ∨ staged probeRoom staging = none := by
    cases hkept with
    | inl hk => exact .inl hk
    | inr hroom => exact .inr (by rw [hroom]; rfl)
  rw [elfProbe, fileRead_keeps hbs (by omega) (by omega) hfind hmem]
  rfl

/-- The header is read from behind the magic. -/
theorem headerRead_shifted (h : Found f inode) (helf : BeginsWithElf f.fs inode) (hpos : f.pos = 0)
    (hcursor : Rests f.fs s) (hprobe : room.probeStaging = true) (hheader : room.headerStaging = true)
    (mem : ElfMemory) :
    ∃ f' s', HeaderRead f room mem s (headerAt f.fs inode 4) f' s' ∧ Found f' inode ∧ s'.sp = none ∧
      f'.fs = f.fs := by
  obtain ⟨s₁, hprobed, hs₁⟩ := elfProbe_elf h helf hpos hcursor mem.magic mem.probeStaging
  have hfits : FitsAt f.fs.blocksize 4 elfHeaderSize := fits_first h (by decide)
  have hplaced : Placed { f with pos := 4 } := .inl (by change 0 ≤ (4 : BitVec 32).toInt; decide)
  obtain ⟨buf, s', hread, hsize, hclean, hbytes⟩ := fileRead_fits (h.advance 4) (by decide) (by decide)
    hplaced (.inl hs₁) hfits mem.header mem.headerStaging
  have hfields : ElfHeader.read buf = .ok (headerAt f.fs inode 4) := by
    apply headerRead_of_bytes hsize
    rw [hsize]
    exact hbytes
  rw [← hprobe] at hprobed
  refine ⟨{ f with pos := 4 + BitVec.ofNat 32 elfHeaderSize }, s',
    ⟨_, buf, hprobed, Int.one_ne_zero, ?_, hfields⟩, h.advance _, hclean, rfl⟩
  rw [hheader]
  exact hread

theorem HeaderRead.unique {f'' : File} {s'' : Strings} {header' : ElfHeader}
    (h : HeaderRead f room mem s header f' s') (h' : HeaderRead f room mem s header' f'' s'') :
    header = header' ∧ f' = f'' ∧ s' = s'' := by
  obtain ⟨p, buf, hprobe, -, hread, hfields⟩ := h
  obtain ⟨p', buf', hprobe', -, hread', hfields'⟩ := h'
  cases hprobe.symm.trans hprobe'
  cases hread.symm.trans hread'
  cases hfields.symm.trans hfields'
  exact ⟨rfl, rfl, rfl⟩

/-- Where no magic stood on the stack before, the probe has found the file. -/
theorem HeaderRead.probed (hbs : f.fs.blocksize ≠ 0) (hsp : s.sp = none ∨ ∃ u, Pending s u)
    (h : HeaderRead f room (.all 0) s header f' s') : Rests f.fs s ∧ room.probeStaging = true := by
  obtain ⟨p, buf, hprobe, hfound, -⟩ := h
  obtain ⟨r, hread, -⟩ := bind_eq_ok.mp hprobe
  obtain ⟨k, s₁, hfind⟩ := fileRead_looked (by omega) (by omega) hread
  have hkept : ¬(k < 0 ∨ room.probeStaging = false) := by
    intro hkept
    cases (elfProbe_unread hbs hfind hkept _).symm.trans hprobe
    exact hfound rfl
  have hk : 0 ≤ k := Int.not_lt.mp fun hneg => hkept (.inl hneg)
  exact ⟨rests_of_find hsp hfind hk, by simpa using fun hroom => hkept (.inr hroom)⟩

/-- Without room to read it the header is what stood on the stack. -/
theorem HeaderRead.stack (h : Found f inode) (helf : BeginsWithElf f.fs inode) (hpos : f.pos = 0)
    (hcursor : Rests f.fs s) (hprobe : room.probeStaging = true) (hheader : room.headerStaging = false)
    {x : BitVec 8} (hread : HeaderRead f room (.all x) s header f' s') :
    header.type = x ++ x ∧ header.entry = x ++ x ++ x ++ x := by
  obtain ⟨p, buf, hprobed, -, hread, hfields⟩ := hread
  obtain ⟨s₁, hprobed', hs₁⟩ :=
    elfProbe_elf h helf hpos hcursor (ElfMemory.all x).magic (ElfMemory.all x).probeStaging
  rw [hprobe] at hprobed
  cases hprobed'.symm.trans hprobed
  obtain ⟨k, s₂, hfind, -⟩ := (h.advance 4).find hs₁
  have hmem : staged room.headerStaging (ElfMemory.all x).headerStaging = none := by rw [hheader]; rfl
  have hbs : f.fs.blocksize ≠ 0 := by
    have hlow := h.bounds.1
    omega
  have hkeeps : fileRead { f with pos := 4 } ⟨elfHeaderSize, fun _ => x⟩ elfHeaderSize
      (staged room.headerStaging (ElfMemory.all x).headerStaging) s₁ =
      .ok (⟨elfHeaderSize, fun _ => x⟩, { f with pos := 4 }, s₂) :=
    fileRead_keeps hbs (by decide) (by decide) hfind (.inr hmem)
  cases hkeeps.symm.trans hread
  cases hfields
  exact ⟨rfl, rfl⟩

end Probe

/-- What `elf_load` depends on for a file that begins with an ELF header: the fields are the same four
bytes further on, and the file has no program headers if its type is one that is rejected. -/
structure LoadMeets (v : Volume) (inode : Inode) (room : ElfRoom) (s : Strings) : Prop where
  cursor : Rests v s
  probeRoom : room.probeStaging = true
  headerRoom : room.headerStaging = true
  type : fileHalf v inode 20 = fileHalf v inode 16
  phoff : fileWord v inode 32 = fileWord v inode 28
  phnum : fileHalf v inode 48 = fileHalf v inode 44
  loadable : (fileHalf v inode 16).toNat < 2 ∨ fileHalf v inode 44 = 0
  table : fileHalf v inode 44 ≠ 0 →
    room.table = true ∧ room.tableStaging = true ∧
      TableFits v (fileWord v inode 28) (fileHalf v inode 44)

section Load

variable {f : File} {inode : Inode} {s s' : Strings} {room : ElfRoom} {mem : ElfMemory}
  {header : ElfHeader} {l : Loaded}

theorem programHeaders_congr {v : Volume} {a b : ElfHeader} (hphoff : a.phoff = b.phoff)
    (hphnum : a.phnum = b.phnum) : programHeaders v inode a = programHeaders v inode b := by
  rw [programHeaders, programHeaders, hphoff, hphnum]

theorem programHeaders_none {v : Volume} (h : header.phnum = 0) : programHeaders v inode header = [] := by
  rw [programHeaders, h]
  rfl

theorem size_lt (phnum : BitVec 16) : elfProgramHeaderSize * phnum.toNat < 2 ^ 31 := by
  have hlt := phnum.isLt
  rw [elfProgramHeaderSize]
  omega

theorem elfLoadTable_header (hok : elfLoadTable f header room mem s = .ok (l, s')) :
    l.header = some header := by
  rw [elfLoadTable] at hok
  split at hok
  · cases hok
    rfl
  · split at hok
    · cases hok
      rfl
    · obtain ⟨r, -, hok⟩ := bind_eq_ok.mp hok
      obtain ⟨visited, -, hok⟩ := bind_eq_ok.mp hok
      cases hok
      rfl

/-- With room for the table, and a table that can be read, its headers are visited. -/
theorem elfLoadTable_visits (h : Found f inode) (hs : s.sp = none) (mem : ElfMemory)
    (hloadable : header.type.toNat < 2 ∨ header.phnum = 0)
    (htable : header.phnum ≠ 0 → room.table = true ∧ room.tableStaging = true ∧
      TableFits f.fs header.phoff header.phnum) :
    ∃ l s', elfLoadTable f header room mem s = .ok (l, s') ∧
      l.visited = programHeaders f.fs inode header := by
  by_cases htype : 2 ≤ header.type.toNat
  · have hnum : header.phnum = 0 := hloadable.resolve_left (by omega)
    exact ⟨_, s, if_pos htype, (programHeaders_none hnum).symm⟩
  · rw [elfLoadTable, if_neg htype]
    by_cases hnum : header.phnum = 0
    · -- nothing is read, with or without room
      rw [programHeaders_none hnum]
      by_cases hroom : room.table = false
      · exact ⟨_, s, if_pos hroom, rfl⟩
      · rw [if_neg hroom, hnum]
        exact ⟨_, s, rfl, rfl⟩
    · obtain ⟨hroom, hstaging, hplaced, hblocks⟩ := htable hnum
      have hpos : 0 < elfProgramHeaderSize * header.phnum.toNat :=
        Nat.mul_pos (by decide) (BitVec.toNat_pos_of_ne_zero hnum)
      obtain ⟨buf, s', hread, hsize, -, hbytes⟩ := fileRead_fits (f := setPosition f header.phoff)
        (h.advance header.phoff) hpos (size_lt header.phnum) hplaced (.inl hs) hblocks mem.table
        mem.tableStaging
      have hvisit : visitHeaders buf header.phnum.toNat 0 = .ok ((List.range' 0 header.phnum.toNat).map
          fun i => programHeaderAt f.fs inode (header.phoff.toNat + elfProgramHeaderSize * i)) := by
        apply visitHeaders_of_bytes
        · rw [Nat.zero_add, hsize]
        · rw [hsize]
          exact hbytes
      rw [if_neg (by rw [hroom]; decide)]
      simp only [hstaging, staged, if_true, hread, ok_bind, hvisit]
      refine ⟨_, s', rfl, ?_⟩
      rw [programHeaders, List.range_eq_range']

/-- A read without room, or at a place that cannot be read, leaves the first byte of the buffer as it
was. -/
theorem fileRead_stale {n : Nat} {x : BitVec 8} {staging : Bool} {buf : Buffer} {f' : File}
    (h : Found f inode) (hs : s.sp = none) (hpos : 0 < n) (hmax : n < 2 ^ 31)
    (hnot : ¬(staging = true ∧ Placed f ∧ FitsAt f.fs.blocksize f.pos.toNat n))
    (hread : fileRead f ⟨n, fun _ => x⟩ n (staged staging fun _ => x) s = .ok (buf, f', s')) :
    buf.byte 0 = x := by
  have hbs := h.bounds.1
  obtain ⟨k, s₂, hfind, hk, -, hclean⟩ := h.find hs
  by_cases hstaging : staging = true
  · rw [hstaging] at hread
    obtain ⟨⟨e, b, f₂, s₃⟩, hfile, hret⟩ := bind_eq_ok.mp hread
    have hfar : ¬(Placed f ∧ f.pos.toNat / f.fs.blocksize < 12) := by
      intro hnear
      have hblocks := h.fitsAt (count_ne_zero hpos hmax) hnear.1 hnear.2 hfind hk hclean hfile
      rw [toNat_count hmax] at hblocks
      exact hnot ⟨hstaging, hnear.1, hblocks⟩
    cases b with
    | none =>
      cases hret
      rfl
    | some b =>
      cases hret
      exact readFile_stale h (count_ne_zero hpos hmax) hfar hfind hk hclean hfile
  · have hmem : staged staging (fun _ => x) = none := if_neg hstaging
    cases (fileRead_keeps (by omega) hpos hmax hfind (.inr hmem)).symm.trans hread
    rfl

/-- Otherwise the first header is what stood in memory before. -/
theorem elfLoadTable_stale (h : Found f inode) (hs : s.sp = none) {x : BitVec 8}
    (htype : header.type.toNat < 2) (hnum : header.phnum ≠ 0)
    (hnot : ¬(room.table = true ∧ room.tableStaging = true ∧ TableFits f.fs header.phoff header.phnum))
    (hok : elfLoadTable f header room (.all x) s = .ok (l, s'))
    (hvisited : l.visited = programHeaders f.fs inode header) :
    (programHeaderAt f.fs inode header.phoff.toNat).type.setWidth 8 = x := by
  obtain ⟨n, hn⟩ : ∃ n, header.phnum.toNat = n + 1 :=
    ⟨header.phnum.toNat - 1, by have := BitVec.toNat_pos_of_ne_zero hnum; omega⟩
  have hpos : 0 < elfProgramHeaderSize * header.phnum.toNat := by
    rw [hn]
    exact Nat.mul_pos (by decide) (by omega)
  rw [programHeaders, hn, List.range_succ_eq_map, List.map_cons] at hvisited
  rw [elfLoadTable, if_neg (by omega)] at hok
  by_cases hroom : room.table = false
  · rw [if_pos hroom] at hok
    cases hok
    cases hvisited
  · rw [if_neg hroom] at hok
    obtain ⟨⟨buf, f', s₁⟩, hread, hok⟩ := bind_eq_ok.mp hok
    obtain ⟨visited, hvisit, hok⟩ := bind_eq_ok.mp hok
    cases hok
    have hbyte : buf.byte 0 = x := by
      apply fileRead_stale (h.advance header.phoff) hs hpos (size_lt header.phnum) _ hread
      intro hfits
      exact hnot ⟨by simpa using hroom, hfits.1, hfits.2.1, hfits.2.2⟩
    rw [hn] at hvisit
    obtain ⟨first, rest, rfl, hfirst⟩ := visitHeaders_first hvisit
    injection hvisited with hsame
    rw [← hbyte, ← hfirst, hsame]
    rfl

/-- What is left of `elf_load` behind the read of the header. -/
theorem HeaderRead.elfLoad {f' : File} (h : HeaderRead (setPosition f 0) room mem s header f' s') :
    elfLoad f room mem s = elfLoadTable f' header room mem s' := by
  obtain ⟨p, buf, hprobe, hfound, hread, hfields⟩ := h
  simp only [Kernel.elfLoad, hprobe, ok_bind, if_neg hfound, hread, hfields]

/-- Where there is a header, it was read. -/
theorem headerRead_of_elfLoad (hok : elfLoad f room mem s = .ok (l, s'))
    (hheader : l.header = some header) :
    ∃ f' s₁, HeaderRead (setPosition f 0) room mem s header f' s₁ := by
  obtain ⟨p, hprobe, hok⟩ := bind_eq_ok.mp hok
  by_cases hfound : p.1 = 0
  · rw [if_pos hfound] at hok
    cases hok
    cases hheader
  · rw [if_neg hfound] at hok
    obtain ⟨⟨buf, f', s₁⟩, hread, hok⟩ := bind_eq_ok.mp hok
    obtain ⟨header', hfields, hok⟩ := bind_eq_ok.mp hok
    have hkept := elfLoadTable_header hok
    rw [hheader] at hkept
    cases hkept
    exact ⟨f', s₁, p, buf, hprobe, hfound, hread, hfields⟩

/-- Where no magic stands in memory the header came from the file. -/
theorem LoadsRight.probed (hright : LoadsRight f inode room s) (h : Found f inode)
    (hsp : s.sp = none ∨ ∃ u, Pending s u) : Rests f.fs s ∧ room.probeStaging = true := by
  obtain ⟨l, s', header, hok, hkept, -⟩ := hright (.all 0)
  obtain ⟨f', s₁, hread⟩ := headerRead_of_elfLoad hok hkept
  have hbs : (setPosition f 0).fs.blocksize ≠ 0 := by
    have hlow := h.bounds.1
    change f.fs.blocksize ≠ 0
    omega
  have hprobed : Rests (setPosition f 0).fs s ∧ room.probeStaging = true := hread.probed hbs hsp
  exact hprobed

/-- Otherwise the type in the header would be what stands in memory. -/
theorem LoadsRight.headerRoom (hright : LoadsRight f inode room s) (h : Found f inode)
    (helf : BeginsWithElf f.fs inode) (hcursor : Rests f.fs s) (hprobe : room.probeStaging = true) :
    room.headerStaging = true := by
  have hstart : Found (setPosition f 0) inode := h.advance 0
  by_contra hroom
  have hstack (x : BitVec 8) : fileHalf f.fs inode 16 = x ++ x := by
    obtain ⟨l, s', header, hok, hkept, htype, -⟩ := hright (.all x)
    obtain ⟨f', s₁, hread⟩ := headerRead_of_elfLoad hok hkept
    exact htype.symm.trans (hread.stack hstart helf rfl hcursor hprobe (by simpa using hroom)).1
  have hone := (hstack 0).symm.trans (hstack 1)
  exact absurd hone (by decide)

/-- Whatever stands in memory, the header is the one from byte 4 on. -/
theorem LoadsRight.shifted (hright : LoadsRight f inode room s) (h : Found f inode)
    (helf : BeginsWithElf f.fs inode) (hcursor : Rests f.fs s) (hprobe : room.probeStaging = true)
    (hheader : room.headerStaging = true) (mem : ElfMemory) :
    (headerAt f.fs inode 4).type = fileHalf f.fs inode 16 ∧
      (headerAt f.fs inode 4).phoff = fileWord f.fs inode 28 ∧
      (headerAt f.fs inode 4).phnum = fileHalf f.fs inode 44 ∧
      ∃ f' t l s', Found f' inode ∧ t.sp = none ∧ f'.fs = f.fs ∧
        elfLoadTable f' (headerAt f.fs inode 4) room mem t = .ok (l, s') ∧
        l.visited = programHeaders f.fs inode (headerAt f.fs inode 0) := by
  have hstart : Found (setPosition f 0) inode := h.advance 0
  obtain ⟨l, s', header, hok, hkept, htype, hphoff, hphnum, hvisited⟩ := hright mem
  obtain ⟨f₁, s₁, hread⟩ := headerRead_of_elfLoad hok hkept
  obtain ⟨f', t, hshifted, hfound, ht, hfs⟩ :=
    headerRead_shifted hstart helf rfl hcursor hprobe hheader mem
  obtain ⟨rfl, rfl, rfl⟩ := hread.unique hshifted
  exact ⟨htype, hphoff, hphnum, f₁, s₁, l, s', hfound, ht, hfs, hread.elfLoad.symm.trans hok, hvisited⟩

/-- A file of a type that is rejected has no program headers that could be missed. -/
theorem LoadsRight.loadable (hright : LoadsRight f inode room s) (h : Found f inode)
    (helf : BeginsWithElf f.fs inode) (hcursor : Rests f.fs s) (hprobe : room.probeStaging = true)
    (hheader : room.headerStaging = true) :
    (fileHalf f.fs inode 16).toNat < 2 ∨ fileHalf f.fs inode 44 = 0 := by
  obtain ⟨htype, -, -, f', t, l, s', -, -, -, hok, hvisited⟩ :=
    hright.shifted h helf hcursor hprobe hheader (.all 0)
  by_contra hnot
  obtain ⟨hlarge, hnum⟩ := not_or.mp hnot
  rw [elfLoadTable, if_pos (by rw [htype]; omega)] at hok
  cases hok
  have hlength := congrArg List.length hvisited
  rw [programHeaders, List.length_map, List.length_range] at hlength
  have hpos := BitVec.toNat_pos_of_ne_zero hnum
  exact absurd hlength (Nat.ne_of_lt hpos)

/-- Otherwise the first program header would be what stands in memory. -/
theorem LoadsRight.table (hright : LoadsRight f inode room s) (h : Found f inode)
    (helf : BeginsWithElf f.fs inode) (hcursor : Rests f.fs s) (hprobe : room.probeStaging = true)
    (hheader : room.headerStaging = true) (hnum : fileHalf f.fs inode 44 ≠ 0) :
    room.table = true ∧ room.tableStaging = true ∧
      TableFits f.fs (fileWord f.fs inode 28) (fileHalf f.fs inode 44) := by
  have hsmall := (hright.loadable h helf hcursor hprobe hheader).resolve_right hnum
  by_contra hnot
  have hstale (x : BitVec 8) :
      (programHeaderAt f.fs inode (fileWord f.fs inode 28).toNat).type.setWidth 8 = x := by
    obtain ⟨htype, hphoff, hphnum, f', t, l, s', hfound, ht, hfs, hok, hvisited⟩ :=
      hright.shifted h helf hcursor hprobe hheader (.all x)
    have hfirst :
        (programHeaderAt f'.fs inode (headerAt f.fs inode 4).phoff.toNat).type.setWidth 8 = x := by
      apply elfLoadTable_stale hfound ht _ _ _ hok
      · rw [hvisited, hfs]
        exact programHeaders_congr hphoff.symm hphnum.symm
      · rwa [htype]
      · rwa [hphnum]
      · rwa [hphoff, hphnum, hfs]
    rwa [hfs, hphoff] at hfirst
  have hone := (hstale 0).symm.trans (hstale 1)
  exact absurd hone (by decide)

theorem LoadMeets.loadsRight (hmeets : LoadMeets f.fs inode room s) (h : Found f inode)
    (helf : BeginsWithElf f.fs inode) : LoadsRight f inode room s := by
  intro mem
  have hstart : Found (setPosition f 0) inode := h.advance 0
  obtain ⟨f', t, hshifted, hfound, ht, hfs⟩ :=
    headerRead_shifted hstart helf rfl hmeets.cursor hmeets.probeRoom hmeets.headerRoom mem
  have htype : (headerAt f.fs inode 4).type = fileHalf f.fs inode 16 := hmeets.type
  have hphoff : (headerAt f.fs inode 4).phoff = fileWord f.fs inode 28 := hmeets.phoff
  have hphnum : (headerAt f.fs inode 4).phnum = fileHalf f.fs inode 44 := hmeets.phnum
  have hloadable := hmeets.loadable
  have htable := hmeets.table
  obtain ⟨l, s', hok, hvisited⟩ :
      ∃ l s', elfLoadTable f' (headerAt f.fs inode 4) room mem t = .ok (l, s') ∧
        l.visited = programHeaders f'.fs inode (headerAt f.fs inode 4) :=
    elfLoadTable_visits hfound ht mem (by rwa [htype, hphnum]) (by rwa [hphoff, hphnum, hfs])
  refine ⟨l, s', headerAt f.fs inode 4, hshifted.elfLoad.trans hok, elfLoadTable_header hok, htype,
    hphoff, hphnum, ?_⟩
  rw [hvisited, hfs]
  exact programHeaders_congr hphoff hphnum

/-- `elf_load` is right exactly when the fields of the file meet the condition. -/
theorem loadsRight_iff (h : Found f inode) (helf : BeginsWithElf f.fs inode)
    (hsp : s.sp = none ∨ ∃ u, Pending s u) :
    LoadsRight f inode room s ↔ LoadMeets f.fs inode room s := by
  constructor
  · intro hright
    obtain ⟨hcursor, hprobe⟩ := hright.probed h hsp
    have hheader := hright.headerRoom h helf hcursor hprobe
    obtain ⟨htype, hphoff, hphnum, -⟩ := hright.shifted h helf hcursor hprobe hheader (.all 0)
    exact ⟨hcursor, hprobe, hheader, htype, hphoff, hphnum,
      hright.loadable h helf hcursor hprobe hheader, hright.table h helf hcursor hprobe hheader⟩
  · intro hmeets
    exact hmeets.loadsRight h helf

end Load

/-- What `cmd_elf` depends on. -/
structure ReportMeets (v : Volume) (inode : Inode) (room : ElfRoom) (s : Strings) : Prop where
  cursor : Rests v s
  probeRoom : room.probeStaging = true
  headerRoom : room.headerStaging = true
  type : elfTypeAsString ((fileHalf v inode 20).setWidth 8) =
    elfTypeAsString ((fileHalf v inode 16).setWidth 8)
  entry : fileWord v inode 28 = fileWord v inode 24

section Report

variable {fp : File} {inode : Inode} {s s' : Strings} {room : ElfRoom} {mem : ElfMemory}
  {header : ElfHeader} {fd : Int}

theorem HeaderRead.cmdElfReport {f' : File} (h : HeaderRead fp room mem s header f' s') (hfd : 0 < fd) :
    cmdElfReport fd fp room mem s = .ok ([.file fd true,
      .type (elfTypeAsString (header.type.setWidth 8)), .entry header.entry], some f', s') := by
  obtain ⟨p, buf, hprobe, hfound, hread, hfields⟩ := h
  simp only [Kernel.cmdElfReport, if_neg (Int.not_le.mpr hfd), hprobe, ok_bind, if_neg hfound, hread,
    hfields]
  rfl

/-- The command stops before it has a header, or it has read one and goes on to load the file. -/
theorem cmdElfReport_cases {r : List ElfLine × Option File × Strings}
    (hok : cmdElfReport fd fp room mem s = .ok r) :
    (r.2.1 = none ∧ r.1.length = 1) ∨ ∃ header f' s', HeaderRead fp room mem s header f' s' ∧
      r = ([.file fd true, .type (elfTypeAsString (header.type.setWidth 8)), .entry header.entry],
        some f', s') := by
  rw [Kernel.cmdElfReport] at hok
  split at hok
  · cases hok
    exact .inl ⟨rfl, rfl⟩
  · obtain ⟨p, hprobe, hok⟩ := bind_eq_ok.mp hok
    by_cases hfound : p.1 = 0
    · rw [if_pos hfound] at hok
      cases hok
      exact .inl ⟨rfl, rfl⟩
    · rw [if_neg hfound] at hok
      obtain ⟨⟨buf, f', s'⟩, hread, hok⟩ := bind_eq_ok.mp hok
      obtain ⟨header, hfields, hok⟩ := bind_eq_ok.mp hok
      cases hok
      exact .inr ⟨header, f', s', ⟨p, buf, hprobe, hfound, hread, hfields⟩, rfl⟩

theorem headerRead_of_some {f' : File} {lines : List ElfLine}
    (hok : cmdElfReport fd fp room mem s = .ok (lines, some f', s')) :
    ∃ header, HeaderRead fp room mem s header f' s' := by
  rcases cmdElfReport_cases hok with ⟨hnone, -⟩ | ⟨header, f₁, s₁, hread, hr⟩
  · cases hnone
  · cases hr
    exact ⟨header, hread⟩

theorem headerRead_of_report {name : String} {entry : BitVec 32}
    {r : List ElfLine × Option File × Strings} (hok : cmdElfReport fd fp room mem s = .ok r)
    (hlines : r.1 = [.file fd true, .type name, .entry entry]) :
    ∃ header f' s', HeaderRead fp room mem s header f' s' ∧
      elfTypeAsString (header.type.setWidth 8) = name ∧ header.entry = entry := by
  rcases cmdElfReport_cases hok with ⟨-, hone⟩ | ⟨header, f', s', hread, rfl⟩
  · rw [hlines] at hone
    cases hone
  · cases hlines
    exact ⟨header, f', s', hread, rfl, rfl⟩

/-- The report of a file that was just opened is right exactly when its fields meet the condition. -/
theorem reportsRight_iff (h : Found fp inode) (helf : BeginsWithElf fp.fs inode) (hpos : fp.pos = 0)
    (hsp : s.sp = none ∨ ∃ u, Pending s u) (hfd : 0 < fd) :
    ReportsRight fd fp inode room s ↔ ReportMeets fp.fs inode room s := by
  constructor
  · intro hright
    have hread (mem : ElfMemory) : ∃ header f' s', HeaderRead fp room mem s header f' s' ∧
        elfTypeAsString (header.type.setWidth 8) =
          elfTypeAsString ((fileHalf fp.fs inode 16).setWidth 8) ∧
        header.entry = fileWord fp.fs inode 24 := by
      obtain ⟨r, hok, hlines⟩ := hright mem
      exact headerRead_of_report hok hlines
    obtain ⟨hcursor, hprobe⟩ : Rests fp.fs s ∧ room.probeStaging = true := by
      have hlow := h.bounds.1
      obtain ⟨header, f', s', hzero, -⟩ := hread (.all 0)
      exact hzero.probed (by omega) hsp
    have hheader : room.headerStaging = true := by
      by_contra hroom
      have hstack (x : BitVec 8) : fileWord fp.fs inode 24 = x ++ x ++ x ++ x := by
        obtain ⟨header, f', s', hx, -, hentry⟩ := hread (.all x)
        exact hentry.symm.trans (hx.stack h helf hpos hcursor hprobe (by simpa using hroom)).2
      have hone := (hstack 0).symm.trans (hstack 1)
      exact absurd hone (by decide)
    obtain ⟨header, f', s', hzero, htype, hentry⟩ := hread (.all 0)
    obtain ⟨f'', s'', hshifted, -⟩ := headerRead_shifted h helf hpos hcursor hprobe hheader (.all 0)
    obtain ⟨rfl, -⟩ := hzero.unique hshifted
    exact ⟨hcursor, hprobe, hheader, htype, hentry⟩
  · intro hmeets mem
    obtain ⟨hcursor, hprobe, hheader, htype, hentry⟩ := hmeets
    obtain ⟨f', s', hshifted, -⟩ := headerRead_shifted h helf hpos hcursor hprobe hheader mem
    refine ⟨_, hshifted.cmdElfReport hfd, ?_⟩
    rw [← htype, ← hentry]
    rfl

/-- A command whose report is right, and whose load is, prints the report and what the load answers. -/
theorem ReportsRight.cmdElf {shell : ElfRoom} (h : ReportsRight fd fp inode shell s)
    (hload : ReportLoads fd fp inode shell room s) (hfd : 0 < fd) (mem loadMem : ElfMemory) :
    ∃ ret s', cmdElf fd fp shell room mem loadMem s = .ok ([.file fd true,
      .type (elfTypeAsString ((fileHalf fp.fs inode 16).setWidth 8)), .entry (fileWord fp.fs inode 24),
      .ret ret], s') := by
  obtain ⟨r, hok, hlines⟩ := h mem
  obtain ⟨header, f', s₁, hread, htype, hentry⟩ := headerRead_of_report hok hlines
  have hreport := hread.cmdElfReport hfd
  obtain ⟨l, s', -, hloaded, -⟩ := hload mem _ f' s₁ hreport loadMem
  refine ⟨l.ret, s', ?_⟩
  rw [Kernel.cmdElf, hreport]
  simp only [ok_bind, hloaded, htype, hentry]
  rfl

end Report

/-- A probe, and the read of the header, leave the file as it was but for the position. -/
theorem fileRead_found {dev : Device} {f : File} {inode : Inode} {s : Strings} {buf : Buffer} {n : Nat}
    {mem : Option (Nat → BitVec 8)} {r : Buffer × File × Strings} (hmount : mount dev = .ok (.ok f.fs))
    (hnames : Names f.fs f.respath inode) (hn : 0 < n) (hmax : n < 2 ^ 31) (hcursor : Rests f.fs s)
    (hok : fileRead f buf n mem s = .ok r) :
    r.2.2.sp = none ∧ r.2.1.fs = f.fs ∧ mount dev = .ok (.ok r.2.1.fs) ∧
      Names r.2.1.fs r.2.1.respath inode := by
  obtain ⟨hclean, hfs, hrespath⟩ := fileRead_clean (found_of_names hmount hnames) hn hmax hcursor hok
  refine ⟨hclean, hfs, ?_, ?_⟩
  · rwa [hfs]
  · rwa [hfs, hrespath]

theorem HeaderRead.found {dev : Device} {f f' : File} {inode : Inode} {s s' : Strings} {room : ElfRoom}
    {mem : ElfMemory} {header : ElfHeader} (h : HeaderRead f room mem s header f' s')
    (hmount : mount dev = .ok (.ok f.fs)) (hnames : Names f.fs f.respath inode) (hcursor : Rests f.fs s) :
    s'.sp = none ∧ f'.fs = f.fs ∧ mount dev = .ok (.ok f'.fs) ∧ Names f'.fs f'.respath inode := by
  obtain ⟨p, buf, hprobe, -, hread, -⟩ := h
  obtain ⟨r, hmagic, hret⟩ := bind_eq_ok.mp hprobe
  have hp : r.2 = p.2 := congrArg Prod.snd (Except.ok.inj hret)
  obtain ⟨hclean₁, hfs₁, hmount₁, hnames₁⟩ :=
    fileRead_found hmount hnames (by omega) (by omega) hcursor hmagic
  rw [← hp] at hread
  obtain ⟨hclean, hfs, hmount', hnames'⟩ :=
    fileRead_found hmount₁ hnames₁ (by decide) (by decide) (.inl hclean₁) hread
  exact ⟨hclean, hfs.trans hfs₁, hmount', hnames'⟩

/-- From any position of the file `elf_load` is right, also after a probe, and the command that opens the
file anew is, exactly if the fields of the header are the same four bytes further on. -/
theorem elf_right_iff {dev : Device} {v : Volume} {path : CString} {inode : Inode} {f fp : File}
    {room shell : ElfRoom} {s t : Strings} {fd : Int} (hmount : mount dev = .ok (.ok v))
    (hnames : Names v path inode) (helf : BeginsWithElf v inode) (hfs : f.fs = v)
    (hrespath : f.respath = path) (hopen : open' (some v) (some path) true = .ok fp)
    (hs : s.sp = none ∨ ∃ u, Pending s u) (ht : t.sp = none ∨ ∃ u, Pending t u) (hfd : 0 < fd) :
    LoadsRight f inode room s ∧ ProbeKeeps f inode room s ∧ ReportsRight fd fp inode shell t ∧
        ReportLoads fd fp inode shell room t ↔
      LoadMeets v inode room s ∧ ReportMeets v inode shell t := by
  subst hfs hrespath
  have hfp : fp = { fs := f.fs, respath := f.respath, isdir := -1, pos := 0 } := (Except.ok.inj hopen).symm
  have hreport : ReportsRight fd fp inode shell t ↔ ReportMeets f.fs inode shell t := by
    have hiff : ReportsRight fd fp inode shell t ↔ ReportMeets fp.fs inode shell t := by
      rw [hfp]
      exact reportsRight_iff (found_of_names hmount hnames) helf rfl ht hfd
    rwa [hfp] at hiff ⊢
  rw [loadsRight_iff (found_of_names hmount hnames) helf hs, hreport]
  constructor
  · intro h
    exact ⟨h.1, h.2.2.1⟩
  · intro h
    obtain ⟨hcursor, hprobeRoom, hheaderRoom, htype, hphoff, hphnum, hloadable, htable⟩ := h.1
    -- a file of the volume is loaded right when the cursor is reset
    have hloads (g : File) (s' : Strings) (hclean : s'.sp = none) (hfs : g.fs = f.fs)
        (hmount : mount dev = .ok (.ok g.fs)) (hnames : Names g.fs g.respath inode) :
        LoadsRight g inode room s' := by
      rw [loadsRight_iff (found_of_names hmount hnames) (by rwa [hfs]) (.inl hclean), hfs]
      exact ⟨.inl hclean, hprobeRoom, hheaderRoom, htype, hphoff, hphnum, hloadable, htable⟩
    refine ⟨h.1, ?_, h.2, ?_⟩
    · intro probeRoom magic staging r hprobe
      obtain ⟨r', hread, hret⟩ := bind_eq_ok.mp hprobe
      obtain ⟨hclean, hfs, hmount', hnames'⟩ :=
        fileRead_found hmount hnames (by omega) (by omega) hcursor hread
      cases hret
      exact hloads _ _ hclean hfs hmount' hnames'
    · intro mem lines f' t' hok
      have hmountp : mount dev = .ok (.ok fp.fs) := by rwa [hfp]
      have hnamesp : Names fp.fs fp.respath inode := by rwa [hfp]
      have hcursorp : Rests fp.fs t := by
        rw [hfp]
        exact h.2.cursor
      obtain ⟨header, hread⟩ := headerRead_of_some hok
      obtain ⟨hclean, hfs, hmount', hnames'⟩ := hread.found hmountp hnamesp hcursorp
      have hvolume : fp.fs = f.fs := by rw [hfp]
      exact hloads _ _ hclean (hfs.trans hvolume) hmount' hnames'

/-- A device whose root directory holds `x`, a file that begins with these bytes. -/
def elfDevice (bytes : List (Nat × BitVec 8)) : Device :=
  deviceOf ((1024 + 20, 1) :: (1024 + 40, 8) :: signature ++ twoBlocks ++
    bytes.map fun b => (5 * 1024 + b.1, b.2))

def elfVolume (bytes : List (Nat × BitVec 8)) : Volume := { blank with disk := (elfDevice bytes).sectors }

def elfFile (bytes : List (Nat × BitVec 8)) : File :=
  { fs := elfVolume bytes, respath := missingPath, isdir := -1, pos := 0 }

/-- The identification, the type, the version, and one program header behind the ELF header. -/
def objectFile : List (Nat × BitVec 8) :=
  [(0, 0x7F), (1, 0x45), (2, 0x4C), (3, 0x46), (4, 1), (5, 1), (6, 1), (16, 1), (18, 3), (20, 1),
    (28, 52), (40, 52), (42, 32), (44, 1), (52, 1)]

/-- The same with entry point and section headers in the place of the program header. -/
def foldedFile : List (Nat × BitVec 8) := objectFile ++ [(24, 52), (32, 52), (48, 1)]

def allRoom : ElfRoom := ⟨true, true, true, true⟩

/-- The program header of an object file is not visited: the section headers' fields are taken for it. -/
theorem objectFile_misread :
    ∃ inode, mount (elfDevice objectFile) = .ok (.ok (elfVolume objectFile)) ∧
      Names (elfVolume objectFile) missingPath inode ∧ BeginsWithElf (elfVolume objectFile) inode ∧
      open' (some (elfVolume objectFile)) (some missingPath) true = .ok (elfFile objectFile) ∧
      (programHeaders (elfVolume objectFile) inode (headerAt (elfVolume objectFile) inode 0)).length = 1 ∧
      (∃ l s, elfLoad (elfFile objectFile) allRoom (.all 0) ⟨[], none⟩ = .ok (l, s) ∧ l.visited = []) ∧
      ¬(LoadsRight (elfFile objectFile) inode allRoom ⟨[], none⟩ ∧
        ProbeKeeps (elfFile objectFile) inode allRoom ⟨[], none⟩ ∧
        ReportsRight 3 (elfFile objectFile) inode allRoom ⟨[], none⟩ ∧
        ReportLoads 3 (elfFile objectFile) inode allRoom allRoom ⟨[], none⟩) := by
  obtain ⟨inode, hread, hsize, hmagic, hclass, hphoff, hshoff, hphnum⟩ :
      ∃ inode, readInode (elfVolume objectFile) 3 = .ok inode ∧ inode.size = 2048 ∧
      (List.range 4).map (dataByte (elfVolume objectFile) inode) = [0x7F, 0x45, 0x4C, 0x46] ∧
      dataByte (elfVolume objectFile) inode 4 = 1 ∧ fileWord (elfVolume objectFile) inode 28 = 52 ∧
      fileWord (elfVolume objectFile) inode 32 = 0 ∧ fileHalf (elfVolume objectFile) inode 44 = 1 :=
    ⟨_, rfl, rfl, by decide +kernel, by decide +kernel, by decide +kernel, by decide +kernel,
      by decide +kernel⟩
  have hfound : resolve (elfVolume objectFile) missingPath = .ok 3 := by decide +kernel
  have hnames : Names (elfVolume objectFile) missingPath inode := ⟨3, hfound, by decide, hread⟩
  have helf : BeginsWithElf (elfVolume objectFile) inode := ⟨hmagic, hclass, by rw [hsize]; decide⟩
  have hmount : mount (elfDevice objectFile) = .ok (.ok (elfVolume objectFile)) := rfl
  refine ⟨inode, hmount, hnames, helf, rfl, ?_, ?_, ?_⟩
  · have hone : (headerAt (elfVolume objectFile) inode 0).phnum = 1 := hphnum
    rw [programHeaders, hone, List.length_map]
    rfl
  · have hnone : (elfLoad (elfFile objectFile) allRoom (.all 0) ⟨[], none⟩).map
        (fun r => r.1.visited.length) = .ok 0 := by decide +kernel
    cases hload : elfLoad (elfFile objectFile) allRoom (.all 0) ⟨[], none⟩ with
    | error e =>
      rw [hload] at hnone
      cases hnone
    | ok r =>
      rw [hload] at hnone
      exact ⟨r.1, r.2, rfl, List.length_eq_zero_iff.mp (Except.ok.inj hnone)⟩
  · intro hright
    have hmeets := (loadsRight_iff (found_of_names hmount hnames) helf (.inl rfl)).mp hright.1
    have hsame : fileWord (elfVolume objectFile) inode 32 = fileWord (elfVolume objectFile) inode 28 :=
      hmeets.phoff
    rw [hphoff, hshoff] at hsame
    exact absurd hsame (by decide)

theorem foldedFile_right :
    ∃ inode, Names (elfVolume foldedFile) missingPath inode ∧
      LoadsRight (elfFile foldedFile) inode allRoom ⟨[], none⟩ ∧
      ProbeKeeps (elfFile foldedFile) inode allRoom ⟨[], none⟩ ∧
      ReportsRight 3 (elfFile foldedFile) inode allRoom ⟨[], none⟩ ∧
      ReportLoads 3 (elfFile foldedFile) inode allRoom allRoom ⟨[], none⟩ := by
  obtain ⟨inode, hread, hsize, hmagic, hclass, htype, hentry, hphoff, hshoff, hphnum, hshnum, hversion⟩ :
      ∃ inode, readInode (elfVolume foldedFile) 3 = .ok inode ∧ inode.size = 2048 ∧
      (List.range 4).map (dataByte (elfVolume foldedFile) inode) = [0x7F, 0x45, 0x4C, 0x46] ∧
      dataByte (elfVolume foldedFile) inode 4 = 1 ∧ fileHalf (elfVolume foldedFile) inode 16 = 1 ∧
      fileWord (elfVolume foldedFile) inode 24 = 52 ∧ fileWord (elfVolume foldedFile) inode 28 = 52 ∧
      fileWord (elfVolume foldedFile) inode 32 = 52 ∧ fileHalf (elfVolume foldedFile) inode 44 = 1 ∧
      fileHalf (elfVolume foldedFile) inode 48 = 1 ∧ fileHalf (elfVolume foldedFile) inode 20 = 1 :=
    ⟨_, rfl, rfl, by decide +kernel, by decide +kernel, by decide +kernel, by decide +kernel,
      by decide +kernel, by decide +kernel, by decide +kernel, by decide +kernel, by decide +kernel⟩
  have hfound : resolve (elfVolume foldedFile) missingPath = .ok 3 := by decide +kernel
  have hnames : Names (elfVolume foldedFile) missingPath inode := ⟨3, hfound, by decide, hread⟩
  have helf : BeginsWithElf (elfVolume foldedFile) inode := ⟨hmagic, hclass, by rw [hsize]; decide⟩
  have hfits : TableFits (elfVolume foldedFile) 52 1 := by
    constructor
    · exact .inl (by decide)
    · constructor <;> decide
  have hmount : mount (elfDevice foldedFile) = .ok (.ok (elfVolume foldedFile)) := rfl
  refine ⟨inode, hnames, (elf_right_iff hmount hnames helf rfl rfl rfl (.inl rfl) (.inl rfl)
    (by decide)).mpr ⟨⟨.inl rfl, rfl, rfl, ?_, ?_, ?_, .inl (by rw [htype]; decide), ?_⟩,
      ⟨.inl rfl, rfl, rfl, ?_, ?_⟩⟩⟩
  · rw [hversion, htype]
  · rw [hshoff, hphoff]
  · rw [hshnum, hphnum]
  · intro _
    rw [hphoff, hphnum]
    exact ⟨rfl, rfl, hfits⟩
  · rw [hversion, htype]
  · rw [hphoff, hentry]

end Levos.Kernel
