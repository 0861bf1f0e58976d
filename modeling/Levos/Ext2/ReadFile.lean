import Levos.Ext2.File
import Mathlib.Data.List.Range
import Mathlib.Tactic.Ring

namespace Levos.Ext2

open Levos.Framework Levos.Lib

/-- Byte `i` of a file whose bytes are in direct blocks. -/
def fileByte (v : Volume) (inode : Inode) (i : Nat) : BitVec 8 :=
  v.blockByte (inode.dbp (i / v.blocksize)) (i % v.blocksize)

def fileBytes (v : Volume) (inode : Inode) (pos n : Nat) : List (BitVec 8) :=
  (List.range n).map fun i => fileByte v inode (pos + i)

/-- A file whose path leads to an inode of a mounted volume. -/
structure Found (f : File) (inode : Inode) : Prop where
  blocks : ∃ k ≤ 21, f.fs.blocksize = 1024 * 2 ^ k
  sectors : f.fs.sectorsPerBlock = f.fs.blocksize / 512
  found : ∃ ino, resolve f.fs f.respath = .ok ino ∧ 0 ≤ ino ∧ readInode f.fs ino = .ok inode

/-- An open regular file with all its bytes in direct blocks. -/
structure Regular (f : File) (inode : Inode) : Prop extends Found f inode where
  regular : inode.type &&& 0xF000 = 0x8000
  direct : inode.size.toNat ≤ 12 * f.fs.blocksize

/-- The next lookup finds what it looks for: the cursor is reset, or the text it was left in has
no missing component. -/
def Rests (v : Volume) (s : Strings) : Prop :=
  s.sp = none ∨ ∃ u k, Pending s u ∧ resolveFrom v 2 (inPlace slash u) = .ok k ∧ 0 ≤ k

/-- A read of `count` bytes at `pos` needs no more blocks than it stages, and no block behind the
direct ones. -/
structure FitsAt (bs pos count : Nat) : Prop where
  staging : bs * (count / bs + 1) < 2 ^ 32
  inside : pos % bs + count % bs ≤ bs
  direct : pos / bs + count / bs < 12

section Lookup

variable {f : File} {inode : Inode} {s s' : Strings}

theorem Found.bounds (h : Found f inode) :
    1024 ≤ f.fs.blocksize ∧ f.fs.blocksize ≤ 2 ^ 31 ∧ 512 * f.fs.spb = f.fs.blocksize :=
  Volume.bounds h.blocks h.sectors

/-- With the cursor reset, a lookup of the file's path finds the file. -/
theorem Found.find (h : Found f inode) (hs : s.sp = none) :
    ∃ ino s', findFileInode f.fs f.respath s = .ok (ino, s') ∧ 0 ≤ ino ∧
      readInode f.fs ino = .ok inode ∧ s'.sp = none := by
  obtain ⟨ino, hres, hino, hread⟩ := h.found
  obtain ⟨s', hfind, -, hclean⟩ := findFileInode_of_resolve f.respath (.inl ⟨hs, rfl⟩) hres
  exact ⟨ino, s', hfind, hino, hread, hclean hino⟩

theorem Rests.find (h : Found f inode) (hr : Rests f.fs s) :
    ∃ k s', findFileInode f.fs f.respath s = .ok (k, s') ∧ 0 ≤ k ∧ s'.sp = none := by
  rcases hr with hclean | ⟨u, k, hu, hres, hk⟩
  · obtain ⟨ino, s', hfind, hino, -, hs'⟩ := h.find hclean
    exact ⟨ino, s', hfind, hino, hs'⟩
  · obtain ⟨s', hfind, -, hclean⟩ := findFileInode_of_resolve f.respath (.inr hu) hres
    exact ⟨k, s', hfind, hk, hclean hk⟩

theorem rests_of_find {path : CString} {v : Volume} {k : Int}
    (hs : s.sp = none ∨ ∃ u, Pending s u) (hfind : findFileInode v path s = .ok (k, s'))
    (hk : 0 ≤ k) : Rests v s := by
  rcases hs with hclean | ⟨u, hu⟩
  · exact .inl hclean
  · exact .inr ⟨u, k, hu, (findFileInode_ok (.inr hu) hfind).1, hk⟩

/-- A lookup that finds something resets the cursor. -/
theorem clean_of_find {path : CString} {v : Volume} {k : Int}
    (hs : s.sp = none ∨ ∃ u, Pending s u) (hfind : findFileInode v path s = .ok (k, s'))
    (hk : 0 ≤ k) : s'.sp = none := by
  obtain ⟨u, hu⟩ := cursor_text path hs
  exact (findFileInode_ok hu hfind).2.2 hk

end Lookup

section Blocks

variable {f : File} {inode : Inode} {s : Strings}

/-- A direct block is read into its place. -/
theorem fileReadBlock_direct (h : Found f inode) (hs : s.sp = none) {b : BitVec 32}
    (hb : b.toNat < 12) (buf : Buffer) (off : Nat) :
    ∃ s', s'.sp = none ∧ fileReadBlock f buf off b s = (do
      let buf ← buf.fill off f.fs.blocksize (f.fs.blockByte (inode.dbp b.toNat))
      return (0, buf, s')) := by
  obtain ⟨ino, s', hfind, hino, hread, hs'⟩ := h.find hs
  refine ⟨s', hs', ?_⟩
  simp only [fileReadBlock, hfind, ok_bind, if_neg (Int.not_lt.mpr hino), hread, if_pos hb,
    readBlock, h.bounds.2.2]

/-- Behind the direct blocks nothing is read. -/
theorem fileReadBlock_indirect (h : Found f inode) (hs : s.sp = none) {b : BitVec 32}
    (hb : b.toNat = 12) (buf : Buffer) (off : Nat) :
    ∃ e, fileReadBlock f buf off b s = .error e := by
  obtain ⟨ino, s', hfind, hino, hread, hs'⟩ := h.find hs
  have hbs := h.bounds.1
  refine ⟨.uninitialised, ?_⟩
  have hzero : f.fs.blocksize ≤ (Buffer.zero f.fs.blocksize).size := Nat.le_refl _
  simp only [fileReadBlock, hfind, ok_bind, if_neg (Int.not_lt.mpr hino), hread,
    if_neg (by omega : ¬b.toNat < 12), if_pos (by omega : b.toNat < f.fs.blocksize / 4),
    readBlock, h.bounds.2.2]
  rw [Buffer.fill_ok (by rw [Nat.zero_add]; exact hzero)]
  rfl

theorem blockIndex {c a : Nat} (h : c + a < 2 ^ 32) :
    (BitVec.ofInt 32 ((c : Int) + (a : Int))).toNat = c + a := by
  rw [BitVec.toNat_ofInt]
  omega

/-- The reads of blocks `a .. a + n - 1` put the file's bytes where they belong. -/
theorem readBlocks_spec (h : Found f inode) {c : Nat} (n a : Nat) (block : Buffer)
    (hs : s.sp = none) (hfit : f.fs.blocksize * (a + n) ≤ block.size) (hdirect : c + a + n ≤ 12)
    (hbytes : ∀ i < f.fs.blocksize * a, block.byte i = fileByte f.fs inode (f.fs.blocksize * c + i)) :
    ∃ block' s', readBlocks f c (List.range' a n) block s = .ok (block', s') ∧ s'.sp = none ∧
      block'.size = block.size ∧ ∀ i < f.fs.blocksize * (a + n),
        block'.byte i = fileByte f.fs inode (f.fs.blocksize * c + i) := by
  induction n generalizing a block s with
  | zero => exact ⟨block, s, rfl, hs, rfl, by simpa using hbytes⟩
  | succ n ih =>
    have hbs := h.bounds.1
    have hindex : (BitVec.ofInt 32 ((c : Int) + (a : Int))).toNat = c + a := blockIndex (by omega)
    obtain ⟨s', hs', hread⟩ := fileReadBlock_direct h hs (b := BitVec.ofInt 32 ((c : Int) + a))
      (by omega) block (a * f.fs.blocksize)
    have hsucc : f.fs.blocksize * (a + (n + 1)) =
        f.fs.blocksize * a + f.fs.blocksize + f.fs.blocksize * n := by ring
    have hcomm : a * f.fs.blocksize = f.fs.blocksize * a := Nat.mul_comm ..
    rw [Buffer.fill_ok (by omega), hindex] at hread
    rw [List.range'_succ, readBlocks, hread]
    simp only [ok_bind, pure_bind]
    have hstep : f.fs.blocksize * (a + 1) = f.fs.blocksize * a + f.fs.blocksize := by ring
    have hnext : f.fs.blocksize * (a + (n + 1)) = f.fs.blocksize * (a + 1 + n) := by ring
    have hfilled : ∀ i < f.fs.blocksize * (a + 1),
        (block.filled (a * f.fs.blocksize) f.fs.blocksize
          (f.fs.blockByte (inode.dbp (c + a)))).byte i =
        fileByte f.fs inode (f.fs.blocksize * c + i) := by
      intro i hi
      rw [Buffer.filled_byte]
      by_cases hin : a * f.fs.blocksize ≤ i
      · rw [if_pos ⟨hin, by omega⟩]
        obtain ⟨r, rfl⟩ := Nat.exists_eq_add_of_le hin
        have hpos : f.fs.blocksize * c + (a * f.fs.blocksize + r) =
            r + f.fs.blocksize * (c + a) := by ring
        rw [fileByte, hpos, Nat.add_mul_div_left _ _ (by omega), Nat.add_mul_mod_self_left,
          Nat.div_eq_of_lt (by omega), Nat.mod_eq_of_lt (by omega), Nat.zero_add,
          Nat.add_sub_cancel_left]
      · rw [if_neg (by omega)]
        exact hbytes i (by omega)
    obtain ⟨block', s'', hrest, hs'', hsize, hbytes'⟩ :=
      ih (a + 1) _ hs' (by rw [← hnext]; exact hfit) (by omega) hfilled
    exact ⟨block', s'', hrest, hs'', hsize, fun i hi => hbytes' i (by rw [← hnext]; exact hi)⟩

/-- The reads fail when one goes behind the staging buffer or behind the direct blocks. -/
theorem readBlocks_error (h : Found f inode) {c : Nat} (n a : Nat) (block : Buffer)
    (hs : s.sp = none) (ha : f.fs.blocksize * a ≤ block.size) (hc : c + a ≤ 12)
    (hbad : ¬(f.fs.blocksize * (a + n) ≤ block.size ∧ c + a + n ≤ 12)) :
    ∃ e, readBlocks f c (List.range' a n) block s = .error e := by
  induction n generalizing a block s with
  | zero => exact absurd ⟨ha, hc⟩ hbad
  | succ n ih =>
    have hindex : (BitVec.ofInt 32 ((c : Int) + (a : Int))).toNat = c + a := blockIndex (by omega)
    have hcomm : a * f.fs.blocksize = f.fs.blocksize * a := Nat.mul_comm ..
    have hstep : f.fs.blocksize * (a + 1) = f.fs.blocksize * a + f.fs.blocksize := by ring
    have hnext : f.fs.blocksize * (a + (n + 1)) = f.fs.blocksize * (a + 1 + n) := by ring
    rw [List.range'_succ, readBlocks]
    rcases Nat.lt_or_eq_of_le hc with hlt | heq
    · obtain ⟨s', hs', hread⟩ := fileReadBlock_direct h hs (b := BitVec.ofInt 32 ((c : Int) + a))
        (by omega) block (a * f.fs.blocksize)
      rw [hread]
      by_cases hfit : a * f.fs.blocksize + f.fs.blocksize ≤ block.size
      · rw [Buffer.fill_ok hfit]
        exact ih (a + 1) _ hs' (by rw [Buffer.filled_size]; omega) (by omega) (by
          rw [← hnext, Buffer.filled_size]
          omega)
      · exact ⟨.outOfBounds, by rw [Buffer.fill_error hfit]; rfl⟩
    · obtain ⟨e, he⟩ := fileReadBlock_indirect h hs (b := BitVec.ofInt 32 ((c : Int) + a))
        (by omega) block (a * f.fs.blocksize)
      exact ⟨e, by rw [he]; rfl⟩

end Blocks

/-- `ext2_read_file` answers `count`, puts the file's bytes into the caller's buffer and nothing else,
and advances the position. -/
def ReadsExactly (f : File) (inode : Inode) (buf : Buffer) (count : BitVec 32)
    (mem : Option (Nat → BitVec 8)) (s : Strings) : Prop :=
  ∃ buf' f' s', readFile f (some buf) count mem s = .ok ((count.toNat : Int), some buf', f', s') ∧
    buf'.size = buf.size ∧
    (∀ i, buf'.byte i =
      if i < count.toNat then fileByte f.fs inode (f.pos.toNat + i) else buf.byte i) ∧
    f'.fs = f.fs ∧ f'.respath = f.respath ∧ f'.isdir = f.isdir ∧
    f'.pos.toInt = f.pos.toInt + count.toNat

/-- What a read depends on. -/
structure ReadFits (f : File) (count : BitVec 32) (mem : Option (Nat → BitVec 8)) (s : Strings) :
    Prop where
  cursor : Rests f.fs s
  room : mem ≠ none
  int : f.pos.toNat + count.toNat < 2 ^ 31
  blocks : FitsAt f.fs.blocksize f.pos.toNat count.toNat

section Read

variable {f : File} {inode : Inode} {buf : Buffer} {count : BitVec 32}
  {mem : Option (Nat → BitVec 8)} {s : Strings}

/-- The position is not negative as an `int`, or it is the one behind the first block where a block has
half the address space. -/
def Placed (f : File) : Prop := 0 ≤ f.pos.toInt ∨ f.pos.toNat = f.fs.blocksize

/-- The block of the position, and the place of the position in it. -/
theorem cblock_eq (hlow : 1024 ≤ f.fs.blocksize) (hhigh : f.fs.blocksize ≤ 2 ^ 31)
    (hpos : 0 ≤ f.pos.toInt) :
    f.pos.toInt.tdiv (BitVec.ofNat 32 f.fs.blocksize).toInt =
      ((f.pos.toNat / f.fs.blocksize : Nat) : Int) ∧
    f.pos.toInt - ((f.pos.toNat / f.fs.blocksize : Nat) : Int) *
      (BitVec.ofNat 32 f.fs.blocksize).toInt = ((f.pos.toNat % f.fs.blocksize : Nat) : Int) := by
  have hlt : f.pos.toNat < 2 ^ 31 := by
    rw [BitVec.toInt_eq_toNat_cond] at hpos
    split at hpos <;> omega
  have hint : f.pos.toInt = (f.pos.toNat : Int) := by
    rw [BitVec.toInt_eq_toNat_cond, if_pos (by omega)]
  have hdm := Nat.div_add_mod f.pos.toNat f.fs.blocksize
  rcases Nat.lt_or_eq_of_le hhigh with hbs | hbs
  · have hbsInt : (BitVec.ofNat 32 f.fs.blocksize).toInt = (f.fs.blocksize : Int) := by
      rw [BitVec.toInt_eq_toNat_cond, BitVec.toNat_ofNat, Nat.mod_eq_of_lt (by omega),
        if_pos (by omega)]
    rw [hint, hbsInt]
    refine ⟨(Int.ofNat_tdiv ..).symm, ?_⟩
    have : ((f.fs.blocksize * (f.pos.toNat / f.fs.blocksize) + f.pos.toNat % f.fs.blocksize : Nat) :
        Int) = (f.pos.toNat : Int) := congrArg _ hdm
    push_cast at this
    push_cast
    rw [Int.mul_comm]
    omega
  · -- a block of half the address space has a negative size as an `int`
    rw [hint, hbs, Nat.div_eq_of_lt hlt, Nat.mod_eq_of_lt hlt]
    have hmin : (BitVec.ofNat 32 (2 ^ 31)).toInt = -(2 ^ 31 : Nat) := by decide
    rw [hmin, Int.tdiv_neg, ← Int.ofNat_tdiv, Nat.div_eq_of_lt hlt]
    simp

theorem Placed.cblock (hlow : 1024 ≤ f.fs.blocksize) (hhigh : f.fs.blocksize ≤ 2 ^ 31) (h : Placed f) :
    f.pos.toInt.tdiv (BitVec.ofNat 32 f.fs.blocksize).toInt =
      ((f.pos.toNat / f.fs.blocksize : Nat) : Int) ∧
    f.pos.toInt - ((f.pos.toNat / f.fs.blocksize : Nat) : Int) *
      (BitVec.ofNat 32 f.fs.blocksize).toInt = ((f.pos.toNat % f.fs.blocksize : Nat) : Int) := by
  by_cases hpos : 0 ≤ f.pos.toInt
  · exact cblock_eq hlow hhigh hpos
  · have hblock : f.pos.toNat = f.fs.blocksize := h.resolve_left hpos
    have hsame : BitVec.ofNat 32 f.fs.blocksize = f.pos := by
      rw [← hblock, BitVec.ofNat_toNat, BitVec.setWidth_eq]
    have hself : f.pos.toInt.tdiv f.pos.toInt = 1 := Int.tdiv_self (by omega)
    rw [hsame, hblock, Nat.div_self (by omega), Nat.mod_self, hself]
    exact ⟨rfl, by omega⟩

/-- What is left of a read once the first lookup has answered. -/
theorem readFile_eq (hlow : 1024 ≤ f.fs.blocksize) (hhigh : f.fs.blocksize ≤ 2 ^ 31)
    (hcount : count ≠ 0) (hplaced : Placed f) {k : Int} {s' : Strings}
    (hfind : findFileInode f.fs f.respath s = .ok (k, s')) (hk : 0 ≤ k)
    (stale : Nat → BitVec 8) :
    readFile f (some buf) count (some stale) s = (do
      let (block, s) ← readBlocks f ((f.pos.toNat / f.fs.blocksize : Nat) : Int)
        (List.range' 0 (count.toNat / f.fs.blocksize + 1))
        ⟨f.fs.blocksize * (count.toNat / f.fs.blocksize + 1) % 2 ^ 32, stale⟩ s'
      let buf ← buf.memcpy block ((f.pos.toNat % f.fs.blocksize : Nat) : Int) count.toNat
      return (count.toInt, some buf, { f with pos := f.pos + count }, s)) := by
  obtain ⟨hdiv, hmod⟩ := hplaced.cblock hlow hhigh
  simp only [readFile, if_neg hcount, hfind, ok_bind, if_neg (Int.not_lt.mpr hk),
    if_neg (by omega : ¬f.fs.blocksize = 0), hdiv, hmod, List.range_eq_range']

/-- A read that needs no more blocks than it stages puts the file's bytes into the buffer. -/
theorem FitsAt.readFile (hblocks : FitsAt f.fs.blocksize f.pos.toNat count.toNat) (h : Found f inode)
    (buf : Buffer) (hcount : count ≠ 0) (hplaced : Placed f) (hbuf : count.toNat ≤ buf.size)
    (hcursor : Rests f.fs s) (stale : Nat → BitVec 8) :
    ∃ buf' s', readFile f (some buf) count (some stale) s =
        .ok (count.toInt, some buf', { f with pos := f.pos + count }, s') ∧
      buf'.size = buf.size ∧ s'.sp = none ∧
      ∀ i, buf'.byte i =
        if i < count.toNat then fileByte f.fs inode (f.pos.toNat + i) else buf.byte i := by
  obtain ⟨hstaging, hinside, hdirect⟩ := hblocks
  obtain ⟨k, s', hfind, hk, hs'⟩ := hcursor.find h
  have hbs := h.bounds.1
  have hsize : f.fs.blocksize * (count.toNat / f.fs.blocksize + 1) % 2 ^ 32 =
      f.fs.blocksize * (count.toNat / f.fs.blocksize + 1) := Nat.mod_eq_of_lt hstaging
  obtain ⟨block, s'', hblocks, hs'', hlen, hbytes⟩ := readBlocks_spec h
    (c := f.pos.toNat / f.fs.blocksize) (count.toNat / f.fs.blocksize + 1) 0 (s := s')
    ⟨f.fs.blocksize * (count.toNat / f.fs.blocksize + 1) % 2 ^ 32, stale⟩ hs'
    (by rw [hsize, Nat.zero_add]) (by omega) (by intro i hi; omega)
  rw [Nat.zero_add] at hbytes
  have hcdm := Nat.div_add_mod count.toNat f.fs.blocksize
  have hpdm := Nat.div_add_mod f.pos.toNat f.fs.blocksize
  have hdistrib : f.fs.blocksize * (count.toNat / f.fs.blocksize + 1) =
    f.fs.blocksize * (count.toNat / f.fs.blocksize) + f.fs.blocksize := by ring
  have hcopy : (0 : Int) ≤ ((f.pos.toNat % f.fs.blocksize : Nat) : Int) ∧
      ((f.pos.toNat % f.fs.blocksize : Nat) : Int) + count.toNat ≤ block.size := by
    rw [hlen]
    simp only [hsize]
    omega
  rw [readFile_eq hbs h.bounds.2.1 hcount hplaced hfind hk, hblocks]
  simp only [ok_bind, Buffer.memcpy, if_pos hcopy]
  rw [Buffer.fill_ok (by omega)]
  refine ⟨_, s'', rfl, rfl, hs'', fun i => ?_⟩
  simp only [Buffer.filled_byte, Nat.zero_le, true_and, Nat.zero_add, Nat.sub_zero, Int.toNat_natCast]
  by_cases hi : i < count.toNat
  · rw [if_pos hi, if_pos hi, hbytes _ (by omega)]
    congr 1
    omega
  · rw [if_neg hi, if_neg hi]

/-- A read that fits is exact, and leaves the cursor as it should be. -/
theorem ReadFits.readFile (h : Found f inode) (buf : Buffer) (hcount : count ≠ 0)
    (hpos : 0 ≤ f.pos.toInt) (hbuf : count.toNat ≤ buf.size) (hfits : ReadFits f count mem s) :
    ∃ buf' s', readFile f (some buf) count mem s =
        .ok ((count.toNat : Int), some buf', { f with pos := f.pos + count }, s') ∧
      buf'.size = buf.size ∧ s'.sp = none ∧
      ∀ i, buf'.byte i =
        if i < count.toNat then fileByte f.fs inode (f.pos.toNat + i) else buf.byte i := by
  obtain ⟨hcursor, hroom, hint, hblocks⟩ := hfits
  obtain ⟨stale, rfl⟩ := Option.ne_none_iff_exists'.mp hroom
  have hret : count.toInt = (count.toNat : Int) := by
    rw [BitVec.toInt_eq_toNat_cond, if_pos (by omega)]
  rw [← hret]
  exact hblocks.readFile h buf hcount (.inl hpos) hbuf hcursor stale

/-- A read that answers has looked the file up, and has a staging buffer. -/
theorem readFile_ok (hbs : f.fs.blocksize ≠ 0) (hcount : count ≠ 0) {n : Nat}
    {r : Option Buffer × File × Strings} (hok : readFile f (some buf) count mem s = .ok ((n : Int), r)) :
    ∃ k s' stale, findFileInode f.fs f.respath s = .ok (k, s') ∧ 0 ≤ k ∧ mem = some stale := by
  simp only [readFile, if_neg hcount] at hok
  obtain ⟨⟨k, s₁⟩, hfind, hrest⟩ := bind_eq_ok.mp hok
  by_cases hk : k < 0
  · simp only [if_pos hk] at hrest
    cases hrest
    omega
  · simp only [if_neg hk, if_neg hbs] at hrest
    cases mem with
    | none =>
      cases hrest
    | some stale => exact ⟨k, s₁, stale, hfind, by omega, rfl⟩

/-- A read from a direct block answers only when it needs no more blocks than it stages. -/
theorem Found.fitsAt (h : Found f inode) (hcount : count ≠ 0) (hplaced : Placed f)
    (hblock : f.pos.toNat / f.fs.blocksize < 12) {k : Int} {s₁ : Strings}
    (hfind : findFileInode f.fs f.respath s = .ok (k, s₁)) (hk : 0 ≤ k) (hs₁ : s₁.sp = none)
    {stale : Nat → BitVec 8} {r : Int × Option Buffer × File × Strings}
    (hok : readFile f (some buf) count (some stale) s = .ok r) :
    FitsAt f.fs.blocksize f.pos.toNat count.toNat := by
  obtain ⟨hbs, hhigh, -⟩ := h.bounds
  rw [readFile_eq hbs hhigh hcount hplaced hfind hk] at hok
  obtain ⟨⟨block, s₂⟩, hblocks, hok⟩ := bind_eq_ok.mp hok
  obtain ⟨buf₂, hcopy, -⟩ := bind_eq_ok.mp hok
  obtain ⟨hfit, hdirect⟩ : f.fs.blocksize * (0 + (count.toNat / f.fs.blocksize + 1)) ≤
      f.fs.blocksize * (count.toNat / f.fs.blocksize + 1) % 2 ^ 32 ∧
      f.pos.toNat / f.fs.blocksize + 0 + (count.toNat / f.fs.blocksize + 1) ≤ 12 := by
    by_contra hbad
    obtain ⟨e, he⟩ := readBlocks_error h _ 0 ⟨_, stale⟩ hs₁ (by simp) (by omega) hbad
    cases he.symm.trans hblocks
  obtain ⟨block', s₃, hblocks', -, hlen, -⟩ := readBlocks_spec h
    (c := f.pos.toNat / f.fs.blocksize) _ 0 ⟨_, stale⟩ hs₁ hfit hdirect
    (by intro i hi; omega)
  cases hblocks'.symm.trans hblocks
  rw [Nat.zero_add] at hfit
  have hlt : f.fs.blocksize * (count.toNat / f.fs.blocksize + 1) % 2 ^ 32 < 2 ^ 32 :=
    Nat.mod_lt _ (by omega)
  have hle := Nat.mod_le (f.fs.blocksize * (count.toNat / f.fs.blocksize + 1)) (2 ^ 32)
  have hsize : block.size = f.fs.blocksize * (count.toNat / f.fs.blocksize + 1) := by
    rw [hlen]
    exact Nat.le_antisymm hle hfit
  have hinside : ((f.pos.toNat % f.fs.blocksize : Nat) : Int) + count.toNat ≤ block.size := by
    by_contra hbad
    rw [Buffer.memcpy, if_neg (fun hin => hbad hin.2)] at hcopy
    cases hcopy
  have hcdm := Nat.div_add_mod count.toNat f.fs.blocksize
  have hdistrib : f.fs.blocksize * (count.toNat / f.fs.blocksize + 1) =
    f.fs.blocksize * (count.toNat / f.fs.blocksize) + f.fs.blocksize := by ring
  exact ⟨by omega, by omega, by omega⟩

/-- A read that finds the file and room answers the count and moves on by it, whatever the blocks are. -/
theorem readFile_moves {stale : Nat → BitVec 8} {k n : Int} {buf' : Option Buffer} {f' : File}
    {s' s₁ : Strings} (hcount : count ≠ 0) (hfind : findFileInode f.fs f.respath s = .ok (k, s'))
    (hk : 0 ≤ k) (hok : readFile f (some buf) count (some stale) s = .ok (n, buf', f', s₁)) :
    n = count.toInt ∧ f' = { f with pos := f.pos + count } := by
  simp only [readFile, if_neg hcount, hfind, ok_bind, if_neg (Int.not_lt.mpr hk)] at hok
  by_cases hbs : f.fs.blocksize = 0
  · rw [if_pos hbs] at hok
    cases hok
  · rw [if_neg hbs] at hok
    obtain ⟨⟨block, s₂⟩, -, hok⟩ := bind_eq_ok.mp hok
    obtain ⟨buf₂, -, hret⟩ := bind_eq_ok.mp hok
    cases hret
    exact ⟨rfl, rfl⟩

/-- A read from a direct block answers all it was asked for, and moves on by as much, only when it
fits. -/
theorem Found.fits (h : Found f inode) (hcount : count ≠ 0) (hpos : 0 ≤ f.pos.toInt)
    (hblock : f.pos.toNat / f.fs.blocksize < 12) (hsp : s.sp = none ∨ ∃ u, Pending s u)
    {buf' : Option Buffer} {f' : File} {s' : Strings}
    (hok : readFile f (some buf) count mem s = .ok ((count.toNat : Int), buf', f', s'))
    (hadv : f'.pos.toInt = f.pos.toInt + count.toNat) : ReadFits f count mem s := by
  have hbs := h.bounds.1
  obtain ⟨k, s₁, stale, hfind, hk, rfl⟩ := readFile_ok (by omega) hcount hok
  have hrests : Rests f.fs s := rests_of_find hsp hfind hk
  have hblocks : FitsAt f.fs.blocksize f.pos.toNat count.toNat :=
    h.fitsAt hcount (.inl hpos) hblock hfind hk (clean_of_find hsp hfind hk) hok
  obtain ⟨-, rfl⟩ := readFile_moves hcount hfind hk hok
  have hint : f.pos.toInt = (f.pos.toNat : Int) := by
    rw [BitVec.toInt_eq_toNat_cond] at hpos ⊢
    split at hpos
    · rw [if_pos ‹_›]
    · omega
  have hmax : (f.pos + count).toInt < 2 ^ 31 := BitVec.toInt_lt
  refine ⟨hrests, by simp, ?_, hblocks⟩
  rw [hadv, hint] at hmax
  omega

/-- A read is exact only when it fits. -/
theorem ReadsExactly.fits (h : Regular f inode) (hcount : count ≠ 0) (hpos : 0 ≤ f.pos.toInt)
    (hend : f.pos.toNat + count.toNat ≤ inode.size.toNat) (hsp : s.sp = none ∨ ∃ u, Pending s u)
    (hread : ReadsExactly f inode buf count mem s) : ReadFits f count mem s := by
  obtain ⟨buf', f', s', hok, -, -, -, -, -, hadv⟩ := hread
  have hbs := h.toFound.bounds.1
  have hblock : f.pos.toNat / f.fs.blocksize < 12 := by
    refine Nat.div_lt_of_lt_mul ?_
    have hdirect := h.direct
    have hpos0 : 0 < count.toNat := BitVec.toNat_pos_of_ne_zero hcount
    rw [Nat.mul_comm]
    omega
  exact h.toFound.fits hcount hpos hblock hsp hok hadv

/-- A read is exact when it fits. -/
theorem ReadFits.exact (h : Found f inode) (hcount : count ≠ 0) (hpos : 0 ≤ f.pos.toInt)
    (hbuf : count.toNat ≤ buf.size) (hfits : ReadFits f count mem s) :
    ReadsExactly f inode buf count mem s := by
  obtain ⟨buf', s', hok, hsize, -, hbytes⟩ := hfits.readFile h buf hcount hpos hbuf
  refine ⟨buf', _, s', hok, hsize, hbytes, rfl, rfl, rfl, ?_⟩
  have hint := hfits.int
  rw [BitVec.toInt_eq_toNat_cond, BitVec.toNat_add, Nat.mod_eq_of_lt (by omega),
    if_pos (by omega), BitVec.toInt_eq_toNat_cond, if_pos (by omega)]
  push_cast
  rfl

end Read

section Cuts

variable {inode : Inode} {mem : Option (Nat → BitVec 8)}

/-- Reads of a file one after the other, each into a buffer of its own. -/
def readFiles (mem : Option (Nat → BitVec 8)) : File → List (BitVec 32) → Strings →
    Except Fault (List (BitVec 8) × File × Strings)
  | f, [], s => .ok ([], f, s)
  | f, count :: counts, s => do
    let (n, buf, f, s) ← readFile f (some (Buffer.zero count.toNat)) count mem s
    let bytes := match buf with
      | none => []
      | some buf => (List.range n.toNat).map buf.byte
    let (rest, f, s) ← readFiles mem f counts s
    return (bytes ++ rest, f, s)

/-- Every read of a sequence fits, at the position it comes to. -/
def CutsFit (bs : Nat) : Nat → List (BitVec 32) → Prop
  | _, [] => True
  | pos, count :: counts =>
    count ≠ 0 ∧ FitsAt bs pos count.toNat ∧ CutsFit bs (pos + count.toNat) counts

theorem fileBytes_append (v : Volume) (inode : Inode) (pos m n : Nat) :
    fileBytes v inode pos (m + n) = fileBytes v inode pos m ++ fileBytes v inode (pos + m) n := by
  rw [fileBytes, List.range_add, List.map_append, List.map_map]
  congr 1
  refine List.map_congr_left fun i _ => ?_
  rw [Function.comp_apply, Nat.add_assoc]

theorem Found.advance {f : File} (h : Found f inode) (pos : BitVec 32) :
    Found { f with pos := pos } inode := ⟨h.blocks, h.sectors, h.found⟩

/-- Reads that fit return the bytes of the range they cover, in order. -/
theorem readFiles_exact {f : File} {s : Strings} (counts : List (BitVec 32)) (h : Found f inode)
    (hcursor : Rests f.fs s) (hroom : mem ≠ none)
    (hint : f.pos.toNat + (counts.map BitVec.toNat).sum < 2 ^ 31)
    (hfit : CutsFit f.fs.blocksize f.pos.toNat counts) :
    ∃ f' s', readFiles mem f counts s =
      .ok (fileBytes f.fs inode f.pos.toNat (counts.map BitVec.toNat).sum, f', s') := by
  induction counts generalizing f s with
  | nil => exact ⟨f, s, rfl⟩
  | cons count counts ih =>
    obtain ⟨hcount, hat, hrest⟩ := hfit
    rw [List.map_cons, List.sum_cons] at hint ⊢
    have hpos : 0 ≤ f.pos.toInt := by
      rw [BitVec.toInt_eq_toNat_cond, if_pos (by omega)]
      omega
    obtain ⟨buf', s', hread, -, hs', hbytes⟩ := ReadFits.readFile h (Buffer.zero count.toNat) hcount hpos
      (Nat.le_refl _) ⟨hcursor, hroom, by omega, hat⟩
    have hadv : (f.pos + count).toNat = f.pos.toNat + count.toNat := by
      rw [BitVec.toNat_add, Nat.mod_eq_of_lt (by omega)]
    obtain ⟨f'', s'', hreads⟩ := ih (h.advance (f.pos + count)) (.inl hs')
      (by simp only [hadv]; omega) (by simpa only [hadv] using hrest)
    refine ⟨f'', s'', ?_⟩
    rw [readFiles, hread]
    simp only [ok_bind, hreads, Int.toNat_natCast]
    rw [fileBytes_append, hadv]
    have hhead : (List.range count.toNat).map buf'.byte =
        fileBytes f.fs inode f.pos.toNat count.toNat :=
      List.map_congr_left fun i hi => by rw [hbytes, if_pos (List.mem_range.mp hi)]
    rw [hhead]
    rfl

end Cuts

/-- A read is exact exactly when it fits, and reads that fit return together what they cover,
however the range is cut. -/
theorem readFile_exact_iff {f : File} {inode : Inode} {buf : Buffer} {count : BitVec 32}
    {mem : Option (Nat → BitVec 8)} {s : Strings} (h : Regular f inode)
    (hsp : s.sp = none ∨ ∃ u, Pending s u) (hcount : count ≠ 0) (hpos : 0 ≤ f.pos.toInt)
    (hend : f.pos.toNat + count.toNat ≤ inode.size.toNat) (hbuf : count.toNat ≤ buf.size) :
    (ReadsExactly f inode buf count mem s ↔ ReadFits f count mem s) ∧
    ∀ counts : List (BitVec 32), (counts.map BitVec.toNat).sum = count.toNat →
      Rests f.fs s → mem ≠ none → f.pos.toNat + count.toNat < 2 ^ 31 →
      CutsFit f.fs.blocksize f.pos.toNat counts →
      ∃ f' s', readFiles mem f counts s =
        .ok (fileBytes f.fs inode f.pos.toNat count.toNat, f', s') := by
  refine ⟨⟨fun hread => hread.fits h hcount hpos hend hsp, fun hfits => ?_⟩, ?_⟩
  · exact hfits.exact h.toFound hcount hpos hbuf
  · intro counts hsum hcursor hroom hint hcuts
    rw [← hsum] at hint ⊢
    exact readFiles_exact counts h.toFound hcursor hroom hint hcuts

def twoBlockFile (pos : BitVec 32) : File :=
  { fs := twoBlockVolume, respath := missingPath, isdir := -1, pos := pos }

theorem twoBlockFile_regular :
    ∃ inode, inode.size = 2048 ∧ ∀ pos, Regular (twoBlockFile pos) inode := by
  obtain ⟨inode, hread, hsize, htype⟩ : ∃ inode, readInode twoBlockVolume 3 = .ok inode ∧
      inode.size = 2048 ∧ inode.type &&& 0xF000 = 0x8000 := ⟨_, rfl, rfl, rfl⟩
  have hfound : resolve twoBlockVolume missingPath = .ok 3 := by decide +kernel
  have hsectors : twoBlockVolume.sectorsPerBlock = twoBlockVolume.blocksize / 512 := by decide
  refine ⟨inode, hsize, fun pos =>
    ⟨⟨⟨0, by decide, rfl⟩, hsectors, ⟨3, hfound, by decide, hread⟩⟩, htype, ?_⟩⟩
  rw [hsize]
  change (2048 : BitVec 32).toNat ≤ 12 * twoBlockVolume.blocksize
  decide

/-- A read that goes over the end of a block copies from behind the staging buffer. -/
theorem readFile_straddle :
    ∃ inode, Regular (twoBlockFile 1000) inode ∧ inode.size = 2048 ∧
      ¬ReadsExactly (twoBlockFile 1000) inode (Buffer.zero 100) 100 (some fun _ => 0) ⟨[], none⟩ ∧
      readFile (twoBlockFile 1000) (some (Buffer.zero 100)) 100 (some fun _ => 0) ⟨[], none⟩ =
        .error .outOfBounds := by
  obtain ⟨inode, hsize, hreg⟩ := twoBlockFile_regular
  refine ⟨inode, hreg 1000, hsize, fun hread => ?_, rfl⟩
  have hfits := hread.fits (hreg 1000) (by decide) (by decide) (by rw [hsize]; decide) (.inl rfl)
  exact absurd hfits.blocks.inside (by decide)

/-- A read of the whole file, and its range cut at the end of the first block and inside the second. -/
theorem readFile_whole :
    ∃ inode, Regular (twoBlockFile 0) inode ∧
      ReadsExactly (twoBlockFile 0) inode (Buffer.zero 2048) 2048 (some fun _ => 0) ⟨[], none⟩ ∧
      ∃ f' s', readFiles (some fun _ => 0) (twoBlockFile 0) [1024, 300, 724] ⟨[], none⟩ =
        .ok (fileBytes twoBlockVolume inode 0 2048, f', s') := by
  obtain ⟨inode, hsize, hreg⟩ := twoBlockFile_regular
  obtain ⟨hiff, hcuts⟩ := @readFile_exact_iff (twoBlockFile 0) inode (Buffer.zero 2048) 2048
    (some fun _ => 0) ⟨[], none⟩ (hreg 0) (.inl rfl) (by decide) (by decide)
    (by rw [hsize]; decide) (by decide)
  have hfit (pos n : Nat) (hp : pos % 1024 + n % 1024 ≤ 1024) (hn : pos + n ≤ 2048) :
      FitsAt 1024 pos n := by
    constructor <;> omega
  refine ⟨inode, hreg 0, hiff.mpr ⟨.inl rfl, by simp, by decide, hfit 0 2048 (by decide) (by decide)⟩, ?_⟩
  exact hcuts [1024, 300, 724] rfl (.inl rfl) (by simp) (by decide)
    ⟨by decide, hfit 0 1024 (by decide) (by decide), by decide, hfit 1024 300 (by decide) (by decide),
      by decide, hfit 1324 724 (by decide) (by decide), trivial⟩

end Levos.Ext2
