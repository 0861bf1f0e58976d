import Levos.Ext2.Division
import Levos.Ext2.ReadFile

namespace Levos.Ext2

open Levos.Framework Levos.Lib

/-- The path leads to an inode. -/
def Names (v : Volume) (path : CString) (inode : Inode) : Prop :=
  ∃ k, resolve v path = .ok k ∧ 0 ≤ k ∧ readInode v k = .ok inode

/-- A read answers all it was asked for, and all of it is data of the file. -/
def ReturnsData (f : File) (inode : Inode) (buf : Buffer) (count : BitVec 32)
    (mem : Option (Nat → BitVec 8)) (s : Strings) : Prop :=
  ReadsExactly f inode buf count mem s ∧
    (count ≠ 0 → f.pos.toNat + count.toNat ≤ inode.size.toNat)

/-- A read that is to return data of a file: the path leads to a file with the same bytes there, before
the end of the file, and the read fits. -/
structure StillNamed (f : File) (inode : Inode) (count : BitVec 32) (mem : Option (Nat → BitVec 8))
    (s : Strings) : Prop where
  named : ∃ inode', Names f.fs f.respath inode' ∧ ∀ i < count.toNat,
    fileByte f.fs inode' (f.pos.toNat + i) = fileByte f.fs inode (f.pos.toNat + i)
  within : f.pos.toNat + count.toNat ≤ inode.size.toNat
  fits : ReadFits f count mem s

section Frame

variable {f : File} {s s' : Strings} {buf buf' : Buffer} {off : Nat} {b : BitVec 32} {n : Int}

/-- A block read leaves the buffer alone, or reads a direct block of the inode that it finds. -/
theorem fileReadBlock_cases (h : fileReadBlock f buf off b s = .ok (n, buf', s')) :
    (∃ k, findFileInode f.fs f.respath s = .ok (k, s')) ∧
    (buf' = buf ∨ ∃ k inode, findFileInode f.fs f.respath s = .ok (k, s') ∧ 0 ≤ k ∧
      readInode f.fs k = .ok inode ∧ b.toNat < 12 ∧
      buf' = buf.filled off (512 * f.fs.spb) (f.fs.blockByte (inode.dbp b.toNat))) := by
  obtain ⟨⟨k, s₁⟩, hfind, hrest⟩ := bind_eq_ok.mp h
  by_cases hk : k < 0
  · simp only [if_pos hk] at hrest
    cases hrest
    exact ⟨⟨n, hfind⟩, .inl rfl⟩
  · simp only [if_neg hk] at hrest
    obtain ⟨inode, hinode, hrest⟩ := bind_eq_ok.mp hrest
    by_cases hdirect : b.toNat < 12
    · rw [if_pos hdirect] at hrest
      obtain ⟨buf₁, hfill, hret⟩ := bind_eq_ok.mp hrest
      cases hret
      exact ⟨⟨k, hfind⟩,
        .inr ⟨k, inode, hfind, Int.not_lt.mp hk, hinode, hdirect, Buffer.eq_of_fill hfill⟩⟩
    · rw [if_neg hdirect] at hrest
      by_cases hindirect : b.toNat < f.fs.blocksize / 4
      · rw [if_pos hindirect] at hrest
        obtain ⟨bb, -, hret⟩ := bind_eq_ok.mp hrest
        cases hret
      · rw [if_neg hindirect] at hrest
        cases hrest
        exact ⟨⟨k, hfind⟩, .inl rfl⟩

/-- A block read changes nothing before its place in the buffer. -/
theorem fileReadBlock_frame (h : fileReadBlock f buf off b s = .ok (n, buf', s')) {j : Nat}
    (hj : j < off) : buf'.byte j = buf.byte j := by
  rcases (fileReadBlock_cases h).2 with rfl | ⟨k, inode, -, -, -, -, rfl⟩
  · rfl
  · rw [Buffer.filled_byte, if_neg]
    omega

/-- Nor do those of the blocks from number `a` on. -/
theorem readBlocks_frame {c : Int} {is : List Nat} {a j : Nat}
    (h : readBlocks f c is buf s = .ok (buf', s')) (his : ∀ i ∈ is, a ≤ i)
    (hj : j < a * f.fs.blocksize) : buf'.byte j = buf.byte j := by
  induction is generalizing buf s with
  | nil =>
    cases h
    rfl
  | cons i is ih =>
    obtain ⟨⟨n, buf₁, s₁⟩, hfirst, hrest⟩ := bind_eq_ok.mp h
    have hplace : a * f.fs.blocksize ≤ i * f.fs.blocksize := Nat.mul_le_mul_right _ (his i (by simp))
    have hkept : buf₁.byte j = buf.byte j := fileReadBlock_frame hfirst (by omega)
    rw [ih hrest (fun i hi => his i (by simp [hi])), hkept]

theorem fileReadBlock_cursor (h : fileReadBlock f buf off b s = .ok (n, buf', s'))
    (hs : s.sp = none ∨ ∃ u, Pending s u) : s'.sp = none ∨ ∃ u, Pending s' u := by
  have hlooked : Looked f.fs s f.respath s' := (fileReadBlock_cases h).1
  exact hlooked.cursor hs

theorem readBlocks_cursor {c : Int} {is : List Nat} (h : readBlocks f c is buf s = .ok (buf', s'))
    (hs : s.sp = none ∨ ∃ u, Pending s u) : s'.sp = none ∨ ∃ u, Pending s' u := by
  induction is generalizing buf s with
  | nil =>
    cases h
    exact hs
  | cons i is ih =>
    obtain ⟨⟨n, buf₁, s₁⟩, hfirst, hrest⟩ := bind_eq_ok.mp h
    exact ih hrest (fileReadBlock_cursor hfirst hs)

/-- A read leaves the cursor reset or in the text of a path. -/
theorem readFile_cursor {count : BitVec 32} {mem : Option (Nat → BitVec 8)} {r : Option Buffer} {f' : File}
    (h : readFile f (some buf) count mem s = .ok (n, r, f', s'))
    (hs : s.sp = none ∨ ∃ u, Pending s u) : s'.sp = none ∨ ∃ u, Pending s' u := by
  by_cases hcount : count = 0
  · rw [readFile, if_pos hcount] at h
    cases h
    exact hs
  · simp only [readFile, if_neg hcount] at h
    obtain ⟨⟨k, s₁⟩, hfind, hrest⟩ := bind_eq_ok.mp h
    have hs₁ : s₁.sp = none ∨ ∃ u, Pending s₁ u := Looked.cursor ⟨k, hfind⟩ hs
    by_cases hk : k < 0
    · simp only [if_pos hk] at hrest
      cases hrest
      exact hs₁
    · by_cases hzero : f.fs.blocksize = 0
      · simp only [if_neg hk, if_pos hzero] at hrest
        cases hrest
      · simp only [if_neg hk, if_neg hzero] at hrest
        cases mem with
        | none =>
          cases hrest
          exact hs₁
        | some stale =>
          obtain ⟨⟨block, s₂⟩, hblocks, hrest⟩ := bind_eq_ok.mp hrest
          obtain ⟨buf₂, -, hret⟩ := bind_eq_ok.mp hrest
          cases hret
          exact readBlocks_cursor hblocks hs₁

end Frame

section Read

variable {f : File} {inode : Inode} {bytes : Nat → BitVec 8} {count : BitVec 32}
  {mem : Option (Nat → BitVec 8)} {s : Strings}

theorem found_of_names {dev : Device} (hmount : mount dev = .ok (.ok f.fs))
    (h : Names f.fs f.respath inode) : Found f inode :=
  ⟨(mount_geometry hmount).1, (mount_geometry hmount).2, h⟩

/-- A read whose first byte does not come from the staging buffer as it was finds a file under its path
at the time, and its first block is a direct one. -/
theorem named_of_first {dev : Device} (hmount : mount dev = .ok (.ok f.fs)) (hcount : count ≠ 0)
    (hpos : 0 ≤ f.pos.toInt) (hsp : s.sp = none ∨ ∃ u, Pending s u) {stale : Nat → BitVec 8}
    {buf buf' : Buffer} {f' : File} {s' : Strings} {n : Nat}
    (hok : readFile f (some buf) count (some stale) s = .ok ((n : Int), some buf', f', s'))
    (hfirst : buf'.byte 0 ≠ stale (f.pos.toNat % f.fs.blocksize)) :
    f.pos.toNat / f.fs.blocksize < 12 ∧ ∃ inode', Names f.fs f.respath inode' := by
  obtain ⟨hlow, hhigh, -⟩ := mount_bounds hmount
  obtain ⟨k, s₁, stale', hfind, hk, -⟩ := readFile_ok (by omega) hcount hok
  have hs₁ : s₁.sp = none := clean_of_find hsp hfind hk
  rw [readFile_eq hlow hhigh hcount (.inl hpos) hfind hk] at hok
  obtain ⟨⟨block, s₂⟩, hblocks, hok⟩ := bind_eq_ok.mp hok
  obtain ⟨buf₁, hcopy, hret⟩ := bind_eq_ok.mp hok
  obtain rfl : buf₁ = buf' := by
    simp only [pure, Except.pure, Except.ok.injEq, Prod.mk.injEq, Option.some.injEq] at hret
    exact hret.2.1
  rw [List.range'_succ, readBlocks] at hblocks
  obtain ⟨⟨n₀, block₀, s₀⟩, hread, hrest⟩ := bind_eq_ok.mp hblocks
  have hmod : f.pos.toNat % f.fs.blocksize < f.fs.blocksize := Nat.mod_lt _ (by omega)
  have hkept : block.byte (f.pos.toNat % f.fs.blocksize) =
      block₀.byte (f.pos.toNat % f.fs.blocksize) := by
    apply readBlocks_frame (a := 1) hrest
    · intro i hi
      exact (List.mem_range'_1.mp hi).1
    · omega
  have hcopied : buf₁.byte 0 = block.byte (f.pos.toNat % f.fs.blocksize) := by
    have hcount0 : 0 < count.toNat := BitVec.toNat_pos_of_ne_zero hcount
    rw [Buffer.memcpy] at hcopy
    split at hcopy
    · rw [Buffer.eq_of_fill hcopy, Buffer.filled_byte, if_pos (by omega)]
      rfl
    · cases hcopy
  rcases (fileReadBlock_cases hread).2 with hsame | ⟨k', inode', hfind', hk', hinode', hdirect, -⟩
  · rw [hcopied, hkept, hsame] at hfirst
    exact absurd rfl hfirst
  · have hblock : f.pos.toNat / f.fs.blocksize ≤ f.pos.toNat := Nat.div_le_self _ _
    have hindex := blockIndex (c := f.pos.toNat / f.fs.blocksize) (a := 0) (by omega)
    rw [hindex, Nat.add_zero] at hdirect
    have hres := (findFileInode_ok (.inl ⟨hs₁, rfl⟩) hfind').1
    exact ⟨hdirect, inode', k', hres, hk', hinode'⟩

theorem ReadFits.room_of {mem' : Option (Nat → BitVec 8)} (h : ReadFits f count mem s)
    (hroom : mem' ≠ none) : ReadFits f count mem' s := ⟨h.cursor, hroom, h.int, h.blocks⟩

/-- A read returns data of a file, whatever stands in the staging buffer, exactly when the path still
leads to a file with that data. -/
theorem returnsData_iff {dev : Device} (hmount : mount dev = .ok (.ok f.fs)) (hcount : count ≠ 0)
    (hpos : 0 ≤ f.pos.toInt) (hsp : s.sp = none ∨ ∃ u, Pending s u) :
    (∀ mem' : Option (Nat → BitVec 8), (mem' = none ↔ mem = none) →
      ReturnsData f inode ⟨count.toNat, bytes⟩ count mem' s) ↔ StillNamed f inode count mem s := by
  have hbs := (mount_bounds hmount).1
  constructor
  · intro hright
    have hroom : mem ≠ none := by
      intro hnone
      obtain ⟨⟨buf', f', s', hok, -⟩, -⟩ := hright mem Iff.rfl
      obtain ⟨k, s₁, stale, -, -, hsome⟩ := readFile_ok (by omega) hcount hok
      cases hnone.symm.trans hsome
    -- a staging buffer that differs from the first byte of the range
    let stale : Nat → BitVec 8 := fun _ => fileByte f.fs inode f.pos.toNat + 1
    obtain ⟨⟨buf', f', s', hok, -, hbytes, -, -, -, hadv⟩, hwithin⟩ :=
      hright (some stale) (by simp [hroom])
    have hcount0 : 0 < count.toNat := BitVec.toNat_pos_of_ne_zero hcount
    have hfirst : buf'.byte 0 ≠ stale (f.pos.toNat % f.fs.blocksize) := by
      rw [hbytes 0, if_pos hcount0, Nat.add_zero]
      have hnext : ∀ c : BitVec 8, c ≠ c + 1 := by decide
      exact hnext _
    obtain ⟨hblock, inode', hnames⟩ := named_of_first hmount hcount hpos hsp hok hfirst
    have hfound := found_of_names hmount hnames
    have hfits := hfound.fits hcount hpos hblock hsp hok hadv
    refine ⟨⟨inode', hnames, ?_⟩, hwithin hcount, hfits.room_of hroom⟩
    obtain ⟨buf'', s'', hok', -, -, hbytes'⟩ :=
      hfits.readFile hfound ⟨count.toNat, bytes⟩ hcount hpos (Nat.le_refl _)
    have hsame : buf' = buf'' := by
      have heq := hok.symm.trans hok'
      simp only [Except.ok.injEq, Prod.mk.injEq, Option.some.injEq] at heq
      exact heq.2.1
    intro i hi
    have hbyte := hbytes' i
    rw [← hsame, hbytes i, if_pos hi, if_pos hi] at hbyte
    exact hbyte.symm
  · rintro ⟨⟨inode', hnames, hsame⟩, hwithin, hfits⟩ mem' hmem
    have hfits' : ReadFits f count mem' s := hfits.room_of (fun hnone => hfits.room (hmem.mp hnone))
    have hexact : ReadsExactly f inode' ⟨count.toNat, bytes⟩ count mem' s :=
      hfits'.exact (found_of_names hmount hnames) hcount hpos (Nat.le_refl _)
    obtain ⟨buf', f', s', hok, hsize, hbytes, hrest⟩ := hexact
    refine ⟨⟨buf', f', s', hok, hsize, ?_, hrest⟩, fun _ => hwithin⟩
    intro i
    rw [hbytes i]
    by_cases hi : i < count.toNat
    · rw [if_pos hi, if_pos hi, hsame i hi]
    · rw [if_neg hi, if_neg hi]

end Read

end Levos.Ext2
