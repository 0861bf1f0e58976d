import Levos.Ext2.FileBlock
import Levos.Ext2.ReadNamed

namespace Levos.Ext2

open Levos.Framework Levos.Lib

/-- Byte `i` of a file, from a direct block or from a singly indirect one. -/
def dataByte (v : Volume) (inode : Inode) (i : Nat) : BitVec 8 :=
  if i / v.blocksize < 12 then fileByte v inode i
  else v.blockByte (v.entry inode.singlyBlock (i / v.blocksize - 12)) (i % v.blocksize)

/-- How many of `count` bytes there are from the position up to the end of the file. -/
def available (f : File) (inode : Inode) (count : BitVec 32) : Nat :=
  if 0 ≤ f.pos.toInt then min count.toNat (inode.size.toNat - f.pos.toNat) else 0

/-- The errnos with which a read of the next `n` bytes fails: the lookup of the path has one for an
answer, the staging buffer gets no room, or one of the blocks that the bytes are in is not read. -/
inductive Fails (f : File) (n : Nat) (mem : Option (Nat → BitVec 8)) (s : Strings) : Int → Prop
  | lookup {k : Int} {s' : Strings} : findFileInode f.fs f.respath s = .ok (k, s') → k < 0 →
      Fails f n mem s k
  | staging {k : Int} {s' : Strings} : findFileInode f.fs f.respath s = .ok (k, s') → 0 ≤ k →
      mem = none → Fails f n mem s (-ENOMEM)
  | block {k e : Int} {s' : Strings} {r : Buffer × Strings} (b : Nat) :
      findFileInode f.fs f.respath s = .ok (k, s') → 0 ≤ k →
      f.pos.toNat / f.fs.blocksize ≤ b → b ≤ (f.pos.toNat + n - 1) / f.fs.blocksize →
      fileReadBlock f (Buffer.zero f.fs.blocksize) 0 (BitVec.ofNat 32 b) s' = .ok (e, r) → e < 0 →
      Fails f n mem s e

/-- A read answers the errno with which it fails and stays where it is, or it answers the number of
bytes there are, moves on by as many and has them in the buffer. -/
def EndsRight (f : File) (inode : Inode) (bytes : Nat → BitVec 8) (count : BitVec 32)
    (mem : Option (Nat → BitVec 8)) (s : Strings) : Prop :=
  ∃ n buf' f' s', readFile f (some ⟨count.toNat, bytes⟩) count mem s = .ok (n, some buf', f', s') ∧
    ((0 < available f inode count ∧ Fails f (available f inode count) mem s n ∧ f'.pos = f.pos) ∨
      ((0 < available f inode count → ∀ e, ¬Fails f (available f inode count) mem s e) ∧
        n = available f inode count ∧ f'.pos.toInt = f.pos.toInt + available f inode count ∧
        ∀ i < available f inode count, buf'.byte i = dataByte f.fs inode (f.pos.toNat + i)))

/-- The read is one of no bytes, or it is inside the file and either finds no file or no room, or
ends where the file does at the latest and fits. -/
def EndMeets (f : File) (inode : Inode) (count : BitVec 32) (mem : Option (Nat → BitVec 8))
    (s : Strings) : Prop :=
  count = 0 ∨ 0 < available f inode count ∧
    ((∃ k s', findFileInode f.fs f.respath s = .ok (k, s') ∧ k < 0) ∨ (Rests f.fs s ∧ mem = none) ∨
      (f.pos.toNat + count.toNat ≤ inode.size.toNat ∧ ReadFits f count mem s))

section Read

variable {f f' : File} {inode : Inode} {buf : Buffer} {bytes : Nat → BitVec 8} {count : BitVec 32}
  {mem : Option (Nat → BitVec 8)} {s s' : Strings} {k : Int}

theorem available_pos (h : 0 < available f inode count) :
    0 ≤ f.pos.toInt ∧ count ≠ 0 ∧ f.pos.toNat < inode.size.toNat := by
  rw [available] at h
  split at h
  · have hcount : 0 < count.toNat := by omega
    have hne : count ≠ 0 := by
      intro h0
      rw [h0] at hcount
      exact absurd hcount (by decide)
    exact ⟨by assumption, hne, by omega⟩
  · omega

theorem available_le : available f inode count ≤ count.toNat := by
  rw [available]
  split <;> omega

theorem readFile_miss (hcount : count ≠ 0) (hfind : findFileInode f.fs f.respath s = .ok (k, s'))
    (hk : k < 0) : readFile f (some buf) count mem s = .ok (k, some buf, f, s') := by
  simp only [readFile, if_neg hcount, hfind, ok_bind, if_pos hk]
  rfl

theorem readFile_noRoom (hcount : count ≠ 0) (hbs : f.fs.blocksize ≠ 0)
    (hfind : findFileInode f.fs f.respath s = .ok (k, s')) (hk : 0 ≤ k) :
    readFile f (some buf) count none s = .ok (-ENOMEM, some buf, f, s') := by
  simp only [readFile, if_neg hcount, hfind, ok_bind, if_neg (Int.not_lt.mpr hk), if_neg hbs]
  rfl

/-- Behind the direct blocks a block read never delivers, and whether it answers does not depend on
the buffer. -/
theorem fileReadBlock_behind (h : Found f inode) (hs : s.sp = none) {b : BitVec 32} (hb : 12 ≤ b.toNat) :
    (∀ buf off, ∃ e, fileReadBlock f buf off b s = .error e) ∨
      ∃ s', ∀ buf off, fileReadBlock f buf off b s = .ok (-ENOSYS, buf, s') := by
  obtain ⟨ino, s', hfind, hino, hread, -⟩ := h.find hs
  by_cases hindirect : b.toNat < f.fs.blocksize / 4
  · apply Or.inl
    intro buf off
    have hstage : 0 + f.fs.blocksize ≤ (Buffer.zero f.fs.blocksize).size := by simp [Buffer.zero]
    refine ⟨.uninitialised, ?_⟩
    simp only [fileReadBlock, hfind, ok_bind, if_neg (Int.not_lt.mpr hino), hread,
      if_neg (Nat.not_lt.mpr hb), if_pos hindirect, readBlock_ok h.bounds.2.2 hstage]
  · apply Or.inr
    refine ⟨s', fun buf off => ?_⟩
    simp only [fileReadBlock, hfind, ok_bind, if_neg (Int.not_lt.mpr hino), hread,
      if_neg (Nat.not_lt.mpr hb), if_neg hindirect]
    rfl

/-- A first block behind the direct ones leaves its place in the staging buffer as it was. -/
theorem readBlocks_behind (h : Found f inode) (hs : s.sp = none) {c : Int} {n : Nat}
    {block block' : Buffer} (hbehind : 12 ≤ (BitVec.ofInt 32 c).toNat)
    (hok : readBlocks f c (List.range (n + 1)) block s = .ok (block', s')) {j : Nat}
    (hj : j < f.fs.blocksize) : block'.byte j = block.byte j := by
  rw [List.range_eq_range', List.range'_succ, readBlocks, Int.natCast_zero, Int.add_zero] at hok
  obtain ⟨⟨k, block₁, s₁⟩, hfirst, hrest⟩ := bind_eq_ok.mp hok
  have hsame : block₁ = block := by
    rcases fileReadBlock_behind h hs hbehind with hstops | ⟨s₂, hfails⟩
    · obtain ⟨e, he⟩ := hstops block (0 * f.fs.blocksize)
      cases he.symm.trans hfirst
    · cases (hfails block (0 * f.fs.blocksize)).symm.trans hfirst
      rfl
  rw [← hsame]
  apply readBlocks_frame hrest (a := 1)
  · intro i hi
    exact (List.mem_range'_1.mp hi).1
  · omega

/-- The block of a negative position, and its place from there. -/
theorem cblock_unplaced (h : Found f inode) (hnot : ¬Placed f) :
    ∃ m : Nat, 0 < m ∧ m ≤ 2 ^ 31 ∧
      f.pos.toInt.tdiv (BitVec.ofNat 32 f.fs.blocksize).toInt = -((m / f.fs.blocksize : Nat) : Int) ∧
      f.pos.toInt - -((m / f.fs.blocksize : Nat) : Int) * (BitVec.ofNat 32 f.fs.blocksize).toInt =
        -((m % f.fs.blocksize : Nat) : Int) := by
  have hneg : f.pos.toInt < 0 := Int.not_le.mp fun hpos => hnot (.inl hpos)
  have hblock : f.pos.toNat ≠ f.fs.blocksize := fun hpos => hnot (.inr hpos)
  obtain ⟨m, hm⟩ : ∃ m : Nat, f.pos.toInt = -(m : Int) := ⟨f.pos.toInt.natAbs, by omega⟩
  have hint : f.pos.toInt = (f.pos.toNat : Int) - 2 ^ 32 ∧ 2 ^ 31 ≤ f.pos.toNat := by
    rw [BitVec.toInt_eq_toNat_cond] at hneg ⊢
    split at hneg
    · omega
    · rw [if_neg (by assumption)]
      omega
  obtain ⟨-, hhigh, -⟩ := h.bounds
  refine ⟨m, by omega, by omega, ?_⟩
  rcases Nat.lt_or_eq_of_le hhigh with hbs | hbs
  · have hbsInt : (BitVec.ofNat 32 f.fs.blocksize).toInt = (f.fs.blocksize : Int) := by
      rw [BitVec.toInt_eq_toNat_cond, BitVec.toNat_ofNat, Nat.mod_eq_of_lt (by omega), if_pos (by omega)]
    have hdm : ((f.fs.blocksize * (m / f.fs.blocksize) + m % f.fs.blocksize : Nat) : Int) = m :=
      congrArg _ (Nat.div_add_mod m f.fs.blocksize)
    rw [hbsInt, hm, Int.neg_tdiv, ← Int.ofNat_tdiv]
    refine ⟨rfl, ?_⟩
    rw [Int.natCast_add, Int.natCast_mul, Int.mul_comm] at hdm
    rw [Int.neg_mul]
    omega
  · have hlt : m < 2 ^ 31 := by omega
    have hmin : (BitVec.ofNat 32 (2 ^ 31)).toInt = -(2 ^ 31 : Nat) := by decide
    rw [hbs, hm, hmin, Int.neg_tdiv_neg, ← Int.ofNat_tdiv, Nat.div_eq_of_lt hlt, Nat.mod_eq_of_lt hlt]
    exact ⟨rfl, by omega⟩

/-- A read whose first block is not a direct one delivers what stood in the staging buffer before. -/
theorem readFile_stale (h : Found f inode) (hcount : count ≠ 0)
    (hfar : ¬(Placed f ∧ f.pos.toNat / f.fs.blocksize < 12))
    (hfind : findFileInode f.fs f.respath s = .ok (k, s')) (hk : 0 ≤ k) (hs' : s'.sp = none) {x : BitVec 8}
    {n : Int} {buf' : Buffer} {s₁ : Strings}
    (hok : readFile f (some buf) count (some fun _ => x) s = .ok (n, some buf', f', s₁)) :
    buf'.byte 0 = x := by
  obtain ⟨hlow, hhigh, -⟩ := h.bounds
  have hcount0 : 0 < count.toNat := BitVec.toNat_pos_of_ne_zero hcount
  simp only [readFile, if_neg hcount, hfind, ok_bind, if_neg (Int.not_lt.mpr hk),
    if_neg (by omega : ¬f.fs.blocksize = 0)] at hok
  obtain ⟨⟨block, s₂⟩, hblocks, hok⟩ := bind_eq_ok.mp hok
  obtain ⟨buf₂, hcopy, hret⟩ := bind_eq_ok.mp hok
  cases hret
  -- the first byte comes from the first block
  have hfirst (o : Nat) (hcopy : buf.memcpy block o count.toNat = .ok buf') (ho : o < f.fs.blocksize)
      (hbehind : 12 ≤ (BitVec.ofInt 32 (f.pos.toInt.tdiv (BitVec.ofNat 32 f.fs.blocksize).toInt)).toNat) :
      buf'.byte 0 = x := by
    rw [Buffer.memcpy] at hcopy
    split at hcopy
    · rw [Buffer.eq_of_fill hcopy, Buffer.filled_byte, if_pos (by omega)]
      exact readBlocks_behind h hs' hbehind hblocks ho
    · cases hcopy
  by_cases hplaced : Placed f
  · have hblock : 12 ≤ f.pos.toNat / f.fs.blocksize := Nat.not_lt.mp fun hlt => hfar ⟨hplaced, hlt⟩
    obtain ⟨hdiv, hmod⟩ := hplaced.cblock hlow hhigh
    rw [hdiv, hmod] at hcopy
    refine hfirst _ hcopy (Nat.mod_lt _ (by omega)) ?_
    have hle := Nat.div_le_self f.pos.toNat f.fs.blocksize
    rw [hdiv, BitVec.ofInt_natCast, BitVec.toNat_ofNat, Nat.mod_eq_of_lt (by omega)]
    exact hblock
  · obtain ⟨m, hpos, hmax, hdiv, hmod⟩ := cblock_unplaced h hplaced
    rw [hdiv, hmod] at hcopy
    have hzero : m % f.fs.blocksize = 0 := by
      by_contra hne
      rw [Buffer.memcpy, if_neg (by omega)] at hcopy
      cases hcopy
    rw [hzero] at hcopy
    refine hfirst 0 hcopy (by omega) ?_
    have hdm := Nat.div_add_mod m f.fs.blocksize
    have hle : m / f.fs.blocksize ≤ 2 ^ 31 / 1024 := Nat.div_le_div hmax hlow (by decide)
    have hne : 0 < m / f.fs.blocksize := by
      apply Nat.div_pos
      · exact Nat.le_of_dvd hpos (Nat.dvd_of_mod_eq_zero hzero)
      · omega
    rw [hdiv, BitVec.toNat_ofInt]
    omega

/-- A direct block that is read alone does not fail. -/
theorem fileReadBlock_answers (h : Found f inode) (hs : s.sp = none) {b : BitVec 32} (hb : b.toNat < 12) :
    ∃ r, fileReadBlock f (Buffer.zero f.fs.blocksize) 0 b s = .ok (0, r) := by
  obtain ⟨s', -, hread⟩ := fileReadBlock_direct h hs hb (Buffer.zero f.fs.blocksize) 0
  rw [Buffer.fill_ok (by simp [Buffer.zero])] at hread
  exact ⟨_, hread⟩

/-- Every byte of a read that fits is in a direct block. -/
theorem FitsAt.direct_of_lt {bs pos n i : Nat} (h : FitsAt bs pos n) (hi : i < n) :
    (pos + i) / bs < 12 := by
  obtain ⟨-, hinside, hdirect⟩ := h
  have hndm := Nat.div_add_mod n bs
  have hpdm := Nat.div_add_mod pos bs
  have hlast : (pos + i) / bs < pos / bs + n / bs + 1 := by
    apply Nat.div_lt_of_lt_mul
    rw [Nat.mul_add, Nat.mul_add]
    omega
  omega

/-- A read that fits does not fail. -/
theorem ReadFits.not_fails (h : Found f inode) (hcount : count ≠ 0) (hfits : ReadFits f count mem s)
    {e : Int} : ¬Fails f count.toNat mem s e := by
  obtain ⟨k, s', hfind, hk, hs'⟩ := hfits.cursor.find h
  intro hfails
  cases hfails with
  | lookup hfind' hneg =>
    cases hfind.symm.trans hfind'
    omega
  | staging _ _ hnone => exact hfits.room hnone
  | block b hfind' _ _ hhigh hread hneg =>
    cases hfind.symm.trans hfind'
    have hcount0 : 0 < count.toNat := BitVec.toNat_pos_of_ne_zero hcount
    have hlast : (f.pos.toNat + (count.toNat - 1)) / f.fs.blocksize < 12 :=
      hfits.blocks.direct_of_lt (by omega)
    have hplace : f.pos.toNat + (count.toNat - 1) = f.pos.toNat + count.toNat - 1 := by omega
    rw [hplace] at hlast
    have hb : (BitVec.ofNat 32 b).toNat < 12 := by
      rw [BitVec.toNat_ofNat, Nat.mod_eq_of_lt (by omega)]
      omega
    obtain ⟨r, hanswer⟩ := fileReadBlock_answers h hs' hb
    cases hanswer.symm.trans hread
    omega

/-- A position that moves on by the count has moved on by the number of bytes there are only if there are
as many. -/
theorem available_all (hadv : (f.pos + count).toInt = f.pos.toInt + available f inode count) :
    available f inode count = count.toNat := by
  have hle : available f inode count ≤ count.toNat := available_le
  have hlt := count.isLt
  have hmod : ((f.pos + count).toInt - f.pos.toInt - count.toNat) % 2 ^ 32 = 0 := by
    rw [BitVec.toInt_eq_toNat_bmod, BitVec.toInt_eq_toNat_bmod, BitVec.toNat_add]
    simp only [Int.bmod]
    omega
  omega

/-- A read whose first block is not a direct one comes back only where that block fails. -/
theorem fails_of_behind (h : Found f inode) (hs' : s'.sp = none) (hcount : count ≠ 0)
    (hfind : findFileInode f.fs f.respath s = .ok (k, s')) (hk : 0 ≤ k) (hpos : 0 ≤ f.pos.toInt)
    (hbehind : 12 ≤ f.pos.toNat / f.fs.blocksize) {stale : Nat → BitVec 8} {n : Nat} (hn : 0 < n)
    {r : Int × Option Buffer × File × Strings}
    (hok : readFile f (some buf) count (some stale) s = .ok r) : Fails f n (some stale) s (-ENOSYS) := by
  have hindex : (BitVec.ofNat 32 (f.pos.toNat / f.fs.blocksize)).toNat =
      f.pos.toNat / f.fs.blocksize := by
    have hdiv := Nat.div_le_self f.pos.toNat f.fs.blocksize
    rw [BitVec.toNat_ofNat, Nat.mod_eq_of_lt (by omega)]
  have hread := fileReadBlock_behind h hs' (b := BitVec.ofNat 32 (f.pos.toNat / f.fs.blocksize)) (by omega)
  cases hread with
  | inl hstops =>
    rw [readFile_eq h.bounds.1 h.bounds.2.1 hcount (.inl hpos) hfind hk] at hok
    obtain ⟨⟨block, s₂⟩, hblocks, -⟩ := bind_eq_ok.mp hok
    rw [List.range'_succ, readBlocks] at hblocks
    obtain ⟨r, hfirst, -⟩ := bind_eq_ok.mp hblocks
    have hzero : BitVec.ofInt 32 (((f.pos.toNat / f.fs.blocksize : Nat) : Int) + ((0 : Nat) : Int)) =
        BitVec.ofNat 32 (f.pos.toNat / f.fs.blocksize) := by
      rw [Int.natCast_zero, Int.add_zero, BitVec.ofInt_natCast]
    rw [hzero] at hfirst
    obtain ⟨e, he⟩ := hstops ⟨f.fs.blocksize * (count.toNat / f.fs.blocksize + 1) % 2 ^ 32, stale⟩
      (0 * f.fs.blocksize)
    cases he.symm.trans hfirst
  | inr hfails =>
    obtain ⟨s₂, hfails⟩ := hfails
    apply Fails.block _ hfind hk (Nat.le_refl _) _ (hfails _ _) (by decide)
    apply Nat.div_le_div_right
    omega

/-- A read that ends right fits, where it finds the file and room. -/
theorem EndsRight.fits (h : Found f inode) (hsp : s.sp = none ∨ ∃ u, Pending s u) (hcount : count ≠ 0)
    {stale : Nat → BitVec 8} (hfind : findFileInode f.fs f.respath s = .ok (k, s')) (hk : 0 ≤ k)
    (hright : EndsRight f inode bytes count (some stale) s) :
    0 < available f inode count ∧ f.pos.toNat + count.toNat ≤ inode.size.toNat ∧
      ReadFits f count (some stale) s := by
  obtain ⟨n, buf', f', s₁, hok, hend⟩ := hright
  obtain ⟨hn, rfl⟩ := readFile_moves hcount hfind hk hok
  have hs' : s'.sp = none := clean_of_find hsp hfind hk
  have hcount0 : 0 < count.toNat := BitVec.toNat_pos_of_ne_zero hcount
  rcases hend with ⟨-, -, hstays⟩ | ⟨hsound, hanswer, hadv, -⟩
  · have hzero : count = 0 := by
      have hsame : f.pos + count = f.pos := hstays
      simpa using hsame
    exact absurd hzero hcount
  · have hall : available f inode count = count.toNat := available_all hadv
    have hpos0 : 0 < available f inode count := by omega
    obtain ⟨hpos, -, -⟩ := available_pos hpos0
    have hend : f.pos.toNat + count.toNat ≤ inode.size.toNat := by
      rw [available, if_pos hpos] at hall
      omega
    rw [hall] at hanswer hadv hsound
    refine ⟨hpos0, hend, ?_⟩
    by_cases hblock : f.pos.toNat / f.fs.blocksize < 12
    · rw [hanswer] at hok
      exact h.fits hcount hpos hblock hsp hok hadv
    · have hfails := fails_of_behind h hs' hcount hfind hk hpos (Nat.not_lt.mp hblock) hcount0 hok
      exact absurd hfails (hsound hcount0 (-ENOSYS))

theorem EndsRight.meets (h : Found f inode) (hsp : s.sp = none ∨ ∃ u, Pending s u)
    (hright : EndsRight f inode bytes count mem s) : EndMeets f inode count mem s := by
  have hbs := h.bounds.1
  by_cases hcount : count = 0
  · exact .inl hcount
  · apply Or.inr
    obtain ⟨n, buf', f', s₁, hok, hend⟩ := id hright
    have hlooked := hok
    simp only [readFile, if_neg hcount] at hlooked
    obtain ⟨⟨k, s'⟩, hfind, -⟩ := bind_eq_ok.mp hlooked
    by_cases hk : k < 0
    · rw [readFile_miss hcount hfind hk] at hok
      cases hok
      rcases hend with ⟨hpos, -⟩ | ⟨-, hn, -⟩
      · exact ⟨hpos, .inl ⟨_, _, hfind, hk⟩⟩
      · omega
    · have hk' : 0 ≤ k := Int.not_lt.mp hk
      cases mem with
      | none =>
        rw [readFile_noRoom hcount (by omega) hfind hk'] at hok
        cases hok
        rcases hend with ⟨hpos, -⟩ | ⟨-, hn, -⟩
        · exact ⟨hpos, .inr (.inl ⟨rests_of_find hsp hfind hk', rfl⟩)⟩
        · have hneg : (-ENOMEM : Int) < 0 := by decide
          omega
      | some stale =>
        obtain ⟨hpos, hend⟩ := hright.fits h hsp hcount hfind hk'
        exact ⟨hpos, .inr (.inr hend)⟩

theorem EndMeets.endsRight (h : Found f inode) (bytes : Nat → BitVec 8)
    (hmeets : EndMeets f inode count mem s) : EndsRight f inode bytes count mem s := by
  have hbs := h.bounds.1
  cases hmeets with
  | inl hzero =>
    have hnone : available f inode 0 = 0 := by
      have hle : available f inode 0 ≤ (0 : BitVec 32).toNat := available_le
      simpa using hle
    rw [hzero]
    refine ⟨0, _, f, s, rfl, .inr ⟨?_, ?_⟩⟩
    · omega
    · rw [hnone]
      exact ⟨rfl, by simp, fun i hi => absurd hi (Nat.not_lt_zero i)⟩
  | inr hmeets =>
    obtain ⟨hpos, hmeets⟩ := hmeets
    obtain ⟨hposint, hcount, hlt⟩ := available_pos hpos
    rcases hmeets with ⟨k, s', hfind, hk⟩ | ⟨hrests, rfl⟩ | ⟨hend, hfits⟩
    · exact ⟨k, _, f, s', readFile_miss hcount hfind hk, .inl ⟨hpos, .lookup hfind hk, rfl⟩⟩
    · obtain ⟨k, s', hfind, hk, -⟩ := hrests.find h
      refine ⟨-ENOMEM, _, f, s', readFile_noRoom hcount (by omega) hfind hk, .inl ⟨hpos, ?_, rfl⟩⟩
      exact .staging hfind hk rfl
    · have hall : available f inode count = count.toNat := by
        rw [available, if_pos hposint]
        omega
      have hexact : ReadsExactly f inode ⟨count.toNat, bytes⟩ count mem s :=
        hfits.exact h hcount hposint (Nat.le_refl _)
      obtain ⟨buf', f', s', hok, -, hbytes, -, -, -, hadv⟩ := hexact
      rw [EndsRight, hall]
      refine ⟨_, buf', f', s', hok, .inr ⟨fun _ e => hfits.not_fails h hcount, rfl, hadv, ?_⟩⟩
      intro i hi
      rw [hbytes i, if_pos hi, dataByte, if_pos (hfits.blocks.direct_of_lt hi)]

/-- A read ends right exactly when it meets the condition. -/
theorem endsRight_iff (h : Found f inode) (hsp : s.sp = none ∨ ∃ u, Pending s u) :
    EndsRight f inode bytes count mem s ↔ EndMeets f inode count mem s :=
  ⟨EndsRight.meets h hsp, EndMeets.endsRight h bytes⟩

end Read

/-- `file_set_position`. -/
def setPosition (f : File) (p : BitVec 32) : File := { f with pos := p }

/-- An open file, with the cursor and the copies of `strtok`. -/
structure OpenFile where
  file : File
  strings : Strings

/-- What is done with an open file, or to the cursor by others. A read gets a buffer of `count` bytes;
`mem` is what `kmalloc` has for its staging buffer. -/
inductive FileCall
  | read (bytes : Nat → BitVec 8) (count : BitVec 32) (mem : Option (Nat → BitVec 8))
  | setPosition (p : BitVec 32)
  | lookup (v : Volume) (path : CString)

def OpenFile.call (s : OpenFile) : FileCall → Except Fault OpenFile
  | .read bytes count mem => do
    let r ← readFile s.file (some ⟨count.toNat, bytes⟩) count mem s.strings
    return ⟨r.2.2.1, r.2.2.2⟩
  | .setPosition p => .ok { s with file := Ext2.setPosition s.file p }
  | .lookup v path => do
    let r ← findFileInode v path s.strings
    return { s with strings := r.2 }

def Calls (s : OpenFile) (c : FileCall) (s' : OpenFile) : Prop := s.call c = .ok s'

/-- A read of the file ends right. -/
def CallEndsRight (inode : Inode) (s : OpenFile) : FileCall → Prop
  | .read bytes count mem => EndsRight s.file inode bytes count mem s.strings
  | _ => True

/-- A read of the file meets the condition. -/
def CallMeets (inode : Inode) (s : OpenFile) : FileCall → Prop
  | .read _ count mem => EndMeets s.file inode count mem s.strings
  | _ => True

/-- As long as the position is only set inside the file, it is not behind its end. -/
def PositionWithin (inode : Inode) (calls : List FileCall) (s : OpenFile) : Prop :=
  (∀ p : BitVec 32, .setPosition p ∈ calls → p.toInt ≤ inode.size.toNat) →
    s.file.pos.toInt ≤ inode.size.toNat

/-- The file is still the one that was opened, and the cursor is reset or in the text of a path. -/
structure Same (v : Volume) (path : CString) (s : OpenFile) : Prop where
  fs : s.file.fs = v
  respath : s.file.respath = path
  cursor : s.strings.sp = none ∨ ∃ u, Pending s.strings u

section Calls

variable {v : Volume} {path : CString} {inode : Inode} {s s' : OpenFile} {c : FileCall}

/-- A read changes nothing of the file but its position. -/
theorem readFile_same {f f' : File} {buf : Buffer} {count : BitVec 32} {mem : Option (Nat → BitVec 8)}
    {t t' : Strings} {n : Int} {r : Option Buffer}
    (h : readFile f (some buf) count mem t = .ok (n, r, f', t')) :
    f'.fs = f.fs ∧ f'.respath = f.respath := by
  by_cases hcount : count = 0
  · rw [readFile, if_pos hcount] at h
    cases h
    exact ⟨rfl, rfl⟩
  · have hlooked := h
    simp only [readFile, if_neg hcount] at hlooked
    obtain ⟨⟨k, t₁⟩, hfind, hrest⟩ := bind_eq_ok.mp hlooked
    by_cases hk : k < 0
    · rw [readFile_miss hcount hfind hk] at h
      cases h
      exact ⟨rfl, rfl⟩
    · have hk' : 0 ≤ k := Int.not_lt.mp hk
      cases mem with
      | none =>
        simp only [if_neg hk] at hrest
        split at hrest
        · cases hrest
        · cases hrest
          exact ⟨rfl, rfl⟩
      | some stale =>
        obtain ⟨-, rfl⟩ := readFile_moves hcount hfind hk' h
        exact ⟨rfl, rfl⟩

theorem Same.call (h : Same v path s) (hcall : s.call c = .ok s') : Same v path s' := by
  obtain ⟨hfs, hrespath, hcursor⟩ := h
  cases c with
  | read bytes count mem =>
    obtain ⟨⟨n, r, f', t'⟩, hread, hret⟩ := bind_eq_ok.mp hcall
    cases hret
    obtain ⟨hfs', hrespath'⟩ := readFile_same hread
    exact ⟨hfs'.trans hfs, hrespath'.trans hrespath, readFile_cursor hread hcursor⟩
  | setPosition p =>
    cases hcall
    exact ⟨hfs, hrespath, hcursor⟩
  | lookup w p =>
    obtain ⟨⟨k, t'⟩, hfind, hret⟩ := bind_eq_ok.mp hcall
    cases hret
    exact ⟨hfs, hrespath, Looked.cursor ⟨k, hfind⟩ hcursor⟩

/-- A read that ends right does not go behind the end of the file. -/
theorem EndsRight.within {f f' : File} {bytes : Nat → BitVec 8} {count : BitVec 32}
    {mem : Option (Nat → BitVec 8)} {t t' : Strings} {n : Int} {r : Option Buffer}
    (h : EndsRight f inode bytes count mem t)
    (hread : readFile f (some ⟨count.toNat, bytes⟩) count mem t = .ok (n, r, f', t'))
    (hpos : f.pos.toInt ≤ inode.size.toNat) : f'.pos.toInt ≤ inode.size.toNat := by
  obtain ⟨n', buf', f'', t'', hok, hend⟩ := h
  cases hread.symm.trans hok
  rcases hend with ⟨-, -, hstays⟩ | ⟨-, -, hadv, -⟩
  · rw [hstays]
    exact hpos
  · by_cases havail : 0 < available f inode count
    · obtain ⟨hnonneg, -, hlt⟩ := available_pos havail
      have hint : f.pos.toInt = f.pos.toNat := by
        rw [BitVec.toInt_eq_toNat_cond] at hnonneg ⊢
        split at hnonneg
        · rw [if_pos (by assumption)]
        · omega
      rw [available, if_pos hnonneg] at hadv
      omega
    · omega

theorem PositionWithin.call {pre : List FileCall} (h : PositionWithin inode pre s)
    (hright : CallEndsRight inode s c) (hcall : s.call c = .ok s') :
    PositionWithin inode (pre ++ [c]) s' := by
  intro hset
  have hbefore : s.file.pos.toInt ≤ inode.size.toNat := by
    apply h
    intro p hp
    exact hset p (by simp [hp])
  cases c with
  | read bytes count mem =>
    obtain ⟨⟨n, r, f', t'⟩, hread, hret⟩ := bind_eq_ok.mp hcall
    cases hret
    exact EndsRight.within hright hread hbefore
  | setPosition p =>
    cases hcall
    exact hset p (by simp)
  | lookup w p =>
    obtain ⟨⟨k, t'⟩, -, hret⟩ := bind_eq_ok.mp hcall
    cases hret
    exact hbefore

end Calls

/-- In every run of calls on a file that was opened, the reads all end right, and the position stays in
the file as long as it is set there, exactly when every read meets the condition. -/
theorem file_reads_end_iff {dev : Device} {v : Volume} {path : CString} {inode : Inode} {room : Bool}
    {f : File} {strings : Strings} {calls : List FileCall} (hmount : mount dev = .ok (.ok v))
    (hnames : Names v path inode) (hopen : open' (some v) (some path) room = .ok f)
    (hsp : strings.sp = none ∨ ∃ u, Pending strings u) :
    EachLabel Calls ⟨f, strings⟩ calls (CallEndsRight inode) ∧
        AtEveryPoint Calls ⟨f, strings⟩ calls (PositionWithin inode) ↔
      EachLabel Calls ⟨f, strings⟩ calls (CallMeets inode) := by
  have hf : f = { fs := v, respath := path, isdir := -1, pos := 0 } := by
    cases room with
    | false => cases hopen
    | true =>
      cases hopen
      rfl
  have hsame : Same v path ⟨f, strings⟩ := by
    rw [hf]
    exact ⟨rfl, rfl, hsp⟩
  have hiff : EachLabel Calls ⟨f, strings⟩ calls (CallEndsRight inode) ↔
      EachLabel Calls ⟨f, strings⟩ calls (CallMeets inode) := by
    apply eachLabel_iff (I := Same v path) hsame
    · intro t c _ ht
      cases c with
      | read bytes count mem =>
        obtain ⟨hfs, hrespath, hcursor⟩ := ht
        have hvolume : mount dev = .ok (.ok t.file.fs) := by rw [hfs, hmount]
        have hpath : Names t.file.fs t.file.respath inode := by
          rw [hfs, hrespath]
          exact hnames
        exact endsRight_iff (found_of_names hvolume hpath) hcursor
      | setPosition p => exact Iff.rfl
      | lookup w p => exact Iff.rfl
    · intro t c t' _ ht _ hcall
      exact ht.call hcall
  rw [← hiff]
  constructor
  · intro hall
    exact hall.1
  · intro hright
    refine ⟨hright, ?_⟩
    apply atEveryPoint_of_step
    · intro _
      rw [hf]
      exact Int.natCast_nonneg _
    · intro pre c post t t' hcut hpre hbefore hcall
      exact hbefore.call (hright pre c post t hcut hpre) hcall

theorem deviceFile_names : ∃ inode, Names fileVolume missingPath inode ∧ inode.size = 2048 := by
  obtain ⟨inode, hread, hsize⟩ : ∃ inode, readInode fileVolume 3 = .ok inode ∧ inode.size = 2048 :=
    ⟨_, rfl, rfl⟩
  have hfound : resolve fileVolume missingPath = .ok 3 := by decide +kernel
  exact ⟨inode, ⟨3, hfound, by decide, hread⟩, hsize⟩

/-- A read of 3000 bytes of a file of 2048 answers 3000. -/
theorem read_behind_the_end :
    ∃ inode, Names fileVolume missingPath inode ∧ inode.size = 2048 ∧
      open' (some fileVolume) (some missingPath) true = .ok deviceFile ∧
      (∃ r, readFile deviceFile (some (Buffer.zero 3000)) 3000 (some fun _ => 0) ⟨[], none⟩ =
        .ok (3000, r)) ∧
      ¬(EachLabel Calls ⟨deviceFile, ⟨[], none⟩⟩ [.read (fun _ => 0) 3000 (some fun _ => 0)]
          (CallEndsRight inode) ∧
        AtEveryPoint Calls ⟨deviceFile, ⟨[], none⟩⟩ [.read (fun _ => 0) 3000 (some fun _ => 0)]
          (PositionWithin inode)) := by
  obtain ⟨inode, hnames, hsize⟩ := deviceFile_names
  have hmount : mount fileDevice = .ok (.ok deviceFile.fs) := rfl
  have hfound : Found deviceFile inode := found_of_names hmount hnames
  have hblocks : FitsAt 1024 0 3000 := by constructor <;> decide
  have hfits : ReadFits deviceFile 3000 (some fun _ => 0) ⟨[], none⟩ :=
    ⟨.inl rfl, by simp, by decide, hblocks⟩
  obtain ⟨buf', s', hread, -⟩ :=
    hfits.readFile hfound (Buffer.zero 3000) (by decide) (by decide) (by decide)
  refine ⟨inode, hnames, hsize, rfl, ⟨_, hread⟩, ?_⟩
  intro hright
  have hfirst : EndsRight deviceFile inode (fun _ => 0) 3000 (some fun _ => 0) ⟨[], none⟩ :=
    hright.1 [] _ [] _ rfl (.nil _)
  rcases (endsRight_iff hfound (.inl rfl)).mp hfirst with hzero | ⟨-, hmeets⟩
  · cases hzero
  · rcases hmeets with ⟨k, t, hfind, hk⟩ | ⟨-, hnone⟩ | ⟨hend, -⟩
    · obtain ⟨ino, t', hfind', hino, -⟩ := hfound.find (s := ⟨[], none⟩) rfl
      cases hfind.symm.trans hfind'
      omega
    · cases hnone
    · rw [hsize] at hend
      exact absurd hend (by decide)

/-- Two reads up to the end of the file end right. -/
theorem reads_to_the_end :
    ∃ inode, Names fileVolume missingPath inode ∧
      EachLabel Calls ⟨deviceFile, ⟨[], none⟩⟩ [.read (fun _ => 0) 2048 (some fun _ => 0), .setPosition 0]
        (CallEndsRight inode) ∧
      AtEveryPoint Calls ⟨deviceFile, ⟨[], none⟩⟩
        [.read (fun _ => 0) 2048 (some fun _ => 0), .setPosition 0] (PositionWithin inode) := by
  obtain ⟨inode, hnames, hsize⟩ := deviceFile_names
  have hblocks : FitsAt 1024 0 2048 := by constructor <;> decide
  have hmeets : CallMeets inode ⟨deviceFile, ⟨[], none⟩⟩ (.read (fun _ => 0) 2048 (some fun _ => 0)) := by
    refine .inr ⟨?_, .inr (.inr ⟨?_, .inl rfl, by simp, by decide, hblocks⟩)⟩
    · rw [available, hsize]
      decide
    · rw [hsize]
      decide
  have hrun : EachLabel Calls ⟨deviceFile, ⟨[], none⟩⟩
      [.read (fun _ => 0) 2048 (some fun _ => 0), .setPosition 0] (CallMeets inode) :=
    .cons hmeets fun t _ => .cons trivial fun t' _ => .nil
  have hopen : open' (some fileVolume) (some missingPath) true = .ok deviceFile := rfl
  have hmount : mount fileDevice = .ok (.ok fileVolume) := rfl
  exact ⟨inode, hnames, (file_reads_end_iff hmount hnames hopen (.inl rfl)).mpr hrun⟩

end Levos.Ext2
