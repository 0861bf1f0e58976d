import Levos.Ext2.InodeTable
import Levos.Drivers.Ata

namespace Levos.Ext2

open Levos.Framework Levos.Drivers

/-- `ext2_read_block` on the drive: it never returns an error of the device. -/
def readBlockAta (v : Volume) (s : AtaBus) (buf : Buffer) (off : Nat) (block : BitVec 32) :
    Except Fault (Int × Buffer × AtaBus) := do
  let r ← ataRead s buf off v.spb (block * BitVec.ofNat 32 v.spb)
  return (0, r.2.1, r.2.2)

/-- A call of `ext2_read_block` that comes back. -/
structure BlockRead (v : Volume) where
  before : AtaBus
  buf : Buffer
  off : Nat
  block : BitVec 32
  result : Int
  filled : Buffer
  after : AtaBus
  run : readBlockAta v before buf off block = .ok (result, filled, after)

namespace BlockRead

variable {v : Volume}

/-- The sectors that the drive is told to read in the call. -/
def sectors (c : BlockRead v) : List Nat := c.after.commands.drop c.before.commands.length

/-- The sectors of the block, where nothing wraps around. -/
def blockSectors (c : BlockRead v) : List Nat := (List.range v.spb).map (c.block.toNat * v.spb + ·)

/-- An error, or these sectors and no others, and their bytes are in the buffer. -/
def Exact (c : BlockRead v) : Prop :=
  c.result < 0 ∨ c.sectors = c.blockSectors ∧
    c.filled = c.buf.filled c.off (512 * v.spb)
      fun k => c.before.byte (c.block.toNat * v.spb + k / 512) (k % 512)

/-- The sector numbers of the block fit in the 28 bits of the registers. -/
def Addressable (c : BlockRead v) : Prop := c.block.toNat * v.spb + v.spb ≤ 2 ^ 28

end BlockRead

/-- Each of two calls reads its own block, and different blocks have no sector in common. -/
def ReadsApart {v : Volume} (c d : BlockRead v) : Prop :=
  c.Exact ∧ d.Exact ∧ (c.block ≠ d.block → ∀ sector, ¬(sector ∈ c.sectors ∧ sector ∈ d.sectors))

section Sectors

variable {v : Volume}

/-- The sector that is read in place of sector `j` of a block. -/
theorem sectorAt_block (hspb : v.spb ≤ 2 ^ 22) (block : BitVec 32) (j : Nat) :
    sectorAt (block * BitVec.ofNat 32 v.spb) j = (block.toNat * v.spb + j) % 2 ^ 28 := by
  have hword : v.spb % 2 ^ 32 = v.spb := Nat.mod_eq_of_lt (by omega)
  have hdvd : 2 ^ 28 ∣ 2 ^ 32 := Nat.pow_dvd_pow 2 (by decide)
  rw [sectorAt, BitVec.toNat_add, BitVec.toNat_mul, BitVec.toNat_ofNat, BitVec.toNat_ofNat, hword,
    Nat.mod_mod_of_dvd _ hdvd, Nat.add_mod, Nat.mod_mod_of_dvd _ hdvd, Nat.mod_mod_of_dvd _ hdvd,
    ← Nat.add_mod]

/-- What a call does, however large the block number is. -/
theorem BlockRead.spec (hspb : v.spb ≤ 2 ^ 22) (c : BlockRead v) :
    c.result = 0 ∧ c.sectors = (List.range v.spb).map (fun j => (c.block.toNat * v.spb + j) % 2 ^ 28) ∧
      c.filled = c.buf.filled c.off (512 * v.spb)
        fun k => c.before.byte ((c.block.toNat * v.spb + k / 512) % 2 ^ 28) (k % 512) := by
  have hsector := sectorAt_block hspb c.block
  obtain ⟨⟨r, buf', s'⟩, hread, hret⟩ := bind_eq_ok.mp c.run
  obtain ⟨-, hbuf, hcommands⟩ := ataRead_ok hread
  injection hret with hret
  injection hret with hresult hret
  injection hret with hfilled hafter
  refine ⟨hresult.symm, ?_, ?_⟩
  · rw [BlockRead.sectors, ← hafter, hcommands, List.drop_left]
    exact List.map_congr_left fun j _ => hsector j
  · rw [← hfilled, hbuf]
    simp only [hsector]

/-- A block is read right exactly if its last sector has a number in the registers. -/
theorem BlockRead.exact_iff (hpos : 0 < v.spb) (hspb : v.spb ≤ 2 ^ 22) (c : BlockRead v) :
    c.Exact ↔ c.Addressable := by
  obtain ⟨hresult, hsectors, hfilled⟩ := c.spec hspb
  constructor
  · intro hexact
    have hlist : c.sectors = c.blockSectors := by
      cases hexact with
      | inl herror => omega
      | inr hright => exact hright.1
    rw [hsectors] at hlist
    have hlast := List.map_inj_left.mp hlist (v.spb - 1) (List.mem_range.mpr (by omega))
    have hbound := Nat.mod_lt (c.block.toNat * v.spb + (v.spb - 1)) (by decide : 2 ^ 28 > 0)
    rw [BlockRead.Addressable]
    omega
  · intro hfits
    rw [BlockRead.Addressable] at hfits
    have hmod (j : Nat) (hj : j < v.spb) :
        (c.block.toNat * v.spb + j) % 2 ^ 28 = c.block.toNat * v.spb + j := Nat.mod_eq_of_lt (by omega)
    refine .inr ⟨?_, ?_⟩
    · rw [hsectors]
      exact List.map_congr_left fun j hj => hmod j (List.mem_range.mp hj)
    · rw [hfilled, Buffer.filled_eq_iff]
      intro k hk
      rw [hmod _ (by omega)]

/-- The sectors of different blocks are different. -/
theorem block_of_sector {a b n j k : Nat} (hj : j < n) (hk : k < n) (h : a * n + j = b * n + k) :
    a = b := by
  have hdiv := congrArg (· / n) h
  have hpos : 0 < n := by omega
  simpa [Nat.mul_add_div, Nat.mul_comm _ n, Nat.mul_add_div hpos, Nat.div_eq_of_lt hj,
    Nat.div_eq_of_lt hk] using hdiv

/-- Two calls on a mounted volume read their own blocks exactly if both blocks can be addressed. -/
theorem blocks_apart_iff {dev : Device} (hmount : mount dev = .ok (.ok v)) (c d : BlockRead v) :
    ReadsApart c d ↔ c.Addressable ∧ d.Addressable := by
  obtain ⟨hmin, hmax, hsize⟩ := mount_bounds hmount
  have hpos : 0 < v.spb := by omega
  have hspb : v.spb ≤ 2 ^ 22 := by omega
  rw [ReadsApart, c.exact_iff hpos hspb, d.exact_iff hpos hspb]
  constructor
  · intro h
    exact ⟨h.1, h.2.1⟩
  · intro h
    refine ⟨h.1, h.2, fun hblocks sector hboth => ?_⟩
    have hexact (e : BlockRead v) (he : e.Addressable) (hmem : sector ∈ e.sectors) :
        ∃ j < v.spb, e.block.toNat * v.spb + j = sector := by
      have hright := (e.exact_iff hpos hspb).mpr he
      cases hright with
      | inl herror => exact absurd herror (by rw [(e.spec hspb).1]; decide)
      | inr hright =>
        rw [hright.1] at hmem
        obtain ⟨j, hj, hsector⟩ := List.mem_map.mp hmem
        exact ⟨j, List.mem_range.mp hj, hsector⟩
    obtain ⟨j, hj, hc⟩ := hexact c h.1 hboth.1
    obtain ⟨k, hk, hd⟩ := hexact d h.2 hboth.2
    exact hblocks (BitVec.eq_of_toNat_eq (block_of_sector hj hk (hc.trans hd.symm)))

end Sectors

/-- On the sectors of the drive as the device delivers them, the call is `readBlock`. -/
theorem readBlockAta_refines {v : Volume} (hspb : v.spb ≤ 2 ^ 22) (c : BlockRead v)
    (hdisk : v.disk = fun sector i => c.before.byte (sector.toNat % 2 ^ 28) i)
    (hroom : c.off + 512 * v.spb ≤ c.buf.size) : readBlock v c.buf c.off c.block = .ok c.filled := by
  rw [readBlock, Buffer.fill_ok hroom, (c.spec hspb).2.2]
  apply congrArg Except.ok
  rw [Buffer.filled_eq_iff]
  intro k hk
  rw [Volume.blockByte, hdisk, ← sectorAt_block hspb]
  rfl

/-- A call returns when there is room for the block and the drive answers each command. -/
theorem readBlockAta_returns {v : Volume} {s : AtaBus} {buf : Buffer} {off : Nat}
    (hroom : off + 512 * v.spb ≤ buf.size) (hanswers : Answers v.spb s.status) (block : BitVec 32) :
    ∃ c : BlockRead v, c.before = s ∧ c.buf = buf ∧ c.off = off ∧ c.block = block := by
  obtain ⟨r, hr⟩ : ∃ r, readSectors off (block * BitVec.ofNat 32 v.spb) v.spb 0 buf s = .ok r :=
    readSectors_returns (by rwa [Nat.zero_add]) hanswers
  have hrun : readBlockAta v s buf off block = .ok (0, r.1, r.2) := by
    rw [readBlockAta, ataRead, hr]
    rfl
  exact ⟨⟨s, buf, off, block, 0, r.1, r.2, hrun⟩, rfl, rfl, rfl, rfl⟩

/-- A drive that is never busy, with the same number in all words of a sector. -/
def numberedDrive : AtaBus where
  reg := fun _ => 0
  word := fun sector _ => BitVec.ofNat 16 sector
  status := [ATA_SR_DRQ, ATA_SR_DRQ, ATA_SR_DRQ, ATA_SR_DRQ]
  current := 0
  next := 0
  commands := []

theorem smallDevice_mounted : ∃ v, mount smallDevice = .ok (.ok v) ∧ v.spb = 2 := ⟨_, rfl, rfl⟩

theorem numberedDrive_returns {v : Volume} (hspb : v.spb = 2) (block : BitVec 32) :
    ∃ c : BlockRead v, c.before = numberedDrive ∧ c.buf = Buffer.zero 1024 ∧ c.off = 0 ∧
      c.block = block := by
  have hanswers : Answers 2 numberedDrive.status := ⟨_, _, rfl, rfl, _, _, rfl, rfl, trivial⟩
  have hroom : 0 + 512 * v.spb ≤ (Buffer.zero 1024).size := by
    rw [hspb]
    exact Nat.le_refl _
  exact readBlockAta_returns hroom (by rwa [hspb]) block

theorem readsApart_first :
    ∃ v, mount smallDevice = .ok (.ok v) ∧ ∃ c d : BlockRead v, c.block = 0 ∧ d.block = 1 ∧
      ReadsApart c d := by
  obtain ⟨v, hmount, hspb⟩ := smallDevice_mounted
  obtain ⟨c, -, -, -, hc⟩ := numberedDrive_returns hspb 0
  obtain ⟨d, -, -, -, hd⟩ := numberedDrive_returns hspb 1
  have hfirst : c.Addressable := by
    rw [BlockRead.Addressable, hc, hspb]
    decide
  have hsecond : d.Addressable := by
    rw [BlockRead.Addressable, hd, hspb]
    decide
  exact ⟨v, hmount, c, d, hc, hd, (blocks_apart_iff hmount c d).mpr ⟨hfirst, hsecond⟩⟩

/-- With two sectors in a block, block 2 ^ 27 is read from the sectors of block 0. -/
theorem readBlock_wraps :
    ∃ v, mount smallDevice = .ok (.ok v) ∧ ∃ c d : BlockRead v, c.block = 0 ∧ d.block = 0x08000000 ∧
      c.sectors = [0, 1] ∧ d.sectors = [0, 1] ∧ ¬ReadsApart c d := by
  obtain ⟨v, hmount, hspb⟩ := smallDevice_mounted
  obtain ⟨c, -, -, -, hc⟩ := numberedDrive_returns hspb 0
  obtain ⟨d, -, -, -, hd⟩ := numberedDrive_returns hspb 0x08000000
  have hsectors : c.sectors = [0, 1] ∧ d.sectors = [0, 1] := by
    rw [(c.spec (by omega)).2.1, (d.spec (by omega)).2.1, hc, hd, hspb]
    decide
  refine ⟨v, hmount, c, d, hc, hd, hsectors.1, hsectors.2, fun happart => ?_⟩
  have hblocks : c.block ≠ d.block := by
    rw [hc, hd]
    decide
  have hzero : 0 ∈ c.sectors ∧ 0 ∈ d.sectors := by simp [hsectors]
  exact happart.2.2 hblocks 0 hzero

end Levos.Ext2
