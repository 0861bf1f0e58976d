import Levos.Framework.Buffer
import Mathlib.Data.BitVec
import Mathlib.Tactic.SplitIfs

namespace Levos.Drivers

open Levos.Framework

def ATA_SR_BSY : BitVec 8 := 0x80
def ATA_SR_DRQ : BitVec 8 := 0x08
def ATA_SR_ERR : BitVec 8 := 0x01

def ATA_CMD_READ_PIO : BitVec 8 := 0x20

def ATA_REG_SECCOUNT0 : Nat := 0x02
def ATA_REG_LBA0 : Nat := 0x03
def ATA_REG_LBA1 : Nat := 0x04
def ATA_REG_LBA2 : Nat := 0x05
def ATA_REG_HDDEVSEL : Nat := 0x06
def ATA_REG_COMMAND : Nat := 0x07

/-- The primary bus with its drive: the registers as they were last written, the words of each sector,
and what the status register will show when it is read. A drive that was told to read hands out the words
of sector `current` from word `next` on; `commands` are the sectors it was told to read so far. -/
structure AtaBus where
  reg : Nat → BitVec 8
  word : Nat → Nat → BitVec 16
  status : List (BitVec 8)
  current : Nat
  next : Nat
  commands : List Nat

namespace AtaBus

/-- The sector number that stands in the LBA registers: 28 bits. -/
def lba (s : AtaBus) : BitVec 28 :=
  (s.reg ATA_REG_HDDEVSEL).setWidth 4 ++ s.reg ATA_REG_LBA2 ++ s.reg ATA_REG_LBA1 ++ s.reg ATA_REG_LBA0

def outportb (s : AtaBus) (r : Nat) (v : BitVec 8) : AtaBus :=
  if r = ATA_REG_COMMAND ∧ v = ATA_CMD_READ_PIO then
    { s with current := s.lba.toNat, next := 0, commands := s.commands ++ [s.lba.toNat] }
  else { s with reg := fun x => if x = r then v else s.reg x }

/-- The data register. -/
def inportw (s : AtaBus) : BitVec 16 × AtaBus := (s.word s.current s.next, { s with next := s.next + 1 })

/-- Byte `i` of a sector. -/
def byte (s : AtaBus) (sector i : Nat) : BitVec 8 := (s.word sector (i / 2)).extractLsb' (8 * (i % 2)) 8

end AtaBus

/-- `retry` in `ide_poll`; without an end if the drive stays busy. -/
def retry : List (BitVec 8) → Except Fault (List (BitVec 8))
  | [] => .error .diverges
  | status :: rest => if status &&& ATA_SR_BSY ≠ 0 then retry rest else .ok rest

/-- `retry2` in `ide_poll`. -/
def retry2 : List (BitVec 8) → Except Fault (List (BitVec 8))
  | [] => .error .diverges
  | status :: rest =>
    if status &&& ATA_SR_ERR ≠ 0 then .error (.panic "ata: ERROR bit set!\n")
    else if status &&& ATA_SR_DRQ = 0 then retry2 rest
    else .ok rest

/-- `ide_poll`. The reads of `ide_400ns_delay` only take time. -/
def idePoll (s : AtaBus) : Except Fault AtaBus := do
  let rest ← retry s.status
  let rest ← retry2 rest
  return { s with status := rest }

/-- The loop of `ata_read_one` over the words of a sector, with `n` of them to go from word `i` on. -/
def readWords (off : Nat) : Nat → Nat → Buffer → AtaBus → Except Fault (Buffer × AtaBus)
  | 0, _, buf, s => .ok (buf, s)
  | n + 1, i, buf, s => do
    let (d, s) := s.inportw
    let buf ← buf.fill (off + i * 2) 2 fun k => d.extractLsb' (8 * k) 8
    readWords off n (i + 1) buf s

/-- `ata_read_one`, into a buffer at offset `off`. -/
def ataReadOne (s : AtaBus) (buf : Buffer) (off : Nat) (lba : BitVec 32) :
    Except Fault (Buffer × AtaBus) := do
  let s := s.outportb ATA_REG_HDDEVSEL (0xE0 ||| ((lba >>> 24) &&& 0x0F).setWidth 8)
  let s := s.outportb 1 0x00
  let s := s.outportb ATA_REG_SECCOUNT0 1
  let s := s.outportb ATA_REG_LBA0 (lba.setWidth 8)
  let s := s.outportb ATA_REG_LBA1 ((lba >>> 8).setWidth 8)
  let s := s.outportb ATA_REG_LBA2 ((lba >>> 16).setWidth 8)
  let s := s.outportb ATA_REG_COMMAND ATA_CMD_READ_PIO
  let s ← idePoll s
  readWords off 256 0 buf s

/-- The loop of `ata_read`, with `n` sectors to go from sector `i` on. -/
def readSectors (off : Nat) (pos : BitVec 32) : Nat → Nat → Buffer → AtaBus →
    Except Fault (Buffer × AtaBus)
  | 0, _, buf, s => .ok (buf, s)
  | n + 1, i, buf, s => do
    let (buf, s) ← ataReadOne s buf (off + 512 * i) (pos + BitVec.ofNat 32 i)
    readSectors off pos n (i + 1) buf s

/-- `ata_read`: `count` sectors from sector `pos` on. -/
def ataRead (s : AtaBus) (buf : Buffer) (off count : Nat) (pos : BitVec 32) :
    Except Fault (Nat × Buffer × AtaBus) := do
  let (buf, s) ← readSectors off pos count 0 buf s
  return (count, buf, s)

section Registers

variable {s : AtaBus} {lba : BitVec 32}

/-- The bits that are written to the registers are the low 28 bits of the sector number. -/
theorem lba_bits (lba : BitVec 32) :
    ((0xE0#8 ||| ((lba >>> 24) &&& 0x0F).setWidth 8).setWidth 4 ++ (lba >>> 16).setWidth 8 ++
      (lba >>> 8).setWidth 8 ++ lba.setWidth 8 : BitVec 28) = lba.setWidth 28 := by
  have hcommand : ∀ j < 4, (0xE0#8).getLsbD j = false := by decide
  have hmask : ∀ j < 4, (0x0F#32).getLsbD j = true := by decide
  apply BitVec.eq_of_getLsbD_eq
  intro i hi
  have hhigh := hcommand (i - 24)
  have hlow := hmask (i - 24)
  simp only [BitVec.getLsbD_append, BitVec.getLsbD_setWidth, BitVec.getLsbD_or, BitVec.getLsbD_and,
    BitVec.getLsbD_ushiftRight]
  grind

/-- What the drive was told when the command is written. -/
theorem command_sent (s : AtaBus) (lba : BitVec 32) :
    ∃ reg, ((((((s.outportb ATA_REG_HDDEVSEL (0xE0 ||| ((lba >>> 24) &&& 0x0F).setWidth 8)).outportb 1
      0x00).outportb ATA_REG_SECCOUNT0 1).outportb ATA_REG_LBA0 (lba.setWidth 8)).outportb ATA_REG_LBA1
      ((lba >>> 8).setWidth 8)).outportb ATA_REG_LBA2 ((lba >>> 16).setWidth 8)).outportb
      ATA_REG_COMMAND ATA_CMD_READ_PIO =
      { s with
        reg := reg, current := lba.toNat % 2 ^ 28, next := 0
        commands := s.commands ++ [lba.toNat % 2 ^ 28] } := by
  have hnumber : lba.toNat % 2 ^ 28 = (lba.setWidth 28).toNat := (BitVec.toNat_setWidth 28 lba).symm
  rw [hnumber, ← lba_bits lba]
  exact ⟨_, rfl⟩

end Registers

theorem idePoll_ok {s s' : AtaBus} (h : idePoll s = .ok s') : ∃ rest, s' = { s with status := rest } := by
  obtain ⟨rest, -, h⟩ := bind_eq_ok.mp h
  obtain ⟨rest', -, h⟩ := bind_eq_ok.mp h
  exact ⟨rest', (Except.ok.inj h).symm⟩

section Transfer

variable {s s' : AtaBus} {buf buf' : Buffer} {off n i : Nat}

/-- The words of a sector, one behind the other. -/
theorem readWords_ok (hnext : s.next = i) (h : readWords off n i buf s = .ok (buf', s')) :
    buf' = buf.filled (off + i * 2) (2 * n) (fun k => s.byte s.current (2 * i + k)) ∧
      s'.word = s.word ∧ s'.commands = s.commands := by
  induction n generalizing i buf s with
  | zero =>
    cases h
    exact ⟨(Buffer.filled_nothing _ _ _).symm, rfl, rfl⟩
  | succ n ih =>
    obtain ⟨buf₁, hfill, h⟩ := bind_eq_ok.mp h
    obtain ⟨hbuf, hword, hcommands⟩ := ih (s := { s with next := s.next + 1 }) (by rw [hnext]) h
    refine ⟨?_, hword, hcommands⟩
    have hfirst : buf₁ = buf.filled (off + i * 2) 2 (fun k => s.byte s.current (2 * i + k)) := by
      obtain rfl := Buffer.eq_of_fill hfill
      rw [Buffer.filled_eq_iff]
      intro k hk
      rw [AtaBus.byte, hnext, show (2 * i + k) / 2 = i by omega, show (2 * i + k) % 2 = k by omega]
    have hrest : off + (i + 1) * 2 = off + i * 2 + 2 := by omega
    have hbytes : (fun k => s.byte s.current (2 * (i + 1) + k)) =
        fun k => s.byte s.current (2 * i + (2 + k)) := by
      funext k
      rw [show 2 * (i + 1) + k = 2 * i + (2 + k) by omega]
    rw [hbuf, hfirst, hrest, show 2 * (n + 1) = 2 + 2 * n by omega]
    exact (congrArg _ hbytes).trans (Buffer.filled_append (fun k => s.byte s.current (2 * i + k)))

/-- `ata_read_one` reads the sector whose number the registers can hold. -/
theorem ataReadOne_ok {lba : BitVec 32} (h : ataReadOne s buf off lba = .ok (buf', s')) :
    buf' = buf.filled off 512 (s.byte (lba.toNat % 2 ^ 28)) ∧ s'.word = s.word ∧
      s'.commands = s.commands ++ [lba.toNat % 2 ^ 28] := by
  obtain ⟨reg, hsent⟩ := command_sent s lba
  simp only [ataReadOne, hsent] at h
  obtain ⟨s₁, hpoll, h⟩ := bind_eq_ok.mp h
  obtain ⟨rest, rfl⟩ := idePoll_ok hpoll
  obtain ⟨hbuf, hword, hcommands⟩ := readWords_ok (i := 0) rfl h
  refine ⟨?_, hword, hcommands⟩
  rw [hbuf]
  simp only [Nat.zero_mul, Nat.add_zero, Nat.mul_zero, Nat.zero_add]
  rfl

/-- The sector that is read for sector number `pos + j`, where both have 32 bits. -/
def sectorAt (pos : BitVec 32) (j : Nat) : Nat := (pos + BitVec.ofNat 32 j).toNat % 2 ^ 28

theorem readSectors_ok {pos : BitVec 32} (h : readSectors off pos n i buf s = .ok (buf', s')) :
    buf' = buf.filled (off + 512 * i) (512 * n)
        (fun k => s.byte (sectorAt pos (i + k / 512)) (k % 512)) ∧
      s'.word = s.word ∧ s'.commands = s.commands ++ (List.range' i n).map (sectorAt pos) := by
  induction n generalizing i buf s with
  | zero =>
    cases h
    exact ⟨(Buffer.filled_nothing _ _ _).symm, rfl, by simp⟩
  | succ n ih =>
    obtain ⟨⟨buf₁, s₁⟩, hone, h⟩ := bind_eq_ok.mp h
    obtain ⟨hfirst, hword₁, hcommands₁⟩ := ataReadOne_ok hone
    obtain ⟨hbuf, hword, hcommands⟩ := ih h
    refine ⟨?_, hword.trans hword₁, ?_⟩
    · have hbyte (a b : Nat) : s₁.byte a b = s.byte a b := by rw [AtaBus.byte, AtaBus.byte, hword₁]
      have hsector : buf₁ = buf.filled (off + 512 * i) 512
          (fun k => s.byte (sectorAt pos (i + k / 512)) (k % 512)) := by
        rw [hfirst, Buffer.filled_eq_iff]
        intro k hk
        rw [show i + k / 512 = i by omega, Nat.mod_eq_of_lt hk]
        rfl
      have hrest : off + 512 * (i + 1) = off + 512 * i + 512 := by omega
      have hbytes : (fun k => s₁.byte (sectorAt pos (i + 1 + k / 512)) (k % 512)) =
          fun k => s.byte (sectorAt pos (i + (512 + k) / 512)) ((512 + k) % 512) := by
        funext k
        rw [hbyte, show i + 1 + k / 512 = i + (512 + k) / 512 by omega,
          show k % 512 = (512 + k) % 512 by omega]
      have hcount : 512 * (n + 1) = 512 + 512 * n := (Nat.mul_succ 512 n).trans (Nat.add_comm _ _)
      rw [hbuf, hsector, hrest, hbytes, hcount]
      exact Buffer.filled_append (fun k => s.byte (sectorAt pos (i + k / 512)) (k % 512))
    · rw [hcommands, hcommands₁, List.range'_succ, List.map_cons, List.append_assoc]
      rfl

theorem ataRead_ok {count r : Nat} {pos : BitVec 32}
    (h : ataRead s buf off count pos = .ok (r, buf', s')) :
    r = count ∧ buf' = buf.filled off (512 * count)
        (fun k => s.byte (sectorAt pos (k / 512)) (k % 512)) ∧
      s'.commands = s.commands ++ (List.range count).map (sectorAt pos) := by
  obtain ⟨⟨buf₁, s₁⟩, hread, h⟩ := bind_eq_ok.mp h
  cases h
  obtain ⟨hbuf, -, hcommands⟩ := readSectors_ok hread
  refine ⟨rfl, ?_, ?_⟩
  · rw [hbuf]
    simp only [Nat.mul_zero, Nat.add_zero, Nat.zero_add]
  · rw [hcommands, List.range_eq_range']

/-- The status register shows `n` times that the drive is done and has data. -/
def Answers : Nat → List (BitVec 8) → Prop
  | 0, _ => True
  | n + 1, status => ∃ rest rest', retry status = .ok rest ∧ retry2 rest = .ok rest' ∧ Answers n rest'

/-- What `n` calls of `ide_poll` leave of the values that the status register will show. -/
def polls : Nat → List (BitVec 8) → Except Fault (List (BitVec 8))
  | 0, status => .ok status
  | n + 1, status => do
    let rest ← retry status
    let rest ← retry2 rest
    polls n rest

theorem answers_iff {status : List (BitVec 8)} : Answers n status ↔ ∃ rest, polls n status = .ok rest := by
  induction n generalizing status with
  | zero => exact ⟨fun _ => ⟨status, rfl⟩, fun _ => trivial⟩
  | succ n ih =>
    rw [Answers, polls]
    simp only [bind_eq_ok, ih]
    constructor
    · rintro ⟨rest, rest', hretry, hretry2, end', hend⟩
      exact ⟨end', rest, hretry, rest', hretry2, hend⟩
    · rintro ⟨end', rest, hretry, rest', hretry2, hend⟩
      exact ⟨rest, rest', hretry, hretry2, end', hend⟩

theorem readWords_returns (hroom : off + i * 2 + 2 * n ≤ buf.size) :
    ∃ r, readWords off n i buf s = .ok r ∧ r.1.size = buf.size ∧ r.2.status = s.status := by
  induction n generalizing i buf s with
  | zero => exact ⟨_, rfl, rfl, rfl⟩
  | succ n ih =>
    have hroom' : off + i * 2 + 2 ≤ buf.size := by omega
    have hfill := Buffer.fill_ok hroom' fun k => (s.word s.current s.next).extractLsb' (8 * k) 8
    obtain ⟨r, hr, hsize, hstatus⟩ : ∃ r, readWords off n (i + 1)
        (buf.filled (off + i * 2) 2 fun k => (s.word s.current s.next).extractLsb' (8 * k) 8)
        s.inportw.2 = .ok r ∧ r.1.size = buf.size ∧ r.2.status = s.status := by
      apply ih
      rw [Buffer.filled_size]
      omega
    refine ⟨r, ?_, hsize, hstatus⟩
    simp only [readWords, AtaBus.inportw, hfill, ok_bind]
    exact hr

/-- `ata_read` stops only where its polling does. -/
theorem readSectors_polls (pos : BitVec 32) (hroom : off + 512 * (i + n) ≤ buf.size) :
    (readSectors off pos n i buf s).map (·.2.status) = polls n s.status := by
  induction n generalizing i buf s with
  | zero => rfl
  | succ n ih =>
    rw [Nat.mul_add, Nat.mul_succ, ← Nat.add_assoc, ← Nat.add_assoc] at hroom
    obtain ⟨reg, hsent⟩ := command_sent s (pos + BitVec.ofNat 32 i)
    rw [readSectors, polls, ataReadOne]
    simp only [hsent, idePoll]
    cases retry s.status with
    | error e => rfl
    | ok rest =>
      simp only [ok_bind]
      cases hretry2 : retry2 rest with
      | error e => rfl
      | ok rest' =>
        simp only [ok_bind, pure_bind]
        have hwords : off + 512 * i + 0 * 2 + 2 * 256 ≤ buf.size := by omega
        obtain ⟨r, hr, hsize, hstatus⟩ := readWords_returns (s := { s with
          reg := reg, status := rest', current := (pos + BitVec.ofNat 32 i).toNat % 2 ^ 28, next := 0
          commands := s.commands ++ [(pos + BitVec.ofNat 32 i).toNat % 2 ^ 28] }) hwords
        have hrest : off + 512 * (i + 1 + n) ≤ r.1.size := by
          rw [hsize, Nat.mul_add, Nat.mul_succ, ← Nat.add_assoc]
          omega
        rw [hr]
        exact (ih hrest).trans (congrArg _ hstatus)

theorem readSectors_returns {pos : BitVec 32} (hroom : off + 512 * (i + n) ≤ buf.size)
    (hanswers : Answers n s.status) : ∃ r, readSectors off pos n i buf s = .ok r := by
  obtain ⟨rest, hpolls⟩ := answers_iff.mp hanswers
  rw [← readSectors_polls pos hroom] at hpolls
  cases hread : readSectors off pos n i buf s with
  | error e =>
    rw [hread] at hpolls
    cases hpolls
  | ok r => exact ⟨r, rfl⟩

end Transfer

end Levos.Drivers
