import Levos.Memory.Boot
import Mathlib.Data.List.Range

namespace Levos.Arch

open Levos.Framework Levos.Memory

/-- The fields of `struct multiboot` that the boot code reads. -/
structure Multiboot where
  flags : Nat
  memLower : Nat
  memUpper : Nat
  mmapLength : Nat
  mmapAddr : Nat

/-- `mboot_memmap_t`. -/
structure MemMap where
  size : Nat
  baseAddr : Nat
  length : Nat
  type : Nat

def dword (m : Memory) (a : Nat) : Nat := (m.word a).toNat + 2 ^ 32 * (m.word (a + 4)).toNat

def memMapAt (info : Memory) (p : Nat) : MemMap where
  size := (info.word p).toNat
  baseAddr := dword info (p + 4)
  length := dword info (p + 12)
  type := (info.word (p + 20)).toNat

/-- The entries that the pointer walk meets. A walk that is longer than there are addresses has
come back to where it was. -/
def walk (info : Memory) (limit : Nat) : Nat → Nat → Option (List MemMap)
  | 0, _ => none
  | fuel + 1, p =>
    if p < limit then
      (walk info limit fuel (wrap (p + (memMapAt info p).size + 4))).map (memMapAt info p :: ·)
    else some []

/-- The memory map that the boot loader left in `info`. -/
def mapOf (info : Memory) (m : Multiboot) : Option (List MemMap) :=
  if m.flags.testBit 6 then walk info (wrap (m.mmapAddr + m.mmapLength)) (2 ^ 32) m.mmapAddr
  else some []

/-- `for (uint64_t i = 0; i < mmap->length; i += 0x1000)`. The `if` in its body ends in a semicolon
and guards nothing; the mask is one of 32 bits. -/
def markLoop (e : MemMap) : Nat → Nat → Mm → Except Fault Mm
  | 0, _, _ => .error .diverges
  | fuel + 1, i, s =>
    if i < e.length then do
      let s ← markRegion s ((e.baseAddr + i) % 2 ^ 64 % 2 ^ 32 / 0x1000 * 0x1000)
      markLoop e fuel ((i + 0x1000) % 2 ^ 64) s
    else .ok s

/-- More turns than an `i` of 64 bits has multiples of a page. -/
def markTurns : Nat := 2 ^ 52 + 1

def markEntry (s : Mm) (e : MemMap) : Except Fault Mm :=
  if e.type = 2 then markLoop e markTurns 0 s else .ok s

/-- `init_paging`. -/
def initPaging (newMalloc : Nat → Mm → Except Fault (Nat × Mm)) (s : Mm) (mem : Nat) :
    Except Fault Mm := setNframes newMalloc s (mem / 4)

/-- `arch_do_mboot`. The boot loader's data are read only, so that the walk over them is done
before the marking. -/
def archDoMboot (newMalloc : Nat → Mm → Except Fault (Nat × Mm)) (info : Memory) (m : Multiboot)
    (s : Mm) : Except Fault Mm := do
  let s ← initPaging newMalloc s (wrap (m.memUpper + m.memLower))
  match mapOf info m with
  | none => .error .diverges
  | some entries => entries.foldlM markEntry s

/-- The addresses that the loop hands to `mark_region`. -/
def MemMap.marked (e : MemMap) : List Nat :=
  if e.type = 2 then
    (List.range ((e.length + 0xFFF) / 0x1000)).map fun k =>
      (e.baseAddr + 0x1000 * k) % 2 ^ 64 % 2 ^ 32 / 0x1000 * 0x1000
  else []

/-- Page `f` overlaps the bytes of a reserved region. -/
def MemMap.Reserves (e : MemMap) (f : Nat) : Prop :=
  e.type = 2 ∧ ∃ x, 0x1000 * f ≤ x ∧ x < 0x1000 * f + 0x1000 ∧
    e.baseAddr ≤ x ∧ x < e.baseAddr + e.length

/-- The frames that the loop reaches: one for each page of the length from the base on, with the
address cut to 32 bits. -/
def MemMap.Visits (e : MemMap) (f : Nat) : Prop :=
  e.type = 2 ∧ ∃ k, 0x1000 * k < e.length ∧ (e.baseAddr + 0x1000 * k) % 2 ^ 32 / 0x1000 = f

theorem mem_marked {e : MemMap} {f : Nat} : (∃ a ∈ e.marked, a / 0x1000 = f) ↔ e.Visits f := by
  unfold MemMap.marked MemMap.Visits
  split_ifs with h2
  · simp only [h2, true_and, List.mem_map, List.mem_range]
    constructor
    · rintro ⟨a, ⟨k, hk, rfl⟩, rfl⟩
      exact ⟨k, by omega, by omega⟩
    · rintro ⟨k, hk, rfl⟩
      exact ⟨_, ⟨k, by omega, rfl⟩, by omega⟩
  · simp [h2]

section Marking

variable {s s' : Mm}

theorem setFrame_used {a : Nat} (h : setFrame s a = .ok s') :
    SameVars s s' ∧ s.inFrames (a / 0x1000 / 32) ∧
      ∀ f, s'.used f = true ↔ s.used f = true ∨ a / 0x1000 = f := by
  simp only [setFrame] at h
  split_ifs at h with hin
  cases h
  refine ⟨rfl, hin, fun f => ?_⟩
  change (s.mem.setBit s.frames (a / 0x1000)).bit s.frames f = true ↔ _
  rw [Memory.bit_setBit, Bool.or_eq_true, decide_eq_true_eq, or_comm, eq_comm (a := f)]
  rfl

/-- Marking a list of addresses works out when the array has a word for each of them. -/
theorem foldlM_setFrame (as : List Nat) (s : Mm) :
    (∃ s', as.foldlM setFrame s = .ok s') ↔ ∀ a ∈ as, s.inFrames (a / 0x1000 / 32) := by
  induction as generalizing s with
  | nil => simp [List.foldlM, pure, Except.pure]
  | cons a as ih =>
    rw [List.foldlM_cons]
    constructor
    · rintro ⟨s', hs'⟩
      obtain ⟨s₁, hs₁, hrest⟩ := bind_eq_ok.mp hs'
      obtain ⟨hv, hin, -⟩ := setFrame_used hs₁
      intro b hb
      rcases List.mem_cons.mp hb with rfl | hb
      · exact hin
      · exact hv.inFrames.mp ((ih s₁).mp ⟨s', hrest⟩ b hb)
    · intro hall
      obtain ⟨s₁, hs₁⟩ : ∃ s₁, setFrame s a = .ok s₁ := ⟨_, if_pos (hall a (by simp))⟩
      obtain ⟨hv, -, -⟩ := setFrame_used hs₁
      rw [hs₁, ok_bind]
      exact (ih s₁).mpr fun b hb => hv.inFrames.mpr (hall b (by simp [hb]))

theorem foldlM_setFrame_used (as : List Nat) (h : as.foldlM setFrame s = .ok s') :
    SameVars s s' ∧ ∀ f, s'.used f = true ↔ s.used f = true ∨ ∃ a ∈ as, a / 0x1000 = f := by
  induction as generalizing s with
  | nil =>
    cases h
    exact ⟨.refl _, by simp⟩
  | cons a as ih =>
    rw [List.foldlM_cons] at h
    obtain ⟨s₁, hs₁, hrest⟩ := bind_eq_ok.mp h
    obtain ⟨hv, -, hu⟩ := setFrame_used hs₁
    obtain ⟨hv', hu'⟩ := ih hrest
    refine ⟨hv.trans hv', fun f => ?_⟩
    rw [hu' f, hu f, or_assoc]
    simp

/-- A region that leaves room for one more step of the counter is marked page by page. -/
theorem markEntry_eq {e : MemMap} (s : Mm) (hlen : e.type = 2 → e.length ≤ 2 ^ 64 - 0x1000) :
    markEntry s e = e.marked.foldlM setFrame s := by
  have loop (m : Nat) : ∀ k fuel s, k + m = (e.length + 0xFFF) / 0x1000 → m < fuel →
      e.length ≤ 2 ^ 64 - 0x1000 → markLoop e fuel (0x1000 * k) s =
        ((List.range' k m).map fun k =>
          (e.baseAddr + 0x1000 * k) % 2 ^ 64 % 2 ^ 32 / 0x1000 * 0x1000).foldlM setFrame s := by
    induction m with
    | zero =>
      intro k fuel s hk hfuel _
      obtain ⟨fuel, rfl⟩ : ∃ n, fuel = n + 1 := ⟨fuel - 1, by omega⟩
      rw [markLoop, if_neg (by omega)]
      rfl
    | succ m ih =>
      intro k fuel s hk hfuel hle
      obtain ⟨fuel, rfl⟩ : ∃ n, fuel = n + 1 := ⟨fuel - 1, by omega⟩
      rw [markLoop, if_pos (by omega), List.range'_succ, List.map_cons, List.foldlM_cons,
        show (0x1000 * k + 0x1000) % 2 ^ 64 = 0x1000 * (k + 1) by omega]
      refine bind_congr fun s₁ => ?_
      exact ih (k + 1) fuel s₁ (by omega) (by omega) hle
  unfold markEntry MemMap.marked
  split_ifs with h2
  · rw [List.range_eq_range']
    have hl := hlen h2
    exact loop _ 0 markTurns s (by omega) (by unfold markTurns; omega) hl
  · rfl

/-- The counter of a longer region never reaches the length. -/
theorem markLoop_diverges {e : MemMap} (hlen : 2 ^ 64 - 0x1000 < e.length) (fuel i : Nat)
    (hi : i % 0x1000 = 0) (hlt : i < 2 ^ 64) (s : Mm) : markLoop e fuel i s ≠ .ok s' := by
  induction fuel generalizing i s with
  | zero => exact fun h => by cases h
  | succ fuel ih =>
    rw [markLoop, if_pos (by omega)]
    intro h
    obtain ⟨s₁, -, hrest⟩ := bind_eq_ok.mp h
    exact ih _ (by omega) (by omega) s₁ hrest

/-- The whole map: it is marked to its end just when no reserved region is too long and every frame
that is visited has its word. -/
theorem foldlM_markEntry (es : List MemMap) (s : Mm) :
    (∃ s', es.foldlM markEntry s = .ok s') ↔
      (∀ e ∈ es, e.type = 2 → e.length ≤ 2 ^ 64 - 0x1000) ∧
      ∀ e ∈ es, ∀ f, e.Visits f → s.inFrames (f / 32) := by
  induction es generalizing s with
  | nil => simp [List.foldlM, pure, Except.pure]
  | cons e es ih =>
    rw [List.foldlM_cons]
    have one {s₁ : Mm} (hs₁ : markEntry s e = .ok s₁) :
        (e.type = 2 → e.length ≤ 2 ^ 64 - 0x1000) ∧ SameVars s s₁ ∧
          ∀ f, e.Visits f → s.inFrames (f / 32) := by
      have hlen : e.type = 2 → e.length ≤ 2 ^ 64 - 0x1000 := by
        intro h2
        by_contra hlong
        rw [markEntry, if_pos h2] at hs₁
        exact markLoop_diverges (by omega) _ 0 (by omega) (by omega) s hs₁
      rw [markEntry_eq s hlen] at hs₁
      refine ⟨hlen, (foldlM_setFrame_used _ hs₁).1, ?_⟩
      intro f hf
      obtain ⟨a, ha, rfl⟩ := mem_marked.mpr hf
      exact (foldlM_setFrame _ s).mp ⟨s₁, hs₁⟩ a ha
    constructor
    · rintro ⟨s', hs'⟩
      obtain ⟨s₁, hs₁, hrest⟩ := bind_eq_ok.mp hs'
      obtain ⟨hlen, hv, hin⟩ := one hs₁
      obtain ⟨hlens, hins⟩ := (ih s₁).mp ⟨s', hrest⟩
      refine ⟨List.forall_mem_cons.mpr ⟨hlen, hlens⟩, List.forall_mem_cons.mpr ⟨hin, ?_⟩⟩
      exact fun e' he' f hf => hv.inFrames.mp (hins e' he' f hf)
    · rintro ⟨hlens, hins⟩
      obtain ⟨hlen, hlens'⟩ := List.forall_mem_cons.mp hlens
      obtain ⟨hin, hins'⟩ := List.forall_mem_cons.mp hins
      obtain ⟨s₁, hs₁⟩ : ∃ s₁, markEntry s e = .ok s₁ := by
        rw [markEntry_eq s hlen]
        exact (foldlM_setFrame _ s).mpr fun a ha => hin _ (mem_marked.mp ⟨a, ha, rfl⟩)
      rw [hs₁, ok_bind]
      exact (ih s₁).mpr ⟨hlens', fun e' he' f hf => (one hs₁).2.1.inFrames.mpr (hins' e' he' f hf)⟩

theorem foldlM_markEntry_used (es : List MemMap) (h : es.foldlM markEntry s = .ok s') :
    SameVars s s' ∧ ∀ f, s'.used f = true ↔ s.used f = true ∨ ∃ e ∈ es, e.Visits f := by
  have hlens := ((foldlM_markEntry es s).mp ⟨s', h⟩).1
  induction es generalizing s with
  | nil =>
    cases h
    exact ⟨.refl _, by simp⟩
  | cons e es ih =>
    obtain ⟨hlen, hlens'⟩ := List.forall_mem_cons.mp hlens
    rw [List.foldlM_cons] at h
    obtain ⟨s₁, hs₁, hrest⟩ := bind_eq_ok.mp h
    rw [markEntry_eq s hlen] at hs₁
    obtain ⟨hv, hu⟩ := foldlM_setFrame_used _ hs₁
    obtain ⟨hv', hu'⟩ := ih hrest hlens'
    refine ⟨hv.trans hv', fun f => ?_⟩
    rw [hu' f, hu f, mem_marked, or_assoc]
    simp

end Marking

/-- The number of frames that `init_paging` computes. -/
def Multiboot.nframes (m : Multiboot) : Nat := wrap (m.memUpper + m.memLower) / 4

/-- The boot comes through, every frame has its bit in the bitmap, the frames below `nframes` that
are marked are those of the reserved regions, and the bits behind them are what they were. -/
def MarksReserved (newMalloc : Nat → Mm → Except Fault (Nat × Mm)) (info : Memory) (m : Multiboot)
    (entries : List MemMap) (s : Mm) : Prop :=
  ∃ s', archDoMboot newMalloc info m s = .ok s' ∧
    (∀ f < m.nframes, f / 8 < bitmapBytes m.nframes) ∧
    (∀ f < m.nframes, s'.used f = true ↔ ∃ e ∈ entries, e.Reserves f) ∧
    ∀ f, m.nframes ≤ f → f / 8 < bitmapBytes m.nframes → s'.used f = s.mem.bit s.plp f

/-- A bit that the memory held before the bitmap was there, and that `set_nframes` leaves set. -/
def Stale (m : Multiboot) (s : Mm) (f : Nat) : Prop :=
  8 * (m.nframes / 32) ≤ f ∧ s.mem.bit s.plp f = true

/-- What the loops have to meet for the marking to be exact. -/
structure VisitsFit (m : Multiboot) (entries : List MemMap) (s : Mm) : Prop where
  bits : ∀ f < m.nframes, f / 8 < bitmapBytes m.nframes
  lengths : ∀ e ∈ entries, e.type = 2 → e.length ≤ 2 ^ 64 - 0x1000
  words : ∀ e ∈ entries, ∀ f, e.Visits f → f / 32 < bitmapBytes m.nframes / 4
  visited : ∀ e ∈ entries, ∀ f < m.nframes, e.Visits f → ∃ e' ∈ entries, e'.Reserves f
  beyond : ∀ e ∈ entries, ∀ f, m.nframes ≤ f → e.Visits f → s.mem.bit s.plp f = true
  stale : ∀ f < m.nframes, Stale m s f → ∃ e ∈ entries, e.Reserves f
  missed : ∀ f < m.nframes, (∃ e ∈ entries, e.Reserves f) →
    (∃ e ∈ entries, e.Visits f) ∨ Stale m s f

theorem marksReserved_iff (newMalloc : Nat → Mm → Except Fault (Nat × Mm)) {info : Memory}
    {m : Multiboot} {entries : List MemMap} {s : Mm} (hb : Booting s)
    (hmap : mapOf info m = some entries) :
    MarksReserved newMalloc info m entries s ↔ VisitsFit m entries s := by
  obtain ⟨s₁, hs₁, -, hn, -, -, -, -, -, hused⟩ := setNframes_spec newMalloc m.nframes hb
  have hdef : archDoMboot newMalloc info m s = entries.foldlM markEntry s₁ := by
    rw [archDoMboot, initPaging, ← Multiboot.nframes, hs₁, hmap]
    rfl
  have hwords (f : Nat) : s₁.inFrames (f / 32) ↔ f / 32 < bitmapBytes m.nframes / 4 := by
    rw [Mm.inFrames, Mm.frameWords, hn]
    rfl
  have hstale (f : Nat) (hf : f / 8 < bitmapBytes m.nframes) : s₁.used f = true ↔ Stale m s f := by
    rw [hused f hf, Bool.and_eq_true, decide_eq_true_eq]
    rfl
  have hinside (hbits : ∀ f < m.nframes, f / 8 < bitmapBytes m.nframes) (f : Nat)
      (hf : m.nframes ≤ f) : 8 * (m.nframes / 32) ≤ f := by omega
  unfold MarksReserved
  rw [hdef]
  constructor
  · rintro ⟨s', hs', hbits, hiff, hsame⟩
    obtain ⟨hlens, hins⟩ := (foldlM_markEntry entries s₁).mp ⟨s', hs'⟩
    obtain ⟨-, hu⟩ := foldlM_markEntry_used entries hs'
    refine ⟨hbits, hlens, fun e he f hf => (hwords f).mp (hins e he f hf), ?_, ?_, ?_, ?_⟩
    · exact fun e he f hf hv => (hiff f hf).mp ((hu f).mpr (.inr ⟨e, he, hv⟩))
    · intro e he f hf hv
      have hin : f / 8 < bitmapBytes m.nframes := by
        have := (hwords f).mp (hins e he f hv)
        omega
      rw [← hsame f hf hin]
      exact (hu f).mpr (.inr ⟨e, he, hv⟩)
    · exact fun f hf hst => (hiff f hf).mp ((hu f).mpr (.inl ((hstale f (hbits f hf)).mpr hst)))
    · intro f hf hr
      rcases (hu f).mp ((hiff f hf).mpr hr) with h | h
      · exact .inr ((hstale f (hbits f hf)).mp h)
      · exact .inl h
  · rintro ⟨hbits, hlens, hins, hvis, hbeyond, hst, hmissed⟩
    obtain ⟨s', hs'⟩ := (foldlM_markEntry entries s₁).mpr
      ⟨hlens, fun e he f hf => (hwords f).mpr (hins e he f hf)⟩
    obtain ⟨-, hu⟩ := foldlM_markEntry_used entries hs'
    refine ⟨s', hs', hbits, fun f hf => ?_, fun f hf hin => ?_⟩
    · rw [hu f, hstale f (hbits f hf)]
      constructor
      · rintro (h | ⟨e, he, hv⟩)
        · exact hst f hf h
        · exact hvis e he f hf hv
      · exact fun hr => (hmissed f hf hr).symm
    · rw [Bool.eq_iff_iff, hu f, hstale f hin]
      constructor
      · rintro (h | ⟨e, he, hv⟩)
        · exact h.2
        · exact hbeyond e he f hf hv
      · exact fun h => .inl ⟨by omega, h⟩

/-- The region ends in memory, and below 4 GiB. -/
def MemMap.Inside (m : Multiboot) (e : MemMap) : Prop :=
  e.baseAddr + e.length ≤ 2 ^ 32 ∧ e.baseAddr + e.length ≤ 0x1000 * m.nframes

/-- The last byte of the region lies on one page more than its length has. -/
def MemMap.Ragged (e : MemMap) : Prop := 0x1000 ≤ e.baseAddr % 0x1000 + (e.length - 1) % 0x1000

/-- Marking frame `f` does no harm: it is a frame of memory that some region reserves, or its bit lies in
the bitmap, behind those of memory, and is set. -/
def Harmless (m : Multiboot) (entries : List MemMap) (s : Mm) (f : Nat) : Prop :=
  if f < m.nframes then ∃ e ∈ entries, e.Reserves f
  else f < 32 * (m.nframes / 16) ∧ s.mem.bit s.plp f = true

/-- When the marking is exact, by the base and the length of each region: one that does not end inside
memory is marked all the same, cut to 32 bits, and the last page of a ragged one is not marked. -/
structure MapFits (m : Multiboot) (entries : List MemMap) (s : Mm) : Prop where
  frames : m.nframes = 0 ∨ 4 ≤ m.nframes ∧ m.nframes < 2 ^ 29
  words : ∀ e ∈ entries, e.type = 2 → e.length ≠ 0 → 16 ≤ m.nframes
  lengths : ∀ e ∈ entries, e.type = 2 → e.length ≤ 2 ^ 64 - 0x1000
  outside : ∀ e ∈ entries, e.type = 2 → ¬e.Inside m → ∀ k, 0x1000 * k < e.length →
    Harmless m entries s ((e.baseAddr + 0x1000 * k) % 2 ^ 32 / 0x1000)
  ragged : ∀ e ∈ entries, e.type = 2 → e.length ≠ 0 → e.Ragged →
    (e.baseAddr + e.length - 1) / 0x1000 < m.nframes →
    (∃ e' ∈ entries, e'.Visits ((e.baseAddr + e.length - 1) / 0x1000)) ∨
      Stale m s ((e.baseAddr + e.length - 1) / 0x1000)
  high : ∀ e ∈ entries, ∀ f < m.nframes, 2 ^ 20 ≤ f → e.Reserves f → Stale m s f
  stale : ∀ f < m.nframes, Stale m s f → ∃ e ∈ entries, e.Reserves f

section Regions

variable {e : MemMap} {entries : List MemMap} {m : Multiboot} {s : Mm} {f : Nat}

/-- A frame that the loop reaches in memory is one of the region's. -/
theorem MemMap.Inside.visits (h : e.Inside m) (hv : e.Visits f) : e.Reserves f ∧ f < m.nframes := by
  obtain ⟨h1, h2⟩ := h
  obtain ⟨htype, k, hk, rfl⟩ := hv
  refine ⟨⟨htype, e.baseAddr + 0x1000 * k, ?_, ?_, ?_, ?_⟩, ?_⟩ <;> omega

/-- Of the pages below 4 GiB the loop misses the last one of a ragged region at most. -/
theorem MemMap.Reserves.visits (h : e.Reserves f) (hf : f < 2 ^ 20) :
    e.Visits f ∨ (e.type = 2 ∧ e.length ≠ 0 ∧ e.Ragged ∧ f = (e.baseAddr + e.length - 1) / 0x1000) := by
  obtain ⟨htype, x, h1, h2, h3, h4⟩ := h
  unfold MemMap.Ragged
  by_cases hk : 0x1000 * (f - e.baseAddr / 0x1000) < e.length
  · exact .inl ⟨htype, f - e.baseAddr / 0x1000, hk, by omega⟩
  · exact .inr ⟨htype, by omega, by omega, by omega⟩

theorem MemMap.Ragged.reserves (htype : e.type = 2) (hlen : e.length ≠ 0) :
    e.Reserves ((e.baseAddr + e.length - 1) / 0x1000) :=
  ⟨htype, e.baseAddr + e.length - 1, by omega, by omega, by omega, by omega⟩

theorem bits_iff (hn : m.nframes < 2 ^ 30) : (∀ f < m.nframes, f / 8 < bitmapBytes m.nframes) ↔
    m.nframes = 0 ∨ 4 ≤ m.nframes ∧ m.nframes < 2 ^ 29 := by
  unfold bitmapBytes wrap
  constructor
  · intro h
    by_cases h0 : m.nframes = 0
    · exact .inl h0
    · have hlast := h (m.nframes - 1) (by omega)
      omega
  · intro h f hf
    omega

theorem Multiboot.nframes_lt (m : Multiboot) : m.nframes < 2 ^ 30 := by
  unfold Multiboot.nframes wrap
  omega

theorem visitsFit_iff : VisitsFit m entries s ↔ MapFits m entries s := by
  have hn := m.nframes_lt
  have hbytes : m.nframes < 2 ^ 29 → bitmapBytes m.nframes / 4 = m.nframes / 16 := by
    intro hlt
    unfold bitmapBytes wrap
    omega
  constructor
  · rintro ⟨hbits, hlens, hwords, hvisited, hbeyond, hstale, hmissed⟩
    have hframes := (bits_iff hn).mp hbits
    refine ⟨hframes, ?_, hlens, ?_, ?_, ?_, hstale⟩
    · intro e he htype hlen
      have hword := hwords e he _ ⟨htype, 0, by omega, rfl⟩
      omega
    · intro e he htype _ k hk
      have hv : e.Visits ((e.baseAddr + 0x1000 * k) % 2 ^ 32 / 0x1000) := ⟨htype, k, hk, rfl⟩
      have hword := hwords e he _ hv
      unfold Harmless
      split_ifs with hlt
      · exact hvisited e he _ hlt hv
      · exact ⟨by omega, hbeyond e he _ (Nat.not_lt.mp hlt) hv⟩
    · intro e he htype hlen _ hlast
      exact hmissed _ hlast ⟨e, he, MemMap.Ragged.reserves htype hlen⟩
    · intro e he f hf hhigh hr
      rcases hmissed f hf ⟨e, he, hr⟩ with ⟨e', -, -, k, -, rfl⟩ | hst
      · omega
      · exact hst
  · rintro ⟨hframes, hwords, hlens, houtside, hragged, hhigh, hstale⟩
    have hvisits {e : MemMap} (he : e ∈ entries) {f : Nat} (hv : e.Visits f) :
        Harmless m entries s f := by
      by_cases hin : e.Inside m
      · obtain ⟨hr, hlt⟩ := hin.visits hv
        exact (if_pos hlt).mpr ⟨e, he, hr⟩
      · obtain ⟨htype, k, hk, rfl⟩ := hv
        exact houtside e he htype hin k hk
    refine ⟨(bits_iff hn).mpr hframes, hlens, ?_, ?_, ?_, hstale, ?_⟩
    · intro e he f hv
      have hsome : 16 ≤ m.nframes := by
        obtain ⟨htype, k, hk, -⟩ := hv
        exact hwords e he htype (by omega)
      have hharm := hvisits he hv
      unfold Harmless at hharm
      split_ifs at hharm with hlt
      · omega
      · obtain ⟨hword, -⟩ := hharm
        omega
    · intro e he f hf hv
      exact (if_pos hf).mp (hvisits he hv)
    · intro e he f hf hv
      exact ((if_neg (Nat.not_lt.mpr hf)).mp (hvisits he hv)).2
    · rintro f hf ⟨e, he, hr⟩
      rcases Nat.lt_or_ge f (2 ^ 20) with hlow | hge
      · rcases hr.visits hlow with hv | ⟨htype, hlen, hrag, rfl⟩
        · exact .inl ⟨e, he, hv⟩
        · exact hragged e he htype hlen hrag hf
      · exact .inr (hhigh e he f hf hge hr)

end Regions

/-- `arch_do_mboot` marks the reserved frames and no others exactly when the map, the number of
frames and the memory under the bitmap fit together. -/
theorem archDoMboot_iff (newMalloc : Nat → Mm → Except Fault (Nat × Mm)) {info : Memory}
    {m : Multiboot} {entries : List MemMap} {s : Mm} (hb : Booting s)
    (hmap : mapOf info m = some entries) :
    MarksReserved newMalloc info m entries s ↔ MapFits m entries s :=
  (marksReserved_iff newMalloc hb hmap).trans visitsFit_iff

/-- The kernel at its entry, with nothing but zeros behind it. -/
def cleanBoot : Mm where
  mem := fun _ => 0
  nframes := 0
  frames := 0
  kernelDir := 0
  currentDirectory := 0
  plp := 0x100000
  heapOnline := false

theorem cleanBoot_booting : Booting cleanBoot := ⟨⟨rfl, rfl, by decide⟩, by decide⟩

/-- A map of one reserved region, in an otherwise empty low memory. -/
def oneRegion (base length : BitVec 32) : Memory :=
  Memory.setWord (Memory.setWord (Memory.setWord (Memory.setWord (fun _ => 0) 0x9000 20)
    0x9004 base) 0x900C length) 0x9014 2

/-- A machine with 128 MiB. -/
def smallMachine : Multiboot where
  flags := 0x40
  memLower := 0
  memUpper := 0x20000
  mmapLength := 24
  mmapAddr := 0x9000

/-- The BIOS region below 1 MiB, which lies in memory and on page boundaries. -/
theorem archDoMboot_bios :
    MarksReserved noHeap (oneRegion 0xF0000 0x10000) smallMachine [⟨20, 0xF0000, 0x10000, 2⟩]
      cleanBoot := by
  have hmap : mapOf (oneRegion 0xF0000 0x10000) smallMachine = some [⟨20, 0xF0000, 0x10000, 2⟩] := by
    rfl
  have hn : smallMachine.nframes = 32768 := by decide
  have hclear (f : Nat) : ¬Stale smallMachine cleanBoot f := by
    rintro ⟨-, hst⟩
    simp [Memory.bit, Memory.word, cleanBoot] at hst
  refine (archDoMboot_iff noHeap cleanBoot_booting hmap).mpr ⟨?_, ?_, ?_, ?_, ?_, ?_, ?_⟩
  · exact .inr (by rw [hn]; decide)
  · exact fun _ _ _ _ => by rw [hn]; decide
  · intro e he _
    obtain rfl := List.mem_singleton.mp he
    decide
  · intro e he _ hin
    obtain rfl := List.mem_singleton.mp he
    exact absurd ⟨by decide, by rw [hn]; decide⟩ hin
  · intro e he _ _ hragged
    obtain rfl := List.mem_singleton.mp he
    exact absurd hragged (by unfold MemMap.Ragged; decide)
  · intro e he f hf hhigh _
    omega
  · exact fun f _ hst => absurd hst (hclear f)

/-- The firmware region at the top of the 4 GiB: its frames are looked up behind the bitmap. -/
theorem archDoMboot_firmware :
    mapOf (oneRegion 0xFFFC0000 0x40000) smallMachine = some [⟨20, 0xFFFC0000, 0x40000, 2⟩] ∧
      ¬MarksReserved noHeap (oneRegion 0xFFFC0000 0x40000) smallMachine
        [⟨20, 0xFFFC0000, 0x40000, 2⟩] cleanBoot := by
  have hmap : mapOf (oneRegion 0xFFFC0000 0x40000) smallMachine =
      some [⟨20, 0xFFFC0000, 0x40000, 2⟩] := by rfl
  refine ⟨hmap, ?_⟩
  rintro ⟨s', hs', -⟩
  obtain ⟨s₁, hs₁, -, hn, -⟩ := setNframes_spec noHeap smallMachine.nframes cleanBoot_booting
  have hfold : [(⟨20, 0xFFFC0000, 0x40000, 2⟩ : MemMap)].foldlM markEntry s₁ = .ok s' := by
    rw [← hs', archDoMboot, initPaging, ← Multiboot.nframes, hs₁, hmap]
    rfl
  have hin := ((foldlM_markEntry _ s₁).mp ⟨s', hfold⟩).2 _ (List.mem_singleton.mpr rfl) 0xFFFC0
    ⟨rfl, 0, by decide, by decide⟩
  rw [Mm.inFrames, Mm.frameWords, hn] at hin
  revert hin
  decide

end Levos.Arch
