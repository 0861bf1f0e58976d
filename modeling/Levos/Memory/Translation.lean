import Levos.Memory.Spaces
import Mathlib.Data.Finset.Card
import Mathlib.Data.Finset.Range

namespace Levos.Memory

open Levos.Framework

/-- The arguments of a `get_page(addr, 1, d)` and of the `alloc_dma_frame(page, k, w, a)` that
follows it. -/
structure DmaCall where
  addr : Nat
  k : Bool
  w : Bool
  a : Nat

namespace DmaCall

def page (c : DmaCall) : Nat := c.addr / 0x1000

def on (c : DmaCall) (d : Nat) : MapCall := ⟨d, c.addr, .dma c.k c.w c.a⟩

/-- Both addresses are words of the machine. -/
def Words (c : DmaCall) : Prop := c.addr < 2 ^ 32 ∧ c.a < 2 ^ 32

end DmaCall

def DmaStep (d : Nat) (s : Mm) (c : DmaCall) (s' : Mm) : Prop := MapStep s (c.on d) s'

/-- The map that a sequence of calls describes: the address last given to page `g`. -/
def lastMapping (calls : List DmaCall) (g : Nat) : Option Nat :=
  ((calls.filter fun c => c.page = g).getLast?).map DmaCall.a

/-- The address that `x` becomes when its page is mapped to `a`. -/
def translate (x a : Nat) : Nat := a / 0x1000 * 0x1000 + x % 0x1000

/-- `virtual_to_physical` with `d` as the current directory. -/
def translated (s : Mm) (d x : Nat) : Nat := virtualToPhysical { s with currentDirectory := d } x

/-- An empty directory in a block of its own. -/
structure Fresh (s : Mm) (d : Nat) : Prop where
  bitmap : s.frames + 4 * s.frameWords ≤ d
  dir : d + pageDirSize ≤ s.plp
  space : s.plp < 2 ^ 32
  empty : ∀ i < 2048, s.mem.word (d + 4 * i) = 0

/-- The placement pointer leaves the upper half of the address space, and every frame below
`mem_end` has its bit. -/
structure Roomful (s : Mm) : Prop where
  offline : s.heapOnline = false
  high : s.plp < 2 ^ 31
  bits : ∀ a < s.memEnd, s.inFrames (a / 0x1000 / 32)

theorem translated_eq (s : Mm) (d x : Nat) :
    translated s d x = ((s.view d (x / 0x1000)).map fun pg =>
      wrap (pg.frame.toNat * 0x1000 + x % 0x1000)).getD 0 := by
  change (if s.table d (x / 0x1000 / 1024) ≠ 0 then
    wrap ((s.page (s.entryIn d (x / 0x1000))).frame.toNat * 0x1000 + x % 0x1000) else 0) = _
  unfold Mm.view
  by_cases h : s.table d (x / 0x1000 / 1024) = 0
  · simp [h]
  · simp [h]

theorem lastMapping_snoc (calls : List DmaCall) (c : DmaCall) (g : Nat) :
    lastMapping (calls ++ [c]) g = if g = c.page then some c.a else lastMapping calls g := by
  unfold lastMapping
  rw [List.filter_append]
  by_cases h : g = c.page
  · simp [h]
  · have hne : ¬c.page = g := fun e => h e.symm
    simp [h, hne]

theorem Fresh.table {s : Mm} {d t : Nat} (hf : Fresh s d) (ht : t < 1024) : s.table d t = 0 := by
  have := hf.empty (1024 + t) (by omega)
  rw [show d + 4 * (1024 + t) = d + 4096 + 4 * t by omega] at this
  rw [Mm.table, this]
  rfl

theorem Fresh.spaces {s : Mm} {d : Nat} (hf : Fresh s d) : Spaces [d] (fun _ => True) s := by
  refine ⟨?_, ?_, hf.space, ?_, ?_, ?_, ?_⟩
  · simpa using hf.bitmap
  · simpa using hf.dir
  · intro e he e' he' hne
    simp only [List.mem_singleton] at he he'
    exact absurd (he.trans he'.symm) hne
  · intro e he t ht _ hne
    obtain rfl := List.mem_singleton.mp he
    exact absurd (hf.table ht) hne
  · intro e he _ _ t ht _ _ _ _ hne
    obtain rfl := List.mem_singleton.mp he
    exact absurd (hf.table ht) hne
  · intro e he t ht _
    obtain rfl := List.mem_singleton.mp he
    rw [hf.table ht, if_pos rfl]
    exact hf.empty t (by omega)

/-- The directory `d` says of every page what the calls say. -/
structure Represents (calls : List DmaCall) (d : Nat) (s : Mm) : Prop where
  spaces : Spaces [d] (fun _ => True) s
  mapped : ∀ g < 2 ^ 20, ∀ a, lastMapping calls g = some a →
    ∃ pg : Page, s.view d g = some pg ∧ pg.present = true ∧ pg.frame = BitVec.ofNat 20 (a / 0x1000)
  unmapped : ∀ g < 2 ^ 20, lastMapping calls g = none →
    s.view d g = none ∨ s.view d g = some (Page.ofWord 0)

theorem Fresh.represents {s : Mm} {d : Nat} (hf : Fresh s d) : Represents [] d s := by
  refine ⟨hf.spaces, fun _ _ _ h => absurd h (by simp [lastMapping]), ?_⟩
  intro g hg _
  exact .inl (if_pos (hf.table (by omega)))

namespace Represents

variable {calls : List DmaCall} {s s' : Mm} {d x : Nat} {c : DmaCall}

theorem step (h : Represents calls d s) (hc : c.Words) (hstep : DmaStep d s c s') :
    Represents (calls ++ [c]) d s' := by
  obtain ⟨hspaces, -, -, -, -, -, pg, hpresent, hframe, hview⟩ :=
    h.spaces.mapPage (c := c.on d) (by simp [DmaCall.on]) hc.1 trivial hstep
  have hpage : (c.on d).page = c.page := rfl
  refine ⟨hspaces, ?_, ?_⟩
  · intro g hg a hlast
    rw [lastMapping_snoc] at hlast
    rw [hview d (by simp) g hg trivial, hpage]
    by_cases hgc : g = c.page
    · rw [if_pos hgc, Option.some.injEq] at hlast
      rw [if_pos ⟨rfl, hgc⟩]
      exact ⟨pg, rfl, hpresent, hlast ▸ hframe c.k c.w c.a rfl⟩
    · rw [if_neg hgc] at hlast
      obtain ⟨pg', hpg', hrest⟩ := h.mapped g hg a hlast
      rw [if_neg fun heq => hgc heq.2, if_neg (by simp [hpg'])]
      exact ⟨pg', hpg', hrest⟩
  · intro g hg hlast
    rw [lastMapping_snoc] at hlast
    rw [hview d (by simp) g hg trivial, hpage]
    by_cases hgc : g = c.page
    · simp [hgc] at hlast
    · rw [if_neg hgc] at hlast
      rw [if_neg fun heq => hgc heq.2]
      split_ifs
      · exact .inr rfl
      · exact h.unmapped g hg hlast

/-- The processor's walk computes the map. -/
theorem walk (h : Represents calls d s) (hx : x < 2 ^ 32) (hcalls : ∀ c ∈ calls, c.Words) :
    mmuWalk s.mem d x = (lastMapping calls (x / 0x1000)).map (translate x) := by
  unfold mmuWalk
  rw [h.spaces.mmuEntry_eq (by simp) (by omega) trivial]
  cases hlast : lastMapping calls (x / 0x1000) with
  | none =>
    rcases h.unmapped _ (by omega) hlast with hv | hv
    · simp [hv]
    · have hzero : (Page.ofWord 0#32).present = false := by decide
      simp [hv, hzero]
  | some a =>
    have ha : a < 2 ^ 32 := by
      obtain ⟨c, hc, rfl⟩ := Option.map_eq_some_iff.mp hlast
      exact (hcalls c (List.mem_filter.mp (List.mem_of_getLast? hc)).1).2
    obtain ⟨pg, hv, hpresent, hframe⟩ := h.mapped _ (by omega) a hlast
    simp only [hv, Option.filter_some, hpresent, if_true, Option.map_some, hframe, translate,
      BitVec.toNat_ofNat]
    rw [Nat.mod_eq_of_lt (by omega)]

/-- Where a page is mapped, the kernel's own walk computes the same. -/
theorem virtual (h : Represents calls d s) (hx : x < 2 ^ 32) (hcalls : ∀ c ∈ calls, c.Words) {a : Nat}
    (hlast : lastMapping calls (x / 0x1000) = some a) : translated s d x = translate x a := by
  have ha : a < 2 ^ 32 := by
    obtain ⟨c, hc, rfl⟩ := Option.map_eq_some_iff.mp hlast
    exact (hcalls c (List.mem_filter.mp (List.mem_of_getLast? hc)).1).2
  obtain ⟨pg, hv, -, hframe⟩ := h.mapped _ (by omega) a hlast
  rw [translated_eq, hv, Option.map_some, Option.getD_some, hframe, BitVec.toNat_ofNat,
    Nat.mod_eq_of_lt (by omega), translate]
  exact wrap_of_lt (by omega)

/-- One more call leaves the other pages as they were: the processor's walk of any address, and the
kernel's of those whose table is there. -/
theorem frame (h : Represents calls d s) (hcalls : ∀ c ∈ calls, c.Words) (hc : c.Words)
    (hstep : DmaStep d s c s') (hx : x < 2 ^ 32) (hne : x / 0x1000 ≠ c.page) :
    mmuWalk s'.mem d x = mmuWalk s.mem d x ∧
      (s.table d (x / 0x1000 / 1024) ≠ 0 → translated s' d x = translated s d x) := by
  constructor
  · have hcalls' : ∀ c' ∈ calls ++ [c], c'.Words := by
      intro c' hc'
      rcases List.mem_append.mp hc' with h1 | h1
      · exact hcalls c' h1
      · exact List.mem_singleton.mp h1 ▸ hc
    rw [(h.step hc hstep).walk hx hcalls', h.walk hx hcalls, lastMapping_snoc, if_neg hne]
  · intro ht
    obtain ⟨-, -, -, -, -, -, pg, -, -, hview⟩ :=
      h.spaces.mapPage (c := c.on d) (by simp [DmaCall.on]) hc.1 trivial hstep
    have hsome : s.view d (x / 0x1000) ≠ none := by
      rw [Spaces.view_eq ht]
      simp
    rw [translated_eq, translated_eq, hview d (by simp) _ (by omega) trivial,
      if_neg fun heq => hne heq.2, if_neg fun heq => hsome heq.2.2]

/-- The hardware entry of a table is its address. -/
theorem phyTable (h : Represents calls d s) {t : Nat} (ht : t < 1024) (hne : s.table d t ≠ 0) :
    (s.phyTable d t &&& 0xFFFFF000#32).toNat = s.table d t := by
  obtain ⟨ha, -, hbelow, -⟩ := h.spaces.table d (by simp) t ht trivial hne
  have hspace := h.spaces.space
  rw [h.spaces.linked d (by simp) t ht trivial, if_neg hne]
  exact (pde_table ha (by omega)).2

end Represents

/-- The number of tables that `d` has. -/
def Mm.tables (s : Mm) (d : Nat) : Nat := ((Finset.range 1024).filter fun t => s.table d t ≠ 0).card

theorem tables_le (s : Mm) (d : Nat) : s.tables d ≤ 1024 := by
  have := Finset.card_filter_le (Finset.range 1024) fun t => s.table d t ≠ 0
  simpa [Mm.tables] using this

/-- Every table that a call makes is one of the 1024 of the directory. -/
theorem tables_grow {s s' : Mm} {d t : Nat} (ht : t < 1024) (hmade : s'.table d t ≠ 0)
    (hkeep : ∀ u < 1024, u ≠ t → s'.table d u = s.table d u) :
    s'.tables d = if s.table d t = 0 then s.tables d + 1 else s.tables d := by
  have hset : ((Finset.range 1024).filter fun u => s'.table d u ≠ 0) =
      insert t ((Finset.range 1024).filter fun u => s.table d u ≠ 0) := by
    ext u
    simp only [Finset.mem_filter, Finset.mem_range, Finset.mem_insert]
    by_cases hut : u = t
    · subst hut
      simp [ht, hmade]
    · constructor
      · rintro ⟨hu, hne⟩
        exact .inr ⟨hu, by rwa [← hkeep u hu hut]⟩
      · rintro (h | ⟨hu, hne⟩)
        · exact absurd h hut
        · exact ⟨hu, by rwa [hkeep u hu hut]⟩
  unfold Mm.tables
  rw [hset]
  split_ifs with h0
  · exact Finset.card_insert_of_notMem (by simp [h0])
  · exact congrArg Finset.card (Finset.insert_eq_of_mem (by simp [ht, h0]))

theorem allocDmaFrame_returns {s : Mm} {p a : Nat} (hp : p ≠ 0) (k w : Bool)
    (hbits : a < s.memEnd → s.inFrames (a / 0x1000 / 32)) :
    ∃ s', allocDmaFrame s p k w a = .ok s' := by
  rw [allocDmaFrame, if_neg hp]
  by_cases h : a < s.memEnd
  · exact ⟨_, (if_pos h).trans (if_pos (hbits h))⟩
  · exact ⟨_, if_neg h⟩

/-- A call that maps a page comes back, also where it has to make the table. -/
theorem Spaces.dma_returns {D : List Nat} {A : Nat → Prop} {s : Mm} {c : MapCall} {k w : Bool} {a : Nat}
    (hs : Spaces D A s) (hd : c.dir ∈ D) (haddr : c.addr < 2 ^ 32) (hc : c.assign = .dma k w a)
    (hoff : s.heapOnline = false) (hroom : s.nextTable + pageTableSize < 2 ^ 32)
    (hbits : a < s.memEnd → s.inFrames (a / 0x1000 / 32)) : ∃ s', MapStep s c s' := by
  obtain ⟨⟨p, s₁⟩, hget⟩ := getPage_returns c.addr c.dir (hs.plp_low hd) hoff hroom
  obtain ⟨rfl, hmake⟩ := hs.getPage hd haddr hget
  have hne : s₁.entryIn c.dir (c.addr / 0x1000) ≠ 0 := by
    have := hmake.made
    unfold Mm.entryIn
    omega
  obtain ⟨s₂, hdma⟩ := allocDmaFrame_returns hne k w
    fun hlt => hmake.vars.inFrames.mpr (hbits (hmake.vars.memEnd ▸ hlt))
  refine ⟨s₂, ?_⟩
  rw [MapStep, Memory.mapPage, hget, hc]
  exact hdma

/-- With room for the tables every sequence of calls comes to its end. -/
theorem dmaCalls_return {d base : Nat} {calls : List DmaCall} {s : Mm}
    (hs : Spaces [d] (fun _ => True) s) (hoff : s.heapOnline = false)
    (hbits : ∀ a < s.memEnd, s.inFrames (a / 0x1000 / 32)) (hbase : base < 2 ^ 31)
    (hplp : s.plp ≤ base + 0x2000 * s.tables d) (hcalls : ∀ c ∈ calls, c.Words) :
    ∃ s', Run (DmaStep d) s calls s' := by
  induction calls generalizing s with
  | nil => exact ⟨s, .nil s⟩
  | cons c calls ih =>
    have hc := hcalls c (List.mem_cons_self ..)
    have hlt : c.page < 2 ^ 20 := by
      have := hc.1
      unfold DmaCall.page
      omega
    have hcount := tables_le s d
    have hlow := hs.plp_low (d := d) (by simp)
    obtain ⟨-, -, hnear⟩ := Spaces.nextTable_spec s
    obtain ⟨s₂, hstep⟩ : ∃ s₂, DmaStep d s c s₂ :=
      hs.dma_returns (c := c.on d) (by simp [DmaCall.on]) hc.1 rfl hoff
        (by unfold pageTableSize; omega) (hbits c.a)
    obtain ⟨hspaces, hvars, hmade, hgrow, htable, -⟩ :=
      hs.mapPage (c := c.on d) (by simp [DmaCall.on]) hc.1 trivial hstep
    have htables : s₂.tables d = if s.table d (c.page / 1024) = 0 then s.tables d + 1
        else s.tables d := tables_grow (t := c.page / 1024) (by omega) hmade
      fun u hu hne => htable d (by simp) u hu fun heq => hne heq.2
    have hpage : (c.on d).page = c.page := rfl
    rw [hpage] at hgrow
    change s₂.plp ≤ if s.table d (c.page / 1024) = 0 then s.plp + 0x2000 else s.plp at hgrow
    obtain ⟨s', hrun⟩ := ih hspaces (hvars.heapOnline.trans hoff)
      (fun a ha => hvars.inFrames.mpr (hbits a (hvars.memEnd ▸ ha)))
      (by split_ifs at hgrow htables <;> omega) fun c' hc' => hcalls c' (List.mem_cons_of_mem _ hc')
    exact ⟨s', .cons hstep hrun⟩

/-- Every sequence of mappings on an empty directory: it comes to its end where there is room, and
whenever it does, the processor's walk and the kernel's both compute the map that the calls
describe, a further call leaves the other pages alone, and the hardware entries are the tables. -/
theorem translations_exact {s : Mm} {d : Nat} {calls : List DmaCall} (hf : Fresh s d)
    (hcalls : ∀ c ∈ calls, c.Words) :
    (Roomful s → ∃ s', Run (DmaStep d) s calls s') ∧
    ∀ s', Run (DmaStep d) s calls s' →
      (∀ x < 2 ^ 32, mmuWalk s'.mem d x = (lastMapping calls (x / 0x1000)).map (translate x)) ∧
      (∀ x < 2 ^ 32, ∀ a, lastMapping calls (x / 0x1000) = some a →
        translated s' d x = translate x a) ∧
      (∀ c s'', c.Words → DmaStep d s' c s'' → ∀ x < 2 ^ 32, x / 0x1000 ≠ c.page →
        mmuWalk s''.mem d x = mmuWalk s'.mem d x ∧
        (s'.table d (x / 0x1000 / 1024) ≠ 0 → translated s'' d x = translated s' d x)) ∧
      ∀ t < 1024, s'.table d t ≠ 0 → (s'.phyTable d t &&& 0xFFFFF000#32).toNat = s'.table d t := by
  constructor
  · intro hroom
    exact dmaCalls_return hf.spaces hroom.offline hroom.bits hroom.high (by omega) hcalls
  · intro s' hrun
    have hrep : Represents calls d s' := by
      have hinv := hrun.historyInvariant
        (fun ms s => (∀ c ∈ ms, c.Words) → Represents ms d s) ?_ [] fun _ => hf.represents
      · exact hinv hcalls
      · intro ms s c s' ih hstep hms
        have hold := ih fun c' hc' => hms c' (List.mem_append_left _ hc')
        exact hold.step (hms c (by simp)) hstep
    refine ⟨fun x hx => hrep.walk hx hcalls, fun x hx a ha => hrep.virtual hx hcalls ha, ?_, ?_⟩
    · intro c s'' hc hstep x hx hne
      exact hrep.frame hcalls hc hstep hx hne
    · intro t ht hne
      exact hrep.phyTable ht hne

/-- A machine with 16 MiB and an empty directory behind its bitmap. -/
def emptyDir : Mm where
  mem := fun _ => 0
  nframes := 0x1000
  frames := 0x100000
  kernelDir := 0x101000
  currentDirectory := 0
  plp := 0x104000
  heapOnline := false

theorem emptyDir_fresh : Fresh emptyDir 0x101000 ∧ Roomful emptyDir := by
  have hzero : (0#8 ++ 0#8 ++ 0#8 ++ 0#8 : BitVec 32) = 0 := by decide
  refine ⟨⟨by decide, by decide, by decide, fun i _ => hzero⟩, ⟨rfl, by decide, ?_⟩⟩
  intro a ha
  have hend : emptyDir.memEnd = 0x1000000 := by decide
  have hwords : emptyDir.frameWords = 256 := by decide
  unfold Mm.inFrames
  omega

/-- The first page of the second table, mapped twice. -/
def twoCalls : List DmaCall := [⟨0x400000, true, true, 0x7000⟩, ⟨0x400000, true, false, 0xFFFF9000⟩]

theorem translations_exact_twice :
    ∃ s', Run (DmaStep 0x101000) emptyDir twoCalls s' ∧
      mmuWalk s'.mem 0x101000 0x400123 = some 0xFFFF9123 ∧
      translated s' 0x101000 0x400123 = 0xFFFF9123 := by
  obtain ⟨hf, hroom⟩ := emptyDir_fresh
  have hwords : ∀ c ∈ twoCalls, c.Words := by
    simp [twoCalls, DmaCall.Words]
  obtain ⟨hreturn, hexact⟩ := translations_exact hf hwords
  obtain ⟨s', hrun⟩ := hreturn hroom
  obtain ⟨hwalk, hvirtual, -⟩ := hexact s' hrun
  exact ⟨s', hrun, (hwalk 0x400123 (by decide)).trans (by decide),
    hvirtual 0x400123 (by decide) 0xFFFF9000 (by decide)⟩

end Levos.Memory
