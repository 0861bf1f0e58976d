import Levos.Memory.FrameAllocation
import Mathlib.Data.Nat.Find

namespace Levos.Memory

open Levos.Framework

/-- The `n` frames from `f` on are free, and all of them below `nframes`. -/
def FreeRun (s : Mm) (f n : Nat) : Prop := f + n ≤ s.nframes ∧ ∀ j < n, s.used (f + j) = false

/-- Page `g` is mapped onto frame `g`. -/
def Mm.mapsItself (s : Mm) (g : Nat) : Prop :=
  ∃ pg, s.pte g = some pg ∧ pg.present = true ∧ pg.frame.toNat = g

theorem Mm.mapsItself.present {s : Mm} {g : Nat} (h : s.mapsItself g) : s.present (0x1000 * g) = true := by
  obtain ⟨pg, hpte, hpresent, -⟩ := h
  rw [Mm.present, Nat.mul_div_cancel_left g (by decide), hpte]
  exact hpresent

/-- `mm_alloc_pages` returns the lowest run there is, with its bits set and its pages mapped onto
themselves, or returns 0 where there is none and leaves the bitmap and `kernel_dir` as they were. -/
def AllocatesRight (s : Mm) (n : Nat) : Prop :=
  ∃ addr s', mmAllocPages s n = .ok (addr, s') ∧
    (∀ f, FreeRun s f n → (∀ g < f, ¬FreeRun s g n) → addr = 0x1000 * f ∧
      (∀ g, s.inFrames (g / 32) → s'.used g = (s.used g || decide (f ≤ g ∧ g < f + n))) ∧
      (∀ g, f ≤ g → g < f + n → s'.mapsItself g) ∧
      ∀ g < 2 ^ 20, (g < f ∨ f + n ≤ g) → ∀ pg, s.pte g = some pg → s'.pte g = some pg) ∧
    ((∀ f, ¬FreeRun s f n) → addr = 0 ∧ (∀ g, s.inFrames (g / 32) → s'.used g = s.used g) ∧
      ∀ g < 2 ^ 20, s'.pte g = s.pte g)

/-- How many page tables the first `k` pages from `f` on lack. -/
def Mm.tablesMissing (s : Mm) (f : Nat) : Nat → Nat
  | 0 => 0
  | k + 1 => s.tablesMissing f k +
    if s.tbl ((f + k) / 1024) = 0 ∧ (k = 0 ∨ (f + k) % 1024 = 0) then 1 else 0

/-- There is nothing to make, or the heap is not online yet and the address space has room for what is
to be made. -/
def TablesFit (s : Mm) (f k : Nat) : Prop :=
  s.tablesMissing f k = 0 ∨
    s.heapOnline = false ∧ s.plp - s.plp % 0x1000 + 0x2000 * s.tablesMissing f k < 2 ^ 32

/-- There is a run whose page tables exist or can be made; or the request is for a multiple of all the
pages there are, and no bit of an array that has them all is set. -/
def RunMeets (s : Mm) (n : Nat) : Prop :=
  (16 ≤ s.nframes ∧ ∃ f, FreeRun s f n ∧ (∀ g < f, ¬FreeRun s g n) ∧ TablesFit s f n) ∨
    (2 ^ 19 ≤ s.nframes ∧ n % 2 ^ 20 = 0 ∧ ∀ g < 2 ^ 20, s.used g = false)

section Tables

variable {s : Mm} {f k i : Nat}

theorem tablesMissing_mono {m : Nat} (hk : k ≤ m) : s.tablesMissing f k ≤ s.tablesMissing f m := by
  induction m with
  | zero =>
    obtain rfl : k = 0 := by omega
    exact Nat.le_refl _
  | succ m ih =>
    by_cases hkm : k = m + 1
    · rw [hkm]
    · have hbefore := ih (by omega)
      rw [Mm.tablesMissing]
      omega

theorem TablesFit.mono {m : Nat} (h : TablesFit s f m) (hk : k ≤ m) : TablesFit s f k := by
  have hle : s.tablesMissing f k ≤ s.tablesMissing f m := tablesMissing_mono hk
  rcases h with h | ⟨hoff, h⟩
  · exact .inl (by omega)
  · exact .inr ⟨hoff, by omega⟩

/-- Nothing is to be made where all tables are there. -/
theorem tablesMissing_zero (h : ∀ j < k, s.tbl ((f + j) / 1024) ≠ 0) : s.tablesMissing f k = 0 := by
  induction k with
  | zero => rfl
  | succ k ih =>
    have hbefore := ih fun j hj => h j (by omega)
    rw [Mm.tablesMissing, hbefore, if_neg]
    exact fun hmissing => h k (by omega) hmissing.1

/-- One turn of `mm_alloc_pages` at a frame that is free: what becomes of the tables, and of the entry. -/
theorem allocPage_tables (hl : Layout s) (hi : i < 2 ^ 32) (hin : s.inFrames (i / 0x1000 / 32))
    (hfree : s.used (i / 0x1000) = false) :
    (∃ e, allocPage i s = .error e ∧ s.tbl (i / 0x1000 / 1024) = 0 ∧
      (s.heapOnline = true ∨ 2 ^ 32 ≤ s.plp - s.plp % 0x1000 + 0x2000)) ∨
    ∃ s', allocPage i s = .ok s' ∧ (s.tbl (i / 0x1000 / 1024) = 0 → s.heapOnline = false) ∧
      s'.plp = (if s.tbl (i / 0x1000 / 1024) = 0 then s.plp - s.plp % 0x1000 + 0x2000 else s.plp) ∧
      (∀ t < 1024, s'.tbl t = 0 ↔ s.tbl t = 0 ∧ t ≠ i / 0x1000 / 1024) ∧
      s'.mapsItself (i / 0x1000) ∧
      ∀ g < 2 ^ 20, g ≠ i / 0x1000 → ∀ pg, s.pte g = some pg → s'.pte g = some pg := by
  have htest : testFrame s i = .ok false := by rw [testFrame_ok hin, hfree]
  have hpage : allocPage i s =
      getPage s i true s.kernelDir >>= fun r => allocDmaFrame r.2 r.1 true false i := by
    rw [allocPage, htest]
    rfl
  have hg : i / 0x1000 < 2 ^ 20 := by omega
  have hnone : s.pte (i / 0x1000) = none ↔ s.tbl (i / 0x1000 / 1024) = 0 := by
    simpa using not_congr (pte_isSome (s := s) (g := i / 0x1000))
  rw [hpage]
  have herror {e : Fault} (he : getPage s i true s.kernelDir = .error e) :
      s.tbl (i / 0x1000 / 1024) = 0 := by
    by_contra ht
    rw [getPage_there ht] at he
    cases he
  rcases getPage_spec hl hi with ⟨he, hon⟩ | ⟨he, hfull⟩ | ⟨s₁, he, hl₁, hv₁, hplp₁, ht₁, htbl₁, -, hp₁⟩
  · exact .inl ⟨_, by rw [he]; rfl, herror he, .inl hon⟩
  · exact .inl ⟨_, by rw [he]; rfl, herror he, .inr hfull⟩
  · obtain ⟨s₂, hs₂, -, -, hplp₂, htbl₂, -, hp₂⟩ := allocDmaFrame_spec (a := i) true false hl₁
      hg ht₁ fun _ => hv₁.inFrames.mpr hin
    refine .inr ⟨s₂, by rw [he]; exact hs₂, ?_, ?_, ?_, ?_, ?_⟩
    · intro ht
      by_contra hon
      cases he.symm.trans (getPage_online (by simpa using hon) ht)
    · rw [hplp₂, hplp₁]
      simp only [hnone]
    · intro t ht
      rw [htbl₂ t ht, htbl₁ t ht]
      by_cases hti : t = i / 0x1000 / 1024
      · rw [hti]
        by_cases h0 : s.tbl (i / 0x1000 / 1024) = 0
        · simp [h0]
        · simp [h0]
      · simp [hti]
    · refine ⟨_, (hp₂ _ hg).trans (if_pos rfl), rfl, ?_⟩
      rw [dmaPage, BitVec.toNat_ofNat]
      omega
    · intro g hg' hne pg hpg
      rw [hp₂ g hg', if_neg hne, hp₁ g hg', if_neg (by simp [hpg]), hpg]

end Tables

/-- The loop of `mm_alloc_pages` after `k` pages of a run: the tables that were missing are made. -/
structure PagesDone (s : Mm) (f n k : Nat) (s₁ : Mm) : Prop
    extends AllocatedUpTo s f n (0x1000 * (f + k)) s₁ where
  itself : ∀ g, f ≤ g → g < f + k → s₁.mapsItself g
  tables : ∀ t < 1024, s₁.tbl t = 0 ↔ s.tbl t = 0 ∧ ∀ j < k, (f + j) / 1024 ≠ t
  plp : s₁.plp =
    if s.tablesMissing f k = 0 then s.plp else s.plp - s.plp % 0x1000 + 0x2000 * s.tablesMissing f k
  room : TablesFit s f k

section Pages

variable {s s₁ : Mm} {f n k : Nat}

theorem PagesDone.start (hl : Layout s) (f n : Nat) : PagesDone s f n 0 s := by
  refine ⟨AllocatedUpTo.start hl f n, ?_, ?_, ?_, .inl rfl⟩
  · intro g h1 h2
    omega
  · intro t _
    simp
  · rfl

/-- The table of the next page is missing when it was before, and no page before it had the same. -/
theorem PagesDone.missing (h : PagesDone s f n k s₁) (hend : f + k < 2 ^ 20) :
    s₁.tbl ((f + k) / 1024) = 0 ↔
      s.tbl ((f + k) / 1024) = 0 ∧ (k = 0 ∨ (f + k) % 1024 = 0) := by
  rw [h.tables _ (by omega)]
  apply and_congr_right
  intro _
  constructor
  · intro hfirst
    by_cases hk : k = 0
    · exact .inl hk
    · have hbefore := hfirst (k - 1) (by omega)
      omega
  · intro hk j hj
    omega

/-- One more page lacks one more table where its table is missing after the pages before it. -/
theorem PagesDone.count (h : PagesDone s f n k s₁) (hend : f + k < 2 ^ 20) :
    s.tablesMissing f (k + 1) = s.tablesMissing f k + if s₁.tbl ((f + k) / 1024) = 0 then 1 else 0 := by
  rw [Mm.tablesMissing]
  simp only [h.missing hend]

/-- A table that cannot be made for the next page is one that does not fit. -/
theorem PagesDone.unfit (h : PagesDone s f n k s₁) (hend : f + k < 2 ^ 20)
    (htbl : s₁.tbl ((f + k) / 1024) = 0)
    (hfull : s₁.heapOnline = true ∨ 2 ^ 32 ≤ s₁.plp - s₁.plp % 0x1000 + 0x2000) :
    ¬TablesFit s f (k + 1) := by
  have hplp := h.plp
  have honline : s₁.heapOnline = s.heapOnline := by rw [h.vars]
  intro hfit
  rw [TablesFit, h.count hend, if_pos htbl] at hfit
  rcases hfit with h0 | ⟨hoff, hlt⟩
  · omega
  · rcases hfull with hon | hfull
    · rw [honline, hoff] at hon
      cases hon
    · split_ifs at hplp <;> omega

/-- A table that is made for the next page moves `plp` over the two pages it takes. -/
theorem PagesDone.plp_next (h : PagesDone s f n k s₁) (hend : f + k < 2 ^ 20) {plp : Nat}
    (hnext : plp = if s₁.tbl ((f + k) / 1024) = 0 then s₁.plp - s₁.plp % 0x1000 + 0x2000 else s₁.plp) :
    plp = if s.tablesMissing f (k + 1) = 0 then s.plp else
      s.plp - s.plp % 0x1000 + 0x2000 * s.tablesMissing f (k + 1) := by
  have hplp := h.plp
  rw [hnext, h.count hend]
  by_cases htbl : s₁.tbl ((f + k) / 1024) = 0
  · rw [if_pos htbl, if_pos htbl, if_neg (by omega), hplp]
    split_ifs <;> omega
  · rw [if_neg htbl, if_neg htbl, Nat.add_zero]
    exact hplp

/-- The tables that are missing after one more page. -/
theorem PagesDone.tables_next (h : PagesDone s f n k s₁) {s₂ : Mm}
    (htbl : ∀ t < 1024, s₂.tbl t = 0 ↔ s₁.tbl t = 0 ∧ t ≠ (f + k) / 1024) :
    ∀ t < 1024, s₂.tbl t = 0 ↔ s.tbl t = 0 ∧ ∀ j < k + 1, (f + j) / 1024 ≠ t := by
  intro t ht
  rw [htbl t ht, h.tables t ht, and_assoc]
  apply and_congr_right
  intro _
  rw [Nat.forall_lt_succ_right]
  exact and_congr_right fun _ => ne_comm

/-- One turn of the loop: it fails where a table is missing that does not fit. -/
theorem PagesDone.step (h : PagesDone s f n k s₁) (hn : s.nframes < 2 ^ 20) (hend : f + n < 2 ^ 20)
    (hk : k < n) (hin : s.inFrames ((f + k) / 32)) (hfree : s.used (f + k) = false) :
    (∃ e, allocPage (0x1000 * (f + k)) s₁ = .error e ∧ ¬TablesFit s f n) ∨
    ∃ s₂, allocPage (0x1000 * (f + k)) s₁ = .ok s₂ ∧ PagesDone s f n (k + 1) s₂ := by
  have haddr : 0x1000 * (f + k) / 0x1000 = f + k := by omega
  have hused : s₁.used (f + k) = false := by
    rw [h.used _ hin, hfree]
    simp
  have htables := allocPage_tables (i := 0x1000 * (f + k)) h.layout (by omega)
    (by rw [haddr]; exact h.vars.inFrames.mpr hin) (by rw [haddr]; exact hused)
  rw [haddr] at htables
  rcases htables with ⟨e, he, htbl, hfull⟩ | ⟨s₂, hs₂, hoff, hplp₂, htbl₂, hitself, hkept⟩
  · exact .inl ⟨e, he, fun hfit => h.unfit (by omega) htbl hfull (hfit.mono (by omega))⟩
  · apply Or.inr
    rcases h.toAllocatedUpTo.step hn hend (by omega) (by rw [haddr]; exact hin)
      (by rw [haddr]; exact hfree) with ⟨e, he, -⟩ | ⟨s₂', hs₂', hdone⟩
    · cases he.symm.trans hs₂
    · cases hs₂.symm.trans hs₂'
      have hnext : 0x1000 * (f + k) + 0x1000 = 0x1000 * (f + (k + 1)) := by omega
      rw [hnext] at hdone
      have hplp := h.plp_next (by omega) hplp₂
      refine ⟨s₂, hs₂, hdone, ?_, h.tables_next htbl₂, hplp, ?_⟩
      · intro g hg hgk
        by_cases hlast : g = f + k
        · rw [hlast]
          exact hitself
        · obtain ⟨pg, hpg, hrest⟩ := h.itself g hg (by omega)
          exact ⟨pg, hkept g (by omega) hlast pg hpg, hrest⟩
      · by_cases h0 : s.tablesMissing f (k + 1) = 0
        · exact .inl h0
        · refine .inr ⟨?_, ?_⟩
          · by_cases htbl : s₁.tbl ((f + k) / 1024) = 0
            · have honline : s₁.heapOnline = s.heapOnline := by rw [h.vars]
              rw [← honline]
              exact hoff htbl
            · rw [h.count (by omega), if_neg htbl] at h0
              exact (h.room.resolve_left h0).1
          · have hspace := hdone.layout.space
            rw [hplp, if_neg h0] at hspace
            exact hspace

/-- The loop over a free run that the array has: it fails exactly where the tables do not fit. -/
theorem pages_loop (hl : Layout s) (hn : s.nframes < 2 ^ 20) (hend : f + n < 2 ^ 20)
    (hin : ∀ j < n, s.inFrames ((f + j) / 32)) (hfree : ∀ j < n, s.used (f + j) = false) :
    (∃ e, forPages (fun _ => 0x1000 * (f + n)) allocPage pageTurns (0x1000 * f) s = .error e ∧
      ¬TablesFit s f n) ∨
    ∃ s', forPages (fun _ => 0x1000 * (f + n)) allocPage pageTurns (0x1000 * f) s = .ok s' ∧
      PagesDone s f n n s' := by
  have hloop := forPages_rule (fun _ => 0x1000 * (f + n)) allocPage
    (fun i s₁ => ∃ k ≤ n, i = 0x1000 * (f + k) ∧ PagesDone s f n k s₁)
    (fun _ => ¬TablesFit s f n) (0x1000 * (f + n)) (by omega) ?_ pageTurns (0x1000 * f) s
    ⟨0, Nat.zero_le n, rfl, .start hl f n⟩ (by unfold pageTurns; omega) (by decide)
  · rcases hloop with herr | ⟨i, s', hs', ⟨k, hk, rfl, hdone⟩, hi⟩
    · exact .inl herr
    · obtain rfl : k = n := by omega
      exact .inr ⟨s', hs', hdone⟩
  · rintro i s₁ ⟨k, hk, rfl, hdone⟩ hi
    have hkn : k < n := by omega
    refine ⟨hi, ?_⟩
    rcases hdone.step hn hend hkn (hin k hkn) (hfree k hkn) with herr | ⟨s₂, hs₂, hdone₂⟩
    · exact .inl herr
    · refine .inr ⟨s₂, hs₂, k + 1, hkn, by omega, hdone₂⟩

end Pages

section Search

variable {s s' : Mm} {f n addr : Nat}

/-- The array has the bits of all frames below `nframes`, if it has any. -/
theorem inFrames_below (hn : s.nframes < 2 ^ 20) (h16 : 16 ≤ s.nframes) {g : Nat} (hg : g < s.nframes) :
    s.inFrames (g / 32) := by
  rw [Mm.inFrames_iff (by omega)]
  omega

/-- A search that comes back has at least 16 frames in the array, or none to look at. -/
theorem nframes_of_search (hn : s.nframes < 2 ^ 20) (h1 : 1 ≤ n) (h0 : 0 < s.nframes)
    (h : firstNFrames s n = .ok f) : 16 ≤ s.nframes := by
  rw [firstNFrames_eq, Nat.mod_eq_of_lt hn] at h
  obtain ⟨k, hk⟩ := Nat.exists_eq_add_of_le' h0
  rw [hk, List.range_succ_eq_map, firstRun] at h
  obtain ⟨b, hb, -⟩ := bind_eq_ok.mp h
  have hin := lastUsed_inside hb 0 h1
  rw [Mm.inFrames_iff (by omega)] at hin
  omega

/-- The search finds the lowest run below `nframes`. -/
theorem firstNFrames_lowest (hn : s.nframes < 2 ^ 20) (h1 : 1 ≤ n) (h16 : 16 ≤ s.nframes)
    (hrun : FreeRun s f n) (hlow : ∀ g < f, ¬FreeRun s g n) :
    firstNFrames s n = .ok (signedFrame (0x1000 * f)) := by
  obtain ⟨hend, hfree⟩ := hrun
  obtain ⟨f₀, hle, hfirst, hfree₀, -⟩ := firstNFrames_ok (f := f) (n := n) hn (by omega)
    (fun g hg j hj => by
      rw [Nat.mod_eq_of_lt (by omega)]
      exact inFrames_below hn h16 (by omega))
    (fun j hj => by
      rw [Nat.mod_eq_of_lt (by omega)]
      exact hfree j hj)
  have hrun₀ : FreeRun s f₀ n := by
    refine ⟨by omega, ?_⟩
    intro j hj
    have hj₀ := hfree₀ j hj
    rw [Nat.mod_eq_of_lt (by omega)] at hj₀
    exact hj₀
  have hsame : f₀ = f := by
    by_contra hne
    exact hlow f₀ (by omega) hrun₀
  rw [← hsame]
  exact hfirst

/-- What `mm_alloc_pages` is when the run ends inside the address space. -/
theorem mmAllocPages_run (hfirst : firstNFrames s n = .ok (signedFrame (0x1000 * f)))
    (hend : f + n < 2 ^ 20) :
    mmAllocPages s n = (do
      let s ← forPages (fun _ => 0x1000 * (f + n)) allocPage pageTurns (0x1000 * f) s
      return (0x1000 * f, s)) := by
  have haddr := wrap_signedFrame (f := f) (by omega)
  have hbound : wrap (0x1000 * f + wrap (n * 0x1000)) = 0x1000 * (f + n) := by
    rw [wrap_of_lt (x := n * 0x1000) (by omega), wrap_of_lt (by omega)]
    omega
  rw [mmAllocPages, hfirst, ok_bind]
  simp only [haddr, hbound]

/-- From frame 0 on, as many pages are gone through as the request leaves modulo the address space. -/
theorem mmAllocPages_zero (hfirst : firstNFrames s n = .ok 0) :
    mmAllocPages s n = (do
      let s ← forPages (fun _ => 0x1000 * (0 + n % 2 ^ 20)) allocPage pageTurns (0x1000 * 0) s
      return (0x1000 * 0, s)) := by
  have hbound : wrap (0 + wrap (n * 0x1000)) = 0x1000 * (0 + n % 2 ^ 20) := by
    unfold wrap
    omega
  rw [mmAllocPages, hfirst, ok_bind]
  simp only [Nat.zero_mul, wrap_of_lt (x := 0) (by decide), Nat.mul_zero, hbound]

/-- Without a run below `nframes` a call returns 0 only where it has gone through frame 0. -/
theorem firstNFrames_zero (h : mmAllocPages s n = .ok (0, s')) :
    firstNFrames s n = .ok 0 := by
  obtain ⟨f, hfirst, hrest⟩ := bind_eq_ok.mp h
  obtain ⟨s₁, -, hret⟩ := bind_eq_ok.mp hrest
  have haddr : wrap (f * 0x1000) = 0 := by
    simp only [pure, Except.pure, Except.ok.injEq, Prod.mk.injEq] at hret
    exact hret.1
  unfold wrap at haddr
  by_cases hnone : f = 0xFFFFFFFF
  · rw [hnone] at haddr
    omega
  · obtain ⟨g, hg, rfl, -⟩ := firstNFrames_found hfirst hnone
    have hmod := signedFrame_mod (f := g) (by omega)
    have hzero : g = 0 := by omega
    rw [hfirst, hzero]
    rfl

end Search

section Allocates

variable {s : Mm} {f n : Nat}

/-- Where there is a run at all, there is a lowest one. -/
theorem exists_lowest (h : ∃ f, FreeRun s f n) : ∃ f, FreeRun s f n ∧ ∀ g < f, ¬FreeRun s g n := by
  classical
  exact ⟨Nat.find h, Nat.find_spec h, fun g hg => Nat.find_min h hg⟩

theorem lowest_unique {g : Nat} (hf : FreeRun s f n) (hlow : ∀ g < f, ¬FreeRun s g n) (hg : FreeRun s g n)
    (hlow' : ∀ f < g, ¬FreeRun s f n) : g = f := by
  rcases Nat.lt_trichotomy g f with hlt | heq | hlt
  · exact absurd hg (hlow g hlt)
  · exact heq
  · exact absurd hf (hlow' f hlt)

/-- A call that does right by a run has found its tables, or room for them. -/
theorem AllocatesRight.fits (h : AllocatesRight s n) (hl : Layout s) (hn : s.nframes < 2 ^ 20) (h1 : 1 ≤ n)
    (hfree : FreeRun s f n) (hlow : ∀ g < f, ¬FreeRun s g n) : 16 ≤ s.nframes ∧ TablesFit s f n := by
  obtain ⟨addr, s', hcall, -, -⟩ := h
  obtain ⟨f', hfirst, -⟩ := bind_eq_ok.mp hcall
  have hend := hfree.1
  have h16 := nframes_of_search hn h1 (by omega) hfirst
  have hlowest := firstNFrames_lowest hn h1 h16 hfree hlow
  refine ⟨h16, ?_⟩
  rw [mmAllocPages_run hlowest (by omega)] at hcall
  rcases pages_loop hl hn (by omega) (fun j hj => inFrames_below hn h16 (by omega)) hfree.2 with
    ⟨e, he, -⟩ | ⟨s₁, -, hdone⟩
  · rw [he] at hcall
    cases hcall
  · exact hdone.room

/-- Without a run the call has found all pages there are free, and has gone through none of them. -/
theorem AllocatesRight.whole (h : AllocatesRight s n) (hl : Layout s) (hn : s.nframes < 2 ^ 20)
    (h1 : 1 ≤ n) (hno : ∀ f, ¬FreeRun s f n) :
    2 ^ 19 ≤ s.nframes ∧ n % 2 ^ 20 = 0 ∧ ∀ g < 2 ^ 20, s.used g = false := by
  obtain ⟨addr, s', hcall, -, hnone⟩ := h
  obtain ⟨rfl, hbits, -⟩ := hnone hno
  have hzero := firstNFrames_zero hcall
  have hfree := firstNFrames_free hzero (by decide)
  obtain ⟨f, hpos, hf, -, hin⟩ := firstNFrames_found hzero (by decide)
  obtain rfl : f = 0 := by
    have hmod := signedFrame_mod (f := f) (by omega)
    omega
  have hfree0 : s.used 0 = false := hfree 0 h1
  have hin0 : s.inFrames (0 / 32) := hin 0 h1
  -- a page that is gone through marks frame 0
  have hmod : n % 2 ^ 20 = 0 := by
    by_contra hne
    have hlt : n % 2 ^ 20 < 2 ^ 20 := Nat.mod_lt _ (by decide)
    have hle : n % 2 ^ 20 ≤ n := Nat.mod_le _ _
    rw [mmAllocPages_zero hzero] at hcall
    have hinside (j : Nat) (hj : j < n % 2 ^ 20) : s.inFrames ((0 + j) / 32) := by
      have hj' := hin j (by omega)
      rw [Nat.mod_eq_of_lt (by omega)] at hj'
      exact hj'
    have hclear (j : Nat) (hj : j < n % 2 ^ 20) : s.used (0 + j) = false := by
      have hj' := hfree j (by omega)
      rw [Nat.mod_eq_of_lt (by omega)] at hj'
      exact hj'
    rcases pages_loop (f := 0) hl hn (by omega) hinside hclear with ⟨e, he, -⟩ | ⟨s₁, hs₁, hdone⟩
    · rw [he] at hcall
      cases hcall
    · rw [hs₁] at hcall
      cases hcall
      have hset := hdone.used 0 hin0
      rw [hbits 0 hin0, hfree0] at hset
      simp at hset
      omega
  have hall (g : Nat) (hg : g < 2 ^ 20) : s.used g = false := by
    have hg' := hfree g (by omega)
    rw [Nat.zero_add, Nat.mod_eq_of_lt hg] at hg'
    exact hg'
  have hlast := hin (2 ^ 20 - 1) (by omega)
  rw [Mm.inFrames_iff (by omega)] at hlast
  exact ⟨by omega, hmod, hall⟩

/-- The lowest run is handed out when its tables fit. -/
theorem allocatesRight_run (hl : Layout s) (hn : s.nframes < 2 ^ 20) (h1 : 1 ≤ n) (h16 : 16 ≤ s.nframes)
    (hfree : FreeRun s f n) (hlow : ∀ g < f, ¬FreeRun s g n) (hfit : TablesFit s f n) :
    AllocatesRight s n := by
  have hend := hfree.1
  have hlowest := firstNFrames_lowest hn h1 h16 hfree hlow
  rcases pages_loop hl hn (by omega) (fun j hj => inFrames_below hn h16 (by omega)) hfree.2 with
    ⟨e, -, hbad⟩ | ⟨s', hs', hdone⟩
  · exact absurd hfit hbad
  · refine ⟨0x1000 * f, s', by rw [mmAllocPages_run hlowest (by omega), hs']; rfl, ?_, ?_⟩
    · intro f' hfree' hlow'
      obtain rfl : f' = f := lowest_unique hfree hlow hfree' hlow'
      refine ⟨rfl, ?_, hdone.itself, hdone.kept⟩
      intro g hg
      rw [hdone.used g hg]
      congr 1
      rw [decide_eq_decide]
      omega
    · intro hnone
      exact absurd hfree (hnone f)

/-- A multiple of all the pages there are is no page at all, so that 0 is returned with nothing done. -/
theorem allocatesRight_whole (hn : s.nframes < 2 ^ 20) (h1 : 1 ≤ n) (hlarge : 2 ^ 19 ≤ s.nframes)
    (hmod : n % 2 ^ 20 = 0) (hall : ∀ g < 2 ^ 20, s.used g = false) : AllocatesRight s n := by
  have hinside (g : Nat) (_ : g ≤ 0) (j : Nat) (_ : j < n) : s.inFrames ((g + j) % 2 ^ 20 / 32) := by
    rw [Mm.inFrames_iff (by omega)]
    omega
  have hclear (j : Nat) (_ : j < n) : s.used ((0 + j) % 2 ^ 20) = false :=
    hall _ (Nat.mod_lt _ (by decide))
  obtain ⟨f, hle, hfirst, -⟩ := firstNFrames_ok hn (by omega) hinside hclear
  obtain rfl : f = 0 := Nat.le_zero.mp hle
  have hcall : mmAllocPages s n = .ok (0, s) := by
    rw [mmAllocPages_zero hfirst, hmod]
    rfl
  refine ⟨0, s, hcall, ?_, ?_⟩
  · intro f hfree
    have hend := hfree.1
    omega
  · intro _
    exact ⟨rfl, fun g _ => rfl, fun g _ => rfl⟩

end Allocates

/-- `mm_alloc_pages` does what it is for exactly when the request meets the condition. -/
theorem mmAllocPages_right_iff {s : Mm} {n : Nat} (hl : Layout s) (hn : s.nframes < 2 ^ 20) (h1 : 1 ≤ n) :
    AllocatesRight s n ↔ RunMeets s n := by
  constructor
  · intro hright
    by_cases hex : ∃ f, FreeRun s f n
    · obtain ⟨f, hfree, hlow⟩ := exists_lowest hex
      obtain ⟨h16, hfit⟩ := hright.fits hl hn h1 hfree hlow
      exact .inl ⟨h16, f, hfree, hlow, hfit⟩
    · exact .inr (hright.whole hl hn h1 fun f hfree => hex ⟨f, hfree⟩)
  · intro hmeets
    rcases hmeets with ⟨h16, f, hfree, hlow, hfit⟩ | ⟨hlarge, hmod, hall⟩
    · exact allocatesRight_run hl hn h1 h16 hfree hlow hfit
    · exact allocatesRight_whole hn h1 hlarge hmod hall

/-- 128 KiB of memory with every frame in use, before any page table exists. -/
def fullMemory : Mm where
  mem := fun x => if 0x100000 ≤ x ∧ x < 0x100004 then 0xFF#8 else 0#8
  nframes := 32
  frames := 0x100000
  kernelDir := 0x101000
  currentDirectory := 0
  plp := 0x103004
  heapOnline := false

theorem fullMemory_layout : Layout fullMemory := by
  have hclear (x : Nat) (hx : 0x100004 ≤ x) : fullMemory.mem x = 0 := by
    have hout : ¬(0x100000 ≤ x ∧ x < 0x100004) := by omega
    exact if_neg hout
  have htbl (t : Nat) : fullMemory.tbl t = 0 := by
    have hdir : fullMemory.kernelDir = 0x101000 := rfl
    rw [Mm.tbl, Mm.table, Memory.word, hdir, hclear _ (by omega), hclear _ (by omega), hclear _ (by omega),
      hclear _ (by omega)]
    rfl
  exact ⟨by decide, by decide, by decide, fun t _ h => absurd (htbl t) h,
    fun t _ => by rw [htbl], fun t _ u _ h => absurd (htbl t) h⟩

/-- With no frame left a page is handed out at the last address of all. -/
theorem fullMemory_page :
    Layout fullMemory ∧ fullMemory.nframes < 2 ^ 20 ∧
      mmAllocPages fullMemory 1 = .ok (0xFFFFF000, fullMemory) ∧ ¬AllocatesRight fullMemory 1 := by
  have hfirst : firstNFrames fullMemory 1 = .ok 0xFFFFFFFF := by decide +kernel
  have hcall : mmAllocPages fullMemory 1 = .ok (0xFFFFF000, fullMemory) := by
    rw [mmAllocPages, hfirst, ok_bind]
    rfl
  refine ⟨fullMemory_layout, by decide, hcall, ?_⟩
  rintro ⟨addr, s', hcall', -, hnone⟩
  cases hcall.symm.trans hcall'
  have hzero := hnone ?_
  · exact absurd hzero.1 (by decide)
  · rintro f ⟨hend, hfree⟩
    have hf := hfree 0 (by decide)
    have hused : ∀ f < 32, fullMemory.used f = true := by decide
    have hcount : fullMemory.nframes = 32 := rfl
    rw [hused (f + 0) (by omega)] at hf
    cases hf

/-- Two pages where the page table is still to be made. -/
theorem smallMemory_pages : AllocatesRight smallMemory 2 := by
  apply (mmAllocPages_right_iff smallMemory_layout (by decide) (by decide)).mpr
  refine .inl ⟨by decide, 0, ⟨by decide, ?_⟩, ?_, ?_⟩
  · decide
  · intro g hg
    omega
  · exact .inr ⟨rfl, by decide⟩

end Levos.Memory
