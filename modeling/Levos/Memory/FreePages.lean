import Levos.Framework.Run
import Levos.Memory.FrameAllocation
import Mathlib.Logic.Relation

namespace Levos.Memory

open Levos.Framework

/-- What every allocation keeps: the layout, the variables, the mappings. -/
def Keeps (s s' : Mm) : Prop :=
  Layout s' ∧ SameVars s s' ∧ ∀ g < 2 ^ 20, s.mapped g → s'.mapped g

theorem Keeps.trans {s s' s'' : Mm} (h : Keeps s s') (k : Keeps s' s'') : Keeps s s'' :=
  ⟨k.1, h.2.1.trans k.2.1, fun g hg hm => k.2.2 g hg (h.2.2 g hg hm)⟩

theorem Layout.keeps {s : Mm} (hl : Layout s) : Keeps s s := ⟨hl, .refl s, fun _ _ h => h⟩

section Returned

variable {s s' : Mm} {n p : Nat}

theorem allocPage_ok {i : Nat} (hl : Layout s) (hi : i < 2 ^ 32) (h : allocPage i s = .ok s') :
    Keeps s s' ∧ s'.mapped (i / 0x1000) := by
  obtain ⟨b, htest, hrest⟩ := bind_eq_ok.mp h
  cases b with
  | true => simp at hrest
  | false =>
    have hin : s.inFrames (i / 0x1000 / 32) ∧ s.used (i / 0x1000) = false := by
      simp only [testFrame] at htest
      split_ifs at htest with hin
      exact ⟨hin, by simpa using htest⟩
    rcases allocPage_spec hl hi hin.1 hin.2 with ⟨e, he, -⟩ | ⟨s₁, hs₁, hl₁, hv₁, -, hm₁, hp₁⟩
    · simp [he] at h
    · obtain rfl : s₁ = s' := by simpa [hs₁] using h
      refine ⟨⟨hl₁, hv₁, ?_⟩, hm₁⟩
      rintro g hg ⟨pg, hpg, hpr⟩
      by_cases hgi : g = i / 0x1000
      · exact hgi ▸ hm₁
      · exact ⟨pg, hp₁ g hg hgi pg hpg, hpr⟩

/-- A call that returned has mapped the first page of what it returned, unless its loop made no
turn at all. -/
theorem mmAllocPages_ok (hl : Layout s) (h : mmAllocPages s n = .ok (p, s')) :
    Keeps s s' ∧ p % 0x1000 = 0 ∧ p < 2 ^ 32 ∧ (s' = s ∨ s'.mapped (p / 0x1000)) := by
  obtain ⟨f, hf, hrest⟩ := bind_eq_ok.mp h
  obtain ⟨s₁, hs₁, hret⟩ := bind_eq_ok.mp hrest
  cases hret
  have haddr : wrap (f * 0x1000) % 0x1000 = 0 := by
    unfold wrap
    omega
  have hlt := wrap_lt (f * 0x1000)
  have hbound : wrap (wrap (f * 0x1000) + wrap (n * 0x1000)) + 0x1000 ≤ 2 ^ 32 := by
    unfold wrap
    omega
  obtain ⟨addr, heq⟩ : ∃ addr, wrap (f * 0x1000) = addr := ⟨_, rfl⟩
  rw [heq] at haddr hlt hbound hs₁ ⊢
  have hloop := forPages_rule (fun _ => wrap (addr + wrap (n * 0x1000))) allocPage
    (fun i s₁ => Keeps s s₁ ∧ (i = addr ∧ s₁ = s ∨ s₁.mapped (addr / 0x1000))) (fun _ => True)
    (wrap (addr + wrap (n * 0x1000))) hbound ?_ pageTurns addr s ⟨hl.keeps, .inl ⟨rfl, rfl⟩⟩
    (by unfold pageTurns; omega) (by decide)
  · rcases hloop with ⟨e, he, -⟩ | ⟨i, s₂, hs₂, ⟨hk, hor⟩, -⟩
    · simp [he] at hs₁
    · obtain rfl : s₂ = s' := by simpa [hs₂] using hs₁
      exact ⟨hk, haddr, hlt, hor.imp (fun h => h.2) id⟩
  · rintro i s₁ ⟨hk, hor⟩ hi
    refine ⟨hi, ?_⟩
    cases hbody : allocPage i s₁ with
    | error e => exact .inl ⟨e, rfl, trivial⟩
    | ok s₂ =>
      obtain ⟨hk₂, hm₂⟩ := allocPage_ok hk.1 (by omega) hbody
      refine .inr ⟨s₂, rfl, hk.trans hk₂, .inr ?_⟩
      rcases hor with ⟨rfl, -⟩ | hm
      · exact hm₂
      · exact hk₂.2.2 _ (by omega) hm

theorem allocFrame_ok {k w : Bool} (hl : Layout s) (hp : EntryPointer s p)
    (h : allocFrame s p k w = .ok s') : Keeps s s' := by
  have loop (fuel : Nat) : ∀ s₁, Keeps s s₁ → allocFrameLoop p k w fuel s₁ = .ok s' → Keeps s s' := by
    induction fuel with
    | zero =>
      intro s₁ _ h₁
      cases h₁
    | succ fuel ih =>
      intro s₁ hk h₁
      have hp₁ := hk.2.1.entryPointer hp
      rw [allocFrameLoop] at h₁
      split_ifs at h₁ with hz
      · cases h₁
        obtain ⟨h2, -, h3⟩ := setPage_spec
          { s₁.page p with present := true, rw := w, user := !k } hk.1 hp₁ (fun _ => rfl)
        exact hk.trans ⟨h2, rfl, h3⟩
      · obtain ⟨index, -, h₂⟩ := bind_eq_ok.mp h₁
        obtain ⟨s₂, hs₂, h₃⟩ := bind_eq_ok.mp h₂
        obtain ⟨hl₂, hv₂, -, -, -, hpte, -⟩ := setFrame_ok hk.1 hs₂
        have hk₂ : Keeps s₁ s₂ := by
          refine ⟨hl₂, hv₂, ?_⟩
          rintro g hg ⟨pg, hpg, hpr⟩
          exact ⟨pg, (hpte g hg).trans hpg, hpr⟩
        obtain ⟨h4, -, h5⟩ := setPage_spec { s₂.page p with frame := BitVec.ofNat 20 index } hl₂
          (hv₂.entryPointer hp₁) (fun h => h)
        exact ih _ ((hk.trans hk₂).trans ⟨h4, rfl, h5⟩) h₃
  unfold allocFrame at h
  rw [if_neg hp.1] at h
  exact loop _ s hl.keeps h

end Returned

/-- The bytes of the memory manager itself. -/
def Mm.owns (s : Mm) (x : Nat) : Prop :=
  (s.frames ≤ x ∧ x < s.frames + 4 * s.frameWords) ∨
  (s.kernelDir ≤ x ∧ x < s.kernelDir + pageDirSize) ∨
  ∃ t < 1024, s.tbl t ≠ 0 ∧ s.tbl t ≤ x ∧ x < s.tbl t + pageTableSize

/-- What may happen while a block is live: further calls that return, and writes to memory that is
not the memory manager's own. -/
inductive Between (s : Mm) : Mm → Prop
  | call {s' : Mm} (c : Call) (fs : List Nat)
      (hp : ∀ p k w, c = .frame p k w → EntryPointer s p) (h : c.run s = .ok (fs, s')) : Between s s'
  | write (m : Memory) (h : ∀ x, s.owns x → m x = s.mem x) : Between s { s with mem := m }

theorem Between.keeps {s s' : Mm} (hl : Layout s) (h : Between s s') : Keeps s s' := by
  cases h with
  | call c fs hp h =>
    cases c with
    | pages n =>
      obtain ⟨⟨addr, s₁⟩, hs₁, hret⟩ := bind_eq_ok.mp h
      cases hret
      exact (mmAllocPages_ok hl hs₁).1
    | frame p k w =>
      obtain ⟨s₁, hs₁, hret⟩ := bind_eq_ok.mp h
      cases hret
      exact allocFrame_ok hl (hp p k w rfl) hs₁
  | write m h =>
    have hd : Memory.Agree s.kernelDir (s.kernelDir + pageDirSize) s.mem m :=
      fun x h1 h2 => h x (.inr (.inl ⟨h1, h2⟩))
    refine ⟨hl.write hd, rfl, ?_⟩
    rintro g hg ⟨pg, hpg, hpr⟩
    have ht : s.tbl (g / 1024) ≠ 0 := pte_isSome.mp (by simp [hpg])
    have htbl : ({ s with mem := m } : Mm).tbl (g / 1024) = s.tbl (g / 1024) :=
      tbl_write hd (by omega)
    have htab : Memory.Agree (s.tbl (g / 1024)) (s.tbl (g / 1024) + pageTableSize) s.mem m :=
      fun x h1 h2 => h x (.inr (.inr ⟨g / 1024, by omega, ht, h1, h2⟩))
    refine ⟨pg, ?_, hpr⟩
    rw [pte_eq_some (htbl ▸ ht), Mm.entry, htbl, ← hpg, pte_eq_some ht, Mm.entry]
    exact congrArg some (congrArg Page.ofWord
      (htab.word (by omega) (by unfold pageTableSize; omega)))

theorem Between.run_keeps {s s' : Mm} (hl : Layout s) (h : Relation.ReflTransGen Between s s') :
    Keeps s s' := by
  induction h with
  | refl => exact hl.keeps
  | tail _ hst ih => exact ih.trans (hst.keeps ih.1)

/-- What freeing a run `f, …, f + n - 1` is to do, from `s₂` to `s₃`, when allocating it went from
`s₀` to `s₁`. -/
structure Freed (s₀ s₁ s₂ s₃ : Mm) (f n : Nat) : Prop where
  cleared : ∀ j < n, s₀.used (f + j) = false ∧ s₁.used (f + j) = true ∧ s₃.used (f + j) = false
  others : ∀ g, s₂.inFrames (g / 32) → (g < f ∨ f + n ≤ g) → s₃.used g = s₂.used g
  emptied : ∀ j < n, f + j < 2 ^ 20 → ∀ pg, s₃.pte (f + j) = some pg → pg.present = false ∧ pg.frame = 0
  untouched : ∀ x, (x < s₂.frames ∨ s₂.frames + 4 * s₂.frameWords ≤ x) →
    (∀ j < n, f + j < 2 ^ 20 → s₂.tbl ((f + j) / 1024) ≠ 0 →
      x < s₂.entry (f + j) ∨ s₂.entry (f + j) + 4 ≤ x) → s₃.mem x = s₂.mem x

/-- `free_frame` leaves the present bit of every entry as it is, also of the one it is given. -/
theorem freeFrame_present {s s' : Mm} {p a : Nat} (hp : p % 4 = 0) (ha : a % 4 = 0)
    (hoff : a + 4 ≤ s.frames ∨ s.frames + 4 * s.frameWords ≤ a) (h : freeFrame s p = .ok s') :
    SameVars s s' ∧ (s'.page a).present = (s.page a).present := by
  unfold freeFrame at h
  split_ifs at h with hz
  obtain ⟨s₁, hs₁, hret⟩ := bind_eq_ok.mp h
  cases hret
  simp only [clearFrame] at hs₁
  split_ifs at hs₁ with hin
  cases hs₁
  refine ⟨rfl, ?_⟩
  unfold Mm.inFrames at hin
  have hword (f : Nat) (hf : f / 32 < s.frameWords) :
      (s.mem.clearBit s.frames f).word a = s.mem.word a := Memory.word_setWord_ne (by omega)
  by_cases hpa : a = p
  · subst hpa
    rw [page_setPage]
    exact congrArg (fun w => (Page.ofWord w).present) (hword _ hin)
  · have hne : ∀ (s₂ : Mm) pg, (s₂.setPage p pg).page a = s₂.page a :=
      fun s₂ pg => congrArg Page.ofWord (Memory.word_setWord_ne (by omega))
    rw [hne]
    exact congrArg (fun w => (Page.ofWord w).present) (hword _ hin)

theorem mmFreePages_present {s s' : Mm} {p a n : Nat} (hp : p % 4 = 0) (ha : a % 4 = 0)
    (hoff : a + 4 ≤ s.frames ∨ s.frames + 4 * s.frameWords ≤ a) (h : mmFreePages s p n = .ok s') :
    SameVars s s' ∧ (s'.page a).present = (s.page a).present := by
  induction n generalizing s p with
  | zero =>
    cases h
    exact ⟨.refl _, rfl⟩
  | succ n ih =>
    rw [mmFreePages] at h
    obtain ⟨s₁, hs₁, h₁⟩ := bind_eq_ok.mp h
    have hp' : wrap (p + (2 ^ 32 - 0x1000)) % 4 = 0 := by
      unfold wrap
      omega
    obtain ⟨hv, he⟩ := freeFrame_present hp' ha hoff hs₁
    obtain ⟨hv', he'⟩ := ih hp' (by rw [hv.frames, hv.frameWords]; exact hoff) h₁
    exact ⟨hv.trans hv', he'.trans he⟩

/-- The entries of the run stay present. -/
theorem not_freed {s₀ s₁ s₂ : Mm} {n p : Nat} (hl : Layout s₀) (h1 : 1 ≤ n)
    (halloc : mmAllocPages s₀ n = .ok (p, s₁)) (hmid : Relation.ReflTransGen Between s₁ s₂) :
    ¬∃ s₃, mmFreePages s₂ p n = .ok s₃ ∧ Freed s₀ s₁ s₂ s₃ (p / 0x1000) n := by
  rintro ⟨s₃, hfree, hfreed⟩
  obtain ⟨hk₁, hp, hlt, hor⟩ := mmAllocPages_ok hl halloc
  have hk₂ : Keeps s₁ s₂ := Between.run_keeps hk₁.1 hmid
  have hmapped : s₁.mapped (p / 0x1000) := by
    rcases hor with rfl | hm
    · obtain ⟨hb, ha, -⟩ := hfreed.cleared 0 (by omega)
      exact absurd (hb.symm.trans ha) (by decide)
    · exact hm
  have hg : p / 0x1000 < 2 ^ 20 := by omega
  obtain ⟨pg, hpg, hpr⟩ := hk₂.2.2 _ hg hmapped
  have hl₂ := hk₂.1
  have ht : s₂.tbl (p / 0x1000 / 1024) ≠ 0 := pte_isSome.mp (by simp [hpg])
  obtain rfl : s₂.page (s₂.entry (p / 0x1000)) = pg :=
    Option.some.inj ((pte_eq_some ht).symm.trans hpg)
  obtain ⟨hin, -⟩ := hl₂.entry_inside hg ht
  have hb := hl₂.bitmap
  have halign := hl₂.aligned (p / 0x1000 / 1024) (by omega)
  obtain ⟨hv₃, hpr₃⟩ := mmFreePages_present (a := s₂.entry (p / 0x1000)) (by omega)
    (by unfold Mm.entry; omega) (.inr (by omega)) hfree
  -- the directory is no part of the run, so that the entry is still found where it was
  have hdir : Memory.Agree s₂.kernelDir (s₂.kernelDir + pageDirSize) s₂.mem s₃.mem := by
    intro x hx1 hx2
    refine hfreed.untouched x (by omega) fun j _ hj htj => ?_
    obtain ⟨hin', -⟩ := hl₂.entry_inside hj htj
    omega
  have htbl : s₃.tbl (p / 0x1000 / 1024) = s₂.tbl (p / 0x1000 / 1024) := by
    rw [hv₃]
    exact tbl_write hdir (by omega)
  have hpte : s₃.pte (p / 0x1000) = some (s₃.page (s₂.entry (p / 0x1000))) := by
    rw [pte_eq_some (htbl ▸ ht), Mm.entry, htbl]
    rfl
  obtain ⟨habs, -⟩ := hfreed.emptied 0 (by omega) hg _ hpte
  exact absurd ((habs.symm.trans hpr₃).trans hpr) (by decide)

/-- A block that `mm_alloc_pages` gave out, with the states before and behind the call. -/
structure Region where
  before : Mm
  after : Mm
  addr : Nat
  pages : Nat

/-- A step of a sequence of matched calls, with the regions that are live. The label is the region that is
given back. -/
inductive MatchedStep : Mm × List Region → Option Region → Mm × List Region → Prop
  | alloc {s s' : Mm} {live : List Region} {n p : Nat} (h1 : 1 ≤ n)
      (h : mmAllocPages s n = .ok (p, s')) :
      MatchedStep (s, live) none (s', ⟨s, s', p, n⟩ :: live)
  | free {s s' : Mm} {pre post : List Region} {r : Region}
      (h : mmFreePages s r.addr r.pages = .ok s') :
      MatchedStep (s, pre ++ r :: post) (some r) (s', pre ++ post)
  | between {s s' : Mm} {live : List Region} (h : Between s s') :
      MatchedStep (s, live) none (s', live)

/-- The step undoes the allocation of the region that it gives back. -/
def Undoes (k : Mm × List Region) (l : Option Region) (k' : Mm × List Region) : Prop :=
  ∀ r, l = some r → Freed r.before r.after k.1 k'.1 (r.addr / 0x1000) r.pages

/-- The region was allocated, and nothing was given back since. -/
structure Region.LiveIn (r : Region) (s : Mm) : Prop where
  layout : Layout r.before
  pages : 1 ≤ r.pages
  call : mmAllocPages r.before r.pages = .ok (r.addr, r.after)
  since : Relation.ReflTransGen Between r.after s

/-- So it is with every live region. -/
structure Unreturned (k : Mm × List Region) : Prop where
  layout : Layout k.1
  regions : ∀ r ∈ k.2, r.LiveIn k.1

/-- A step that undoes what it gives back gives nothing back. -/
theorem Unreturned.step {k k' : Mm × List Region} {l : Option Region} (hk : Unreturned k)
    (h : MatchedStep k l k') (hundoes : Undoes k l k') : l = none ∧ Unreturned k' := by
  obtain ⟨hl, hregions⟩ := hk
  have later {s' : Mm} (hst : Between k.1 s') (r : Region) (hr : r ∈ k.2) : r.LiveIn s' :=
    { hregions r hr with since := (hregions r hr).since.tail hst }
  cases h with
  | @alloc s s' live n p h1 h =>
    have hcall : Between s s' := .call (.pages n) _ (by simp) (by rw [Call.run, h]; rfl)
    refine ⟨rfl, (hcall.keeps hl).1, fun r hr => ?_⟩
    rcases List.mem_cons.mp hr with rfl | hr
    · exact ⟨hl, h1, h, .refl⟩
    · exact later hcall r hr
  | @free s s' pre post r h =>
    have hlive : r.LiveIn s := hregions r (by simp)
    exact absurd ⟨s', h, hundoes r rfl⟩ (not_freed hlive.layout hlive.pages hlive.call hlive.since)
  | between h => exact ⟨rfl, (h.keeps hl).1, later h⟩

/-- Freeing never undoes an allocation, and so no sequence of matched calls in which every block that is
given back is freed as it should be gives any back. -/
theorem mmFreePages_never {s₀ : Mm} (hl : Layout s₀) :
    (∀ s₁ s₂ n p, 1 ≤ n → mmAllocPages s₀ n = .ok (p, s₁) → Relation.ReflTransGen Between s₁ s₂ →
      ¬∃ s₃, mmFreePages s₂ p n = .ok s₃ ∧ Freed s₀ s₁ s₂ s₃ (p / 0x1000) n) ∧
    ∀ ls k, Run (fun k l k' => MatchedStep k l k' ∧ Undoes k l k') (s₀, []) ls k → ∀ r, some r ∉ ls := by
  refine ⟨fun s₁ s₂ n p h1 halloc hmid => not_freed hl h1 halloc hmid, fun ls k hrun r hr => ?_⟩
  obtain ⟨pre, t, t', post, -, hpre, ⟨hst, hundoes⟩, -⟩ := hrun.fired hr
  have hstart : Unreturned (s₀, []) := ⟨hl, by simp⟩
  have ht : Unreturned t :=
    hpre.invariant Unreturned (fun _ _ _ hk hst => (hk.step hst.1 hst.2).2) hstart
  exact absurd (ht.step hst hundoes).1 (by simp)

/-- A little memory with frame 0 reserved. -/
def reservedMemory : Mm := { smallMemory with mem := smallMemory.mem.setBit 0x100000 0 }

theorem reservedMemory_layout : Layout reservedMemory :=
  smallMemory_layout.write (Memory.agree_setBit (.inl (by decide)))

theorem reservedMemory_alloc : ∃ s₁, mmAllocPages reservedMemory 1 = .ok (0x1000, s₁) := by
  have hobs : (mmAllocPages reservedMemory 1).map Prod.fst = .ok 0x1000 := by decide
  cases h : mmAllocPages reservedMemory 1 with
  | error e => simp [h, Except.map] at hobs
  | ok r =>
    obtain ⟨p, s₁⟩ := r
    exact ⟨s₁, by simpa [h, Except.map] using hobs⟩

theorem mmFreePages_never_page :
    ∃ s₁, mmAllocPages reservedMemory 1 = .ok (0x1000, s₁) ∧
      (¬∃ s₃, mmFreePages s₁ 0x1000 1 = .ok s₃ ∧ Freed reservedMemory s₁ s₁ s₃ 1 1) ∧
      ∀ k, ¬Run (fun k l k' => MatchedStep k l k' ∧ Undoes k l k') (reservedMemory, [])
        [none, some ⟨reservedMemory, s₁, 0x1000, 1⟩] k := by
  obtain ⟨s₁, hs₁⟩ := reservedMemory_alloc
  obtain ⟨hpair, hruns⟩ := mmFreePages_never reservedMemory_layout
  refine ⟨s₁, hs₁, hpair s₁ s₁ 1 0x1000 (by decide) hs₁ .refl, fun k hrun => ?_⟩
  exact hruns _ k hrun ⟨reservedMemory, s₁, 0x1000, 1⟩ (by simp)

/-- The page below the block is all zero, and freeing the block stops the kernel. -/
theorem mmFreePages_panics :
    ∃ s₁, mmAllocPages reservedMemory 1 = .ok (0x1000, s₁) ∧
      mmFreePages s₁ 0x1000 1 = .error (.panic "Page at 0x%x attempted to free frame 0x%x\n") := by
  have hobs : (do
        let r ← mmAllocPages reservedMemory 1
        let s ← mmFreePages r.2 r.1 1
        return s.plp) =
      .error (.panic "Page at 0x%x attempted to free frame 0x%x\n") := by decide
  obtain ⟨s₁, hs₁⟩ := reservedMemory_alloc
  refine ⟨s₁, hs₁, ?_⟩
  rw [hs₁, ok_bind] at hobs
  cases hf : mmFreePages s₁ 0x1000 1 with
  | error e => simpa [hf] using hobs
  | ok s₂ => simp [hf] at hobs

end Levos.Memory
