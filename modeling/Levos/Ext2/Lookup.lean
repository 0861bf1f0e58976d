import Levos.Ext2.Directory
import Levos.Framework.Run
import Levos.Lib.Tokens

namespace Levos.Ext2

open Levos.Framework Levos.Lib

/-- The delimiters of `ext2_find_file_inode`: `"/"`. -/
def slash : List (BitVec 8) := [0x2F]

theorem slash_ne_nil : slash ≠ [] := by decide

theorem noNul_slash : 0 ∉ slash := by decide

/-- The loop of `ext2_find_file_inode`, with the component at `pch` still to be looked up. -/
def walk (v : Volume) : Nat → Int → Ptr → Strings → Except Fault (Int × Strings)
  | 0, _, _, _ => .error .diverges
  | fuel + 1, ino, pch, s => do
    let ino ← readDirectory v ino (s.heap.rest pch)
    if ino < 0 then return (-ENOENT, s)
    else
      let (pch, s) ← strtok none slash s
      match pch with
      | none => return (ino, s)
      | some pch => walk v fuel ino pch s

/-- `ext2_find_file_inode`. The copy of the path is never freed. -/
def findFileInode (v : Volume) (path : CString) (s : Strings) : Except Fault (Int × Strings) := do
  let (fn, heap) := s.heap.alloc (path.bytes ++ [0])
  let (pch, s) ← strtok (some fn) slash { s with heap := heap }
  match pch with
  | none => return (2, s)
  | some pch => walk v (s.ahead.length + 1) 2 pch s

/-- The lookup of components one after the other, from inode `ino` on. -/
def resolveFrom (v : Volume) : Int → List (List (BitVec 8)) → Except Fault Int
  | ino, [] => .ok ino
  | ino, f :: fs => do
    let ino ← readDirectory v ino f
    if ino < 0 then return -ENOENT else resolveFrom v ino fs

/-- What a path stands for: the components are looked up in order, from the root on. Each component
is handed over where it stands, with what follows it in the path. -/
def resolve (v : Volume) (path : CString) : Except Fault Int :=
  resolveFrom v 2 (inPlace slash path.bytes)

/-- What a lookup answers. -/
def answer (v : Volume) (path : CString) (s : Strings) : Except Fault Int := do
  let (ino, _) ← findFileInode v path s
  return ino

/-- The cursor was left in a path, before the text `u`. -/
def Pending (s : Strings) (u : List (BitVec 8)) : Prop :=
  ∃ p, s.sp = some p ∧ s.heap.rest p = u ++ [0] ∧ 0 ∉ u

/-- The lookup of components in two parts. -/
theorem resolveFrom_append (v : Volume) {ino : Int} (hino : 0 ≤ ino) (fs gs : List (List (BitVec 8))) :
    resolveFrom v ino (fs ++ gs) = (do
      let k ← resolveFrom v ino fs
      if k < 0 then .ok (-ENOENT) else resolveFrom v k gs) := by
  induction fs generalizing ino with
  | nil =>
    change _ = if ino < 0 then _ else _
    rw [if_neg (Int.not_lt.mpr hino)]
    rfl
  | cons f fs ih =>
    rw [List.cons_append, resolveFrom, resolveFrom]
    cases readDirectory v ino f with
    | error e => rfl
    | ok k =>
      simp only [ok_bind]
      by_cases hk : k < 0
      · rw [if_pos hk, if_pos hk]
        rfl
      · rw [if_neg hk, if_neg hk]
        exact ih (Int.not_lt.mp hk)

variable {v : Volume} {s s' : Strings} {u : List (BitVec 8)}

/-- A walk answers what the components resolve to, and resets the cursor unless one is missing. -/
theorem walk_spec (fuel : Nat) (ino : Int) (pch : Ptr) (hs : Pending s u) (hfuel : u.length < fuel) :
    (∃ e, walk v fuel ino pch s = .error e ∧
      resolveFrom v ino (s.heap.rest pch :: inPlace slash u) = .error e) ∨
    ∃ k s', walk v fuel ino pch s = .ok (k, s') ∧
      resolveFrom v ino (s.heap.rest pch :: inPlace slash u) = .ok k ∧
      (k < 0 → k = -ENOENT ∧ ∃ u', Pending s' u') ∧ (0 ≤ k → s'.sp = none) := by
  induction fuel generalizing ino pch s u with
  | zero => omega
  | succ fuel ih =>
    obtain ⟨p, hsp, hrest, h0⟩ := hs
    rw [walk, resolveFrom]
    cases hread : readDirectory v ino (s.heap.rest pch) with
    | error e => exact .inl ⟨e, rfl, rfl⟩
    | ok k =>
      simp only [ok_bind]
      by_cases hneg : k < 0
      · rw [if_pos hneg, if_pos hneg]
        exact .inr ⟨_, s, rfl, rfl, fun _ => ⟨rfl, u, p, hsp, hrest, h0⟩, fun h => by
          simp [ENOENT] at h⟩
      · rw [if_neg hneg, if_neg hneg]
        have hcur : (if s.sp = none then none else s.sp) = some p := by simp [hsp]
        rcases strtok_spec slash_ne_nil noNul_slash hcur hrest h0 with
          ⟨hnil, htok⟩ | ⟨q, s₁, p', u', htok, hsp', hrest', h0', hlen, hcons⟩
        · rw [htok, hnil]
          exact .inr ⟨k, _, rfl, rfl, fun h => absurd h hneg, fun _ => rfl⟩
        · rw [htok, hcons]
          exact ih k q ⟨p', hsp', hrest', h0'⟩ (by omega)

/-- A lookup goes on at the cursor, and looks at its path only when the cursor is reset. -/
theorem findFileInode_spec (path : CString)
    (hu : s.sp = none ∧ u = path.bytes ∨ Pending s u) :
    (∃ e, findFileInode v path s = .error e ∧ resolveFrom v 2 (inPlace slash u) = .error e) ∨
    ∃ k s', findFileInode v path s = .ok (k, s') ∧ resolveFrom v 2 (inPlace slash u) = .ok k ∧
      (k < 0 → k = -ENOENT ∧ ∃ u', Pending s' u') ∧ (0 ≤ k → s'.sp = none) := by
  let heap := (s.heap.alloc (path.bytes ++ [0])).2
  let fn := (s.heap.alloc (path.bytes ++ [0])).1
  have hcursor : ∃ p, (if s.sp = none then some fn else s.sp) = some p ∧
      heap.rest p = u ++ [0] ∧ 0 ∉ u := by
    rcases hu with ⟨hsp, rfl⟩ | ⟨p, hsp, hrest, h0⟩
    · exact ⟨fn, by rw [if_pos hsp], Heap.rest_alloc .., path.noNul⟩
    · obtain ⟨c, cs, hc⟩ := List.exists_cons_of_ne_nil (l := u ++ [0]) (by simp)
      rw [hc] at hrest
      refine ⟨p, by simp [hsp], ?_, h0⟩
      rw [hc]
      exact Heap.rest_alloc_old hrest _
  obtain ⟨p, hcur, hrest, h0⟩ := hcursor
  rw [findFileInode]
  rcases strtok_spec (s := { s with heap := heap }) slash_ne_nil noNul_slash hcur hrest h0 with
    ⟨hnil, htok⟩ | ⟨q, s₁, p', u', htok, hsp', hrest', h0', hlen, hcons⟩
  · rw [hnil]
    refine .inr ⟨2, { s with heap := heap, sp := none }, ?_, rfl, by omega, fun _ => rfl⟩
    change (strtok (some fn) slash { s with heap := heap } >>= _) = _
    rw [htok]
    rfl
  · rw [hcons]
    change (∃ e, (strtok (some fn) slash { s with heap := heap } >>= _) = _ ∧ _) ∨
      ∃ k s', (strtok (some fn) slash { s with heap := heap } >>= _) = _ ∧ _
    rw [htok]
    have hahead : s₁.ahead = u' ++ [0] := by simp [Strings.ahead, hsp', hrest']
    refine walk_spec _ 2 q ⟨p', hsp', hrest', h0'⟩ ?_
    rw [hahead, List.length_append]
    omega

/-- What a lookup that answers has found, and where it leaves the cursor. -/
theorem findFileInode_ok {path : CString} {k : Int} (hu : s.sp = none ∧ u = path.bytes ∨ Pending s u)
    (hfind : findFileInode v path s = .ok (k, s')) :
    resolveFrom v 2 (inPlace slash u) = .ok k ∧ (k < 0 → k = -ENOENT ∧ ∃ u', Pending s' u') ∧
      (0 ≤ k → s'.sp = none) := by
  rcases findFileInode_spec path hu with ⟨e, he, -⟩ | ⟨k', s₁, hk', hspec⟩
  · cases he.symm.trans hfind
  · cases hk'.symm.trans hfind
    exact hspec

/-- A lookup answers what there is to find. -/
theorem findFileInode_of_resolve {k : Int} (path : CString)
    (hu : s.sp = none ∧ u = path.bytes ∨ Pending s u)
    (hres : resolveFrom v 2 (inPlace slash u) = .ok k) :
    ∃ s', findFileInode v path s = .ok (k, s') ∧ (k < 0 → k = -ENOENT ∧ ∃ u', Pending s' u') ∧
      (0 ≤ k → s'.sp = none) := by
  rcases findFileInode_spec path hu with ⟨e, -, he⟩ | ⟨k', s', hfind, hk', hspec⟩
  · cases he.symm.trans hres
  · cases hk'.symm.trans hres
    exact ⟨s', hfind, hspec⟩

/-- One lookup of a history. -/
def Looked (v : Volume) (s : Strings) (path : CString) (s' : Strings) : Prop :=
  ∃ k, findFileInode v path s = .ok (k, s')

theorem answer_spec (path : CString) (hu : s.sp = none ∧ u = path.bytes ∨ Pending s u) :
    answer v path s = resolveFrom v 2 (inPlace slash u) := by
  rw [answer]
  rcases findFileInode_spec path hu with ⟨e, hfind, hres⟩ | ⟨k, s', hfind, hres, -⟩
  · rw [hfind, hres]
    rfl
  · rw [hfind, hres]
    rfl

theorem answer_clean (path : CString) (hs : s.sp = none) : answer v path s = resolve v path :=
  answer_spec path (.inl ⟨hs, rfl⟩)

/-- With the cursor in an earlier path, all paths get the same answer. -/
theorem answer_pending (path : CString) (hs : Pending s u) :
    answer v path s = resolveFrom v 2 (inPlace slash u) := answer_spec path (.inr hs)

/-- A lookup that finds its path leaves the cursor as it should be. -/
theorem Looked.clean {path : CString} (h : Looked v s path s') (hs : s.sp = none)
    (hfound : resolve v path ≠ .ok (-ENOENT)) : s'.sp = none := by
  obtain ⟨k, hk⟩ := h
  obtain ⟨hres, hneg, hpos⟩ := findFileInode_ok (.inl ⟨hs, rfl⟩) hk
  rcases Int.lt_or_le k 0 with hlt | hge
  · exact absurd ((hneg hlt).1 ▸ hres) hfound
  · exact hpos hge

/-- Wherever the cursor is, a lookup goes through some text. -/
theorem cursor_text (path : CString) (hs : s.sp = none ∨ ∃ u, Pending s u) :
    ∃ u, s.sp = none ∧ u = path.bytes ∨ Pending s u := by
  rcases hs with hs | ⟨u, hu⟩
  · exact ⟨_, .inl ⟨hs, rfl⟩⟩
  · exact ⟨u, .inr hu⟩

/-- A lookup with a negative answer leaves the cursor behind. -/
theorem Looked.pending {path : CString} {k : Int} (hs : s.sp = none ∨ ∃ u, Pending s u)
    (h : findFileInode v path s = .ok (k, s')) (hneg : k < 0) : ∃ u, Pending s' u := by
  obtain ⟨u, hu⟩ := cursor_text path hs
  exact ((findFileInode_ok hu h).2.1 hneg).2

theorem Looked.cursor {path : CString} (h : Looked v s path s')
    (hs : s.sp = none ∨ ∃ u, Pending s u) : s'.sp = none ∨ ∃ u, Pending s' u := by
  obtain ⟨k, hk⟩ := h
  obtain ⟨u, hu⟩ := cursor_text path hs
  obtain ⟨-, hneg, hpos⟩ := findFileInode_ok hu hk
  rcases Int.lt_or_le k 0 with hlt | hge
  · exact .inr (hneg hlt).2
  · exact .inl (hpos hge)

/-- `/`. -/
def rootPath : CString := ⟨slash, by decide⟩

/-- After every lookup of a history each path is answered with what it stands for exactly when no
lookup of the history was for a path with a missing component. -/
theorem lookups_exact_iff {s₀ s : Strings} {hs : List CString} (h₀ : s₀.sp = none)
    (hrun : Run (Looked v) s₀ hs s) :
    (∀ pre post s', hs = pre ++ post → Run (Looked v) s₀ pre s' →
      ∀ path, answer v path s' = resolve v path) ↔
    ∀ path ∈ hs, resolve v path ≠ .ok (-ENOENT) := by
  constructor
  · intro hall path hmem hmissing
    obtain ⟨pre, s₁, s₂, post, rfl, hpre, hst, -⟩ := hrun.fired hmem
    have hcursor : s₁.sp = none ∨ ∃ u, Pending s₁ u :=
      hpre.invariant (fun s => s.sp = none ∨ ∃ u, Pending s u) (fun _ _ _ hs h => h.cursor hs)
        (.inl h₀)
    obtain ⟨k, hk⟩ := hst
    have hanswer := hall pre (path :: post) s₁ rfl hpre path
    rw [answer, hk, hmissing] at hanswer
    cases hanswer
    obtain ⟨u, hu⟩ := Looked.pending hcursor hk (by decide)
    -- the same answer for this path and for the root
    have hafter (q : CString) : resolveFrom v 2 (inPlace slash u) = resolve v q := by
      rw [← answer_pending q hu]
      exact hall (pre ++ [path]) post s₂ (by simp) (hpre.snoc ⟨_, hk⟩) q
    have hroot := (hafter rootPath).symm.trans ((hafter path).trans hmissing)
    cases hroot
  · intro hfound pre post s' hsplit hpre path
    refine answer_clean path ?_
    have hclean := hpre.historyInvariant (fun es s => (∀ p ∈ es, p ∈ hs) → s.sp = none)
      (fun es s p s' ih hst hes => hst.clean (ih fun q hq => hes q (by simp [hq]))
        (hfound p (hes p (by simp)))) [] (fun _ => h₀)
    exact hclean fun p hp => by simp_all

/-- A volume with nothing on it. -/
def blank : Volume where
  disk := fun _ _ => 0
  firstBgd := 2
  blocksize := 1024
  sectorsPerBlock := 2
  inodesPerBlock := 8
  inodesInBlockgroup := 8

/-- `/x`. -/
def missingPath : CString := ⟨[0x2F, 0x78], by decide⟩

/-- The second lookup of a missing path answers the root directory. -/
theorem lookup_twice :
    resolve blank missingPath = .ok (-ENOENT) ∧
    ∃ s, Run (Looked blank) ⟨[], none⟩ [missingPath] s ∧ answer blank missingPath s = .ok 2 :=
  ⟨rfl, ⟨[missingPath.bytes ++ [0]], some ⟨0, 2⟩⟩, .single ⟨-ENOENT, rfl⟩, rfl⟩

/-- The bytes of a volume that are not zero: the root directory holds `x`, a file of two blocks. -/
def twoBlocks : List (Nat × BitVec 8) := [
  (2 * 1024 + 8, 3),                                          -- the inode table
  (3 * 1024 + 168, 4),                                        -- the block of the root directory
  (3 * 1024 + 257, 0x80), (3 * 1024 + 261, 8),                -- type and size of the file
  (3 * 1024 + 296, 5), (3 * 1024 + 300, 6),                   -- its blocks
  (4 * 1024, 3), (4 * 1024 + 4, 12), (4 * 1024 + 6, 1), (4 * 1024 + 8, 0x78)]

def twoBlockVolume : Volume :=
  { blank with disk := fun sector i => (twoBlocks.lookup (sector.toNat * 512 + i)).getD 0 }

/-- `/x/y`. -/
def insidePath : CString := ⟨[0x2F, 0x78, 0x2F, 0x79], by decide⟩

/-- `/x` and `/` are found, and their lookups keep the answers right. Behind `/x` and `/x/y`, which is
missing, they are not right any more. -/
theorem lookups_exact_nested :
    (∃ s, Run (Looked twoBlockVolume) ⟨[], none⟩ [missingPath, rootPath] s ∧
      ∀ path, answer twoBlockVolume path s = resolve twoBlockVolume path) ∧
    ∃ s, Run (Looked twoBlockVolume) ⟨[], none⟩ [missingPath, insidePath] s ∧
      ¬∀ pre post s', [missingPath, insidePath] = pre ++ post →
        Run (Looked twoBlockVolume) ⟨[], none⟩ pre s' →
        ∀ path, answer twoBlockVolume path s' = resolve twoBlockVolume path := by
  have hfile : resolve twoBlockVolume missingPath = .ok 3 := by decide +kernel
  have hroot : resolve twoBlockVolume rootPath = .ok 2 := rfl
  have hinside : resolve twoBlockVolume insidePath = .ok (-ENOENT) := by decide +kernel
  obtain ⟨s₁, hfirst, -, hclean⟩ := findFileInode_of_resolve (s := ⟨[], none⟩) missingPath
    (.inl ⟨rfl, rfl⟩) hfile
  have hreset := hclean (by decide)
  obtain ⟨s₂, hsecond, -⟩ := findFileInode_of_resolve rootPath (.inl ⟨hreset, rfl⟩) hroot
  obtain ⟨s₃, hthird, -⟩ := findFileInode_of_resolve insidePath (.inl ⟨hreset, rfl⟩) hinside
  have hfound : Run (Looked twoBlockVolume) ⟨[], none⟩ [missingPath, rootPath] s₂ :=
    .cons ⟨3, hfirst⟩ (.single ⟨2, hsecond⟩)
  have hmissed : Run (Looked twoBlockVolume) ⟨[], none⟩ [missingPath, insidePath] s₃ :=
    .cons ⟨3, hfirst⟩ (.single ⟨-ENOENT, hthird⟩)
  refine ⟨⟨s₂, hfound, ?_⟩, s₃, hmissed, ?_⟩
  · refine (lookups_exact_iff rfl hfound).mpr ?_ [missingPath, rootPath] [] s₂ rfl hfound
    intro path hmem
    rcases List.mem_pair.mp hmem with rfl | rfl
    · rw [hfile]
      decide
    · rw [hroot]
      decide
  · intro hall
    exact (lookups_exact_iff rfl hmissed).mp hall insidePath (by simp) hinside

end Levos.Ext2
