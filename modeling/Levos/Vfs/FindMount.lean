import Levos.Lib.Tokens
import Levos.Vfs.Mount
import Mathlib.Data.List.Infix

namespace Levos.Vfs

open Levos.Framework Levos.Lib

variable {φ δ : Type} {table : List (Mount φ δ)} {path : List (BitVec 8)} {m m' : Mount φ δ}
  {i j : Nat}

/-- The path components of a mount point begin the components of the path. -/
def Covers (point path : List (BitVec 8)) : Prop :=
  point.head? = some 0x2F ∧ tokens rootPoint point <+: tokens rootPoint path

def depth (point : List (BitVec 8)) : Nat := (tokens rootPoint point).length

/-- The most recent of the mounts that cover the path with the most components. -/
def Governs (table : List (Mount φ δ)) (path : List (BitVec 8)) (i : Nat) : Prop :=
  ∃ m, table[i]? = some m ∧ Covers m.point.bytes path ∧
    ∀ j m', table[j]? = some m' → Covers m'.point.bytes path →
      depth m'.point.bytes < depth m.point.bytes ∨ depth m'.point.bytes = depth m.point.bytes ∧ j ≤ i

/-- A mount point, other than `/`, that the path begins with character by character. -/
def Begins (point path : List (BitVec 8)) : Prop := point <+: path ∧ 2 ≤ point.length

/-- The first mount on the longest mount point that the path begins with. -/
def Longest (table : List (Mount φ δ)) (path : List (BitVec 8)) (i : Nat) : Prop :=
  ∃ m, table[i]? = some m ∧ Begins m.point.bytes path ∧
    ∀ j m', table[j]? = some m' → Begins m'.point.bytes path →
      m'.point.bytes.length < m.point.bytes.length ∨
      m'.point.bytes.length = m.point.bytes.length ∧ i ≤ j

/-- The last mount on `/`. -/
def Newest (table : List (Mount φ δ)) (i : Nat) : Prop :=
  (∃ m, table[i]? = some m ∧ m.point.bytes = rootPoint) ∧
    ∀ j m', table[j]? = some m' → m'.point.bytes = rootPoint → j ≤ i

section Search

theorem checkMounts_some {str : List (BitVec 8)} (h : checkMounts table str = some i) :
    (∃ m, table[i]? = some m ∧ m.point.bytes = str) ∧
      ∀ j m', table[j]? = some m' → m'.point.bytes = str → i ≤ j := by
  obtain ⟨hlt, hpoint, hfirst⟩ := List.findIdx?_eq_some_iff_getElem.mp h
  refine ⟨⟨table[i], List.getElem?_eq_getElem hlt, by simpa using hpoint⟩, fun j m' hj hm' => ?_⟩
  by_contra hji
  obtain ⟨hjlt, hget⟩ := List.getElem?_eq_some_iff.mp hj
  exact hfirst j (by omega) (by simpa [hget] using hm')

theorem checkMounts_none {str : List (BitVec 8)} (h : checkMounts table str = none)
    (hm : m ∈ table) : m.point.bytes ≠ str := by
  have := List.findIdx?_eq_none_iff.mp h m hm
  simpa using this

theorem begins_take {point : List (BitVec 8)} (h : Begins point path) :
    point = path.take point.length := List.prefix_iff_eq_take.mp h.1

/-- The search finds the longest mount point of at most `n` characters. -/
theorem searchMounts_spec (table : List (Mount φ δ)) (n : Nat) (hn : n ≤ path.length) :
    (∃ i m, searchMounts table path n = some i ∧ table[i]? = some m ∧ Begins m.point.bytes path ∧
      ∀ j m', table[j]? = some m' → Begins m'.point.bytes path → m'.point.bytes.length ≤ n →
        m'.point.bytes.length < m.point.bytes.length ∨
        m'.point.bytes.length = m.point.bytes.length ∧ i ≤ j) ∨
    searchMounts table path n = none ∧
      ∀ m ∈ table, Begins m.point.bytes path → n < m.point.bytes.length := by
  induction n with
  | zero => exact .inr ⟨rfl, fun m _ hm => by have := hm.2; omega⟩
  | succ n ih =>
    cases n with
    | zero => exact .inr ⟨rfl, fun m _ hm => by have := hm.2; omega⟩
    | succ n =>
      rw [searchMounts]
      cases hcheck : checkMounts table (path.take (n + 2)) with
      | some i =>
        obtain ⟨⟨m, hm, hpoint⟩, hfirst⟩ := checkMounts_some hcheck
        have hlen : m.point.bytes.length = n + 2 := by
          rw [hpoint, List.length_take]
          omega
        refine .inl ⟨i, m, rfl, hm, ⟨hpoint ▸ List.take_prefix .., by omega⟩, ?_⟩
        intro j m' hj hbegins hle
        rcases Nat.lt_or_eq_of_le hle with hlt | heq
        · exact .inl (by omega)
        · refine .inr ⟨by omega, hfirst j m' hj ?_⟩
          rw [begins_take hbegins, heq]
      | none =>
        have hshort {m' : Mount φ δ} (hmem : m' ∈ table) (hbegins : Begins m'.point.bytes path) :
            m'.point.bytes.length ≠ n + 2 := fun heq =>
          checkMounts_none hcheck hmem (by rw [begins_take hbegins, heq])
        rcases ih (by omega) with ⟨i, m, hsearch, hm, hbegins, hlong⟩ | ⟨hsearch, hnone⟩
        · refine .inl ⟨i, m, hsearch, hm, hbegins, fun j m' hj hb hle => ?_⟩
          have := hshort (List.mem_of_getElem? hj) hb
          exact hlong j m' hj hb (by omega)
        · refine .inr ⟨hsearch, fun m' hm' hb => ?_⟩
          have := hshort hm' hb
          have := hnone m' hm' hb
          omega

theorem length_le_of_begins {point : List (BitVec 8)} (h : Begins point path) :
    point.length ≤ path.length := h.1.length_le

/-- The whole search finds the first mount on the longest mount point, if there is one. -/
theorem searchMounts_longest (table : List (Mount φ δ)) (path : List (BitVec 8)) :
    (∃ i, searchMounts table path path.length = some i ∧ Longest table path i) ∨
    searchMounts table path path.length = none ∧ ∀ m ∈ table, ¬Begins m.point.bytes path := by
  rcases searchMounts_spec table path.length (Nat.le_refl _) with
    ⟨i, m, hsearch, hm, hbegins, hlong⟩ | ⟨hsearch, hnone⟩
  · exact .inl ⟨i, hsearch, m, hm, hbegins,
      fun j m' hj hb => hlong j m' hj hb (length_le_of_begins hb)⟩
  · refine .inr ⟨hsearch, fun m hm hb => ?_⟩
    have := hnone m hm hb
    have := length_le_of_begins hb
    omega

end Search

section Answer

theorem Longest.unique (hi : Longest table path i) (hj : Longest table path j) : i = j := by
  obtain ⟨m, hm, hb, hmax⟩ := hi
  obtain ⟨m', hm', hb', hmax'⟩ := hj
  have h1 := hmax j m' hm' hb'
  have h2 := hmax' i m hm hb
  omega

theorem Newest.unique (hi : Newest table i) (hj : Newest table j) : i = j := by
  obtain ⟨⟨m, hm, hp⟩, hmax⟩ := hi
  obtain ⟨⟨m', hm', hp'⟩, hmax'⟩ := hj
  exact Nat.le_antisymm (hmax' i m hm hp) (hmax j m' hm' hp')

theorem not_begins_root (hp : path = rootPoint) (point : List (BitVec 8)) : ¬Begins point path := by
  rintro ⟨hbegin, hlen⟩
  have := hbegin.length_le
  rw [hp] at this
  change point.length ≤ 1 at this
  omega

/-- A table as `vfs_mount` builds it: it begins with a mount on `/`, and `root_mount` is the last
such mount. -/
structure Rooted (s : MountTable φ δ) : Prop where
  first : s.mounts ≠ [] → ∃ i, s.rootMount = some i
  root : ∀ i, s.rootMount = some i → Newest s.mounts i

/-- What `find_mount` answers: the first mount on the longest mount point that the path begins with,
or the last mount on `/`. -/
theorem findMount_spec {s : MountTable φ δ} (hs : Rooted s) (path : CString) :
    (s.mounts = [] ∧ ∀ i, s.rootMount ≠ some i) ∨
    ∃ i, findMount s path = some i ∧ (Longest s.mounts path.bytes i ∨
      (∀ m ∈ s.mounts, ¬Begins m.point.bytes path.bytes) ∧ Newest s.mounts i) := by
  by_cases hnil : s.mounts = []
  · refine .inl ⟨hnil, fun i hi => ?_⟩
    obtain ⟨⟨m, hm, -⟩, -⟩ := hs.root i hi
    rw [hnil] at hm
    cases hm
  · obtain ⟨r, hr⟩ := hs.first hnil
    refine .inr ?_
    rw [findMount]
    by_cases hroot : path.bytes = rootPoint
    · rw [if_pos hroot]
      exact ⟨r, hr, .inr ⟨fun m _ => not_begins_root hroot _, hs.root r hr⟩⟩
    · rw [if_neg hroot]
      rcases searchMounts_longest s.mounts path.bytes with
        ⟨i, hsearch, hlong⟩ | ⟨hsearch, hnone⟩
      · rw [hsearch]
        exact ⟨i, rfl, .inl hlong⟩
      · rw [hsearch]
        exact ⟨r, hr, .inr ⟨hnone, hs.root r hr⟩⟩

/-- The mount points of a table, as far as a path is concerned, are told apart by their characters:
the longest one that the path begins with ends where a component ends, no mount covers the path with
more components, and none with as many was made later; and where the path begins with none, there is
no other spelling of a mount point that covers it. -/
structure Plain (table : List (Mount φ δ)) (path : List (BitVec 8)) : Prop where
  boundary : ∀ i m, Longest table path i → table[i]? = some m → Covers m.point.bytes path
  alone : ∀ i m j (m' : Mount φ δ), Longest table path i → table[i]? = some m → table[j]? = some m' →
    Covers m'.point.bytes path →
    depth m'.point.bytes < depth m.point.bytes ∨ depth m'.point.bytes = depth m.point.bytes ∧ j ≤ i
  spelling : (∀ m ∈ table, ¬Begins m.point.bytes path) → ∀ j (m' : Mount φ δ),
    table[j]? = some m' → Covers m'.point.bytes path →
    depth m'.point.bytes = 0 ∧ ∃ (k : Nat) (m'' : Mount φ δ), j ≤ k ∧ table[k]? = some m'' ∧
      m''.point.bytes = rootPoint

theorem tokens_rootPoint : tokens rootPoint rootPoint = [] := by decide

theorem covers_rootPoint (path : List (BitVec 8)) : Covers rootPoint path :=
  ⟨rfl, by rw [tokens_rootPoint]; exact List.nil_prefix⟩

theorem depth_rootPoint : depth rootPoint = 0 := by rw [depth, tokens_rootPoint]; rfl

/-- The mount that `find_mount` answers governs the path exactly when the table is plain for it. -/
theorem governs_iff {s : MountTable φ δ} (hs : Rooted s) {path : CString}
    (hi : findMount s path = some i) :
    Governs s.mounts path.bytes i ↔ Plain s.mounts path.bytes := by
  rcases findMount_spec hs path with ⟨hnil, hnone⟩ | ⟨i', hi', hcase⟩
  · exfalso
    rw [findMount, hnil] at hi
    have hsearch : searchMounts ([] : List (Mount φ δ)) path.bytes path.bytes.length = none := by
      rcases searchMounts_longest ([] : List (Mount φ δ)) path.bytes with
        ⟨i, -, m, hm, -⟩ | ⟨hsearch, -⟩
      · cases hm
      · exact hsearch
    split at hi
    · exact hnone i hi
    · rw [hsearch] at hi
      exact hnone i hi
  · cases hi.symm.trans hi'
    rcases hcase with hlong | ⟨hbegins, hnew⟩
    · constructor
      · rintro ⟨m, hm, hcovers, hmax⟩
        refine ⟨fun i' m' hlong' hm' => ?_, fun i' m' j m'' hlong' hm' hm'' hc => ?_, fun hnone => ?_⟩
        · cases hlong.unique hlong'
          cases hm.symm.trans hm'
          exact hcovers
        · cases hlong.unique hlong'
          cases hm.symm.trans hm'
          exact hmax j m'' hm'' hc
        · obtain ⟨m', hm', hb, -⟩ := hlong
          exact absurd hb (hnone m' (List.mem_of_getElem? hm'))
      · intro hplain
        obtain ⟨m, hm, -⟩ := id hlong
        exact ⟨m, hm, hplain.boundary i m hlong hm,
          fun j m' hj hc => hplain.alone i m j m' hlong hm hj hc⟩
    · have hnot (k : Nat) : ¬Longest s.mounts path.bytes k := by
        rintro ⟨m, hm, hb, -⟩
        exact hbegins m (List.mem_of_getElem? hm) hb
      obtain ⟨⟨r, hr, hpoint⟩, hlast⟩ := hnew
      constructor
      · rintro ⟨m, hm, -, hmax⟩
        cases hr.symm.trans hm
        refine ⟨fun k _ hk => absurd hk (hnot k), fun k _ _ _ hk => absurd hk (hnot k),
          fun _ j m' hj hc => ?_⟩
        have := hmax j m' hj hc
        rw [hpoint, depth_rootPoint] at this
        exact ⟨by omega, i, r, by omega, hr, hpoint⟩
      · intro hplain
        refine ⟨r, hr, hpoint ▸ covers_rootPoint _, fun j m' hj hc => ?_⟩
        obtain ⟨hzero, k, m'', hjk, hk, hkpoint⟩ := hplain.spelling hbegins j m' hj hc
        have := hlast k m'' hk hkpoint
        rw [hpoint, depth_rootPoint]
        omega

end Answer

section Calls

/-- One call of `vfs_mount`, with what `kmalloc` has for it. -/
structure MountCall (δ : Type) where
  path : CString
  dev : δ
  room : Bool

variable {fss : List (Option (δ → Except Int φ))}

/-- A sequence of `vfs_mount` calls. -/
def mountAll (calls : List (MountCall δ)) (s : MountTable φ δ) : Except Fault (MountTable φ δ) :=
  calls.foldlM (fun s c => do
    let (_, s) ← vfsMount c.path c.dev c.room s
    return s) s

/-- The mounts that a sequence of calls asks for: those on `/`, or behind one on `/`, of a device that
a file system takes. -/
def accepted (fss : List (Option (δ → Except Int φ))) : List (Mount φ δ) → List (MountCall δ) →
    List (Mount φ δ)
  | table, [] => table
  | table, c :: cs =>
    match mountFs fss c.dev with
    | some fs =>
      if c.room ∧ (table ≠ [] ∨ c.path.bytes = rootPoint) then
        accepted fss (table ++ [⟨c.path, fs, c.dev⟩]) cs
      else accepted fss table cs
    | none => accepted fss table cs

/-- The VFS layer before the first mount. -/
def booted (fss : List (Option (δ → Except Int φ))) : MountTable φ δ := ⟨[], none, fss⟩

theorem booted_rooted (fss : List (Option (δ → Except Int φ))) : Rooted (booted fss) :=
  ⟨fun h => absurd rfl h, fun _ h => by cases h⟩

theorem newest_append_root (table : List (Mount φ δ)) (m : Mount φ δ) (h : m.point.bytes = rootPoint) :
    Newest (table ++ [m]) table.length := by
  refine ⟨⟨m, by simp, h⟩, fun j m' hj _ => ?_⟩
  have := (List.getElem?_eq_some_iff.mp hj).1
  rw [List.length_append, List.length_singleton] at this
  omega

theorem Newest.append (hi : Newest table i) (h : m.point.bytes ≠ rootPoint) :
    Newest (table ++ [m]) i := by
  obtain ⟨⟨r, hr, hpoint⟩, hlast⟩ := hi
  refine ⟨⟨r, by rw [List.getElem?_append_left (List.getElem?_eq_some_iff.mp hr).1]; exact hr,
    hpoint⟩, fun j m' hj hm' => ?_⟩
  rcases Nat.lt_or_ge j table.length with hlt | hge
  · rw [List.getElem?_append_left hlt] at hj
    exact hlast j m' hj hm'
  · rw [List.getElem?_append_right hge, List.getElem?_singleton] at hj
    split at hj
    · cases hj
      exact absurd hm' h
    · cases hj

theorem Rooted.none_iff {s : MountTable φ δ} (hs : Rooted s) :
    s.rootMount = none ↔ s.mounts = [] := by
  constructor
  · intro hnone
    by_contra hne
    obtain ⟨i, hi⟩ := hs.first hne
    cases hnone.symm.trans hi
  · intro hnil
    cases hroot : s.rootMount with
    | none => rfl
    | some i =>
      obtain ⟨⟨m, hm, -⟩, -⟩ := hs.root i hroot
      rw [hnil] at hm
      cases hm

/-- A call that is accepted adds one mount, as long as the table has room; another changes nothing. -/
theorem vfsMount_spec {s : MountTable φ δ} (hs : Rooted s) (c : MountCall δ) :
    (accepted s.filesystems s.mounts [c] = s.mounts ∧
      ∃ r, vfsMount c.path c.dev c.room s = .ok (r, s) ∧ r < 0) ∨
    ∃ fs, accepted s.filesystems s.mounts [c] = s.mounts ++ [⟨c.path, fs, c.dev⟩] ∧
      ((s.mounts.length < MAX_MOUNTS ∧ ∃ s', vfsMount c.path c.dev c.room s = .ok (0, s') ∧
        Rooted s' ∧ s'.mounts = s.mounts ++ [⟨c.path, fs, c.dev⟩] ∧
        s'.filesystems = s.filesystems) ∨
      (MAX_MOUNTS ≤ s.mounts.length ∧ vfsMount c.path c.dev c.room s = .error .outOfBounds)) := by
  rw [accepted, vfsMount]
  by_cases hroot : s.rootMount = none ∧ c.path.bytes ≠ rootPoint
  · refine .inl ⟨?_, _, if_pos hroot, by decide⟩
    have hno : ¬(c.room = true ∧ (s.mounts ≠ [] ∨ c.path.bytes = rootPoint)) := by
      rintro ⟨-, hne | heq⟩
      · exact hne (hs.none_iff.mp hroot.1)
      · exact hroot.2 heq
    cases mountFs s.filesystems c.dev with
    | none => rfl
    | some fs =>
      simp only [if_neg hno]
      rfl
  · rw [if_neg hroot]
    have hok : s.mounts ≠ [] ∨ c.path.bytes = rootPoint := by
      by_contra hbad
      rw [not_or, not_not] at hbad
      exact hroot ⟨hs.none_iff.mpr hbad.1, hbad.2⟩
    cases mountFs s.filesystems c.dev with
    | none => exact .inl ⟨rfl, _, rfl, by decide⟩
    | some fs =>
      cases hroom : c.room with
      | false => exact .inl ⟨by simp [accepted], _, by simp only [setMount]; rfl, by decide⟩
      | true =>
        refine .inr ⟨fs, by simp only [if_pos hok, true_and]; rfl, ?_⟩
        rcases Nat.lt_or_ge s.mounts.length MAX_MOUNTS with hlt | hge
        · refine .inl ⟨hlt, ⟨s.mounts ++ [⟨c.path, fs, c.dev⟩],
            if c.path.bytes = rootPoint then some s.mounts.length else s.rootMount,
            s.filesystems⟩, by simp [setMount, hlt], ⟨?_, ?_⟩, rfl, rfl⟩
          · intro _
            by_cases hpoint : c.path.bytes = rootPoint
            · exact ⟨_, if_pos hpoint⟩
            · rcases hok with hne | heq
              · obtain ⟨i, hi⟩ := hs.first hne
                exact ⟨i, by simp only [if_neg hpoint]; exact hi⟩
              · exact absurd heq hpoint
          · intro i hi
            by_cases hpoint : c.path.bytes = rootPoint
            · simp only [if_pos hpoint] at hi
              cases hi
              exact newest_append_root _ _ hpoint
            · simp only [if_neg hpoint] at hi
              exact (hs.root i hi).append hpoint
        · refine .inr ⟨hge, ?_⟩
          simp only [setMount, if_neg (Nat.not_lt.mpr hge)]
          rfl

theorem accepted_cons (fss : List (Option (δ → Except Int φ))) (table : List (Mount φ δ))
    (c : MountCall δ) (cs : List (MountCall δ)) :
    accepted fss table (c :: cs) = accepted fss (accepted fss table [c]) cs := by
  rw [accepted, accepted]
  cases mountFs fss c.dev with
  | none => rfl
  | some fs =>
    dsimp only
    split <;> rfl

theorem accepted_length_le (fss : List (Option (δ → Except Int φ))) (cs : List (MountCall δ))
    (table : List (Mount φ δ)) : table.length ≤ (accepted fss table cs).length := by
  induction cs generalizing table with
  | nil => exact Nat.le_refl _
  | cons c cs ih =>
    rw [accepted]
    cases mountFs fss c.dev with
    | none => exact ih table
    | some fs =>
      dsimp only
      split
      · exact Nat.le_trans (by simp) (ih _)
      · exact ih table

/-- A sequence of calls makes the accepted mounts, or writes behind the table when they are too
many. -/
theorem mountAll_spec {s : MountTable φ δ} (hs : Rooted s) (hlen : s.mounts.length ≤ MAX_MOUNTS)
    (calls : List (MountCall δ)) :
    ((accepted s.filesystems s.mounts calls).length ≤ MAX_MOUNTS ∧
      ∃ s', mountAll calls s = .ok s' ∧ Rooted s' ∧
        s'.mounts = accepted s.filesystems s.mounts calls) ∨
    MAX_MOUNTS < (accepted s.filesystems s.mounts calls).length ∧
      mountAll calls s = .error .outOfBounds := by
  induction calls generalizing s with
  | nil => exact .inl ⟨hlen, s, rfl, hs, rfl⟩
  | cons c cs ih =>
    rw [accepted_cons, mountAll, List.foldlM_cons]
    rcases vfsMount_spec hs c with ⟨hacc, r, hcall, -⟩ | ⟨fs, hacc, hcase⟩
    · rw [hacc, hcall]
      exact ih hs hlen
    · rw [hacc]
      rcases hcase with ⟨hlt, s', hcall, hs', hmounts, hfss⟩ | ⟨hge, hcall⟩
      · rw [hcall]
        have hnext := ih hs' (by rw [hmounts, List.length_append, List.length_singleton]; omega)
        rw [hmounts, hfss] at hnext
        exact hnext
      · rw [hcall]
        refine .inr ⟨?_, rfl⟩
        have := accepted_length_le s.filesystems cs (s.mounts ++ [⟨c.path, fs, c.dev⟩])
        rw [List.length_append, List.length_singleton] at this
        omega

end Calls

/-- After a sequence of `vfs_mount` calls, all of them within the table, `find_mount` answers the
mount that governs the path, and none when nothing is mounted. -/
def FindsMount (fss : List (Option (δ → Except Int φ))) (calls : List (MountCall δ))
    (path : CString) : Prop :=
  ∃ s, mountAll calls (booted fss) = .ok s ∧ s.mounts.length ≤ MAX_MOUNTS ∧
    match findMount s path with
    | some i => Governs s.mounts path.bytes i
    | none => s.mounts = []

/-- `find_mount` is right after a sequence of mounts exactly when they fit the table and the table is
plain for the path. -/
theorem findMount_right_iff (fss : List (Option (δ → Except Int φ))) (calls : List (MountCall δ))
    (path : CString) :
    FindsMount fss calls path ↔
      (accepted fss [] calls).length ≤ MAX_MOUNTS ∧ Plain (accepted fss [] calls) path.bytes := by
  have hempty : Plain ([] : List (Mount φ δ)) path.bytes := by
    refine ⟨fun i m _ hm => ?_, fun i m j m' _ hm => ?_, fun _ j m' hj => ?_⟩
    · cases hm
    · cases hm
    · cases hj
  rcases mountAll_spec (booted_rooted fss) (Nat.zero_le _) calls with
    ⟨hle, s, hrun, hs, hmounts⟩ | ⟨hlt, hrun⟩
  · change _ ≤ _ at hle
    change s.mounts = accepted fss [] calls at hmounts
    have hiff : (match findMount s path with
        | some i => Governs s.mounts path.bytes i
        | none => s.mounts = []) ↔ Plain s.mounts path.bytes := by
      cases hfind : findMount s path with
      | some i => exact governs_iff hs hfind
      | none =>
        rcases findMount_spec hs path with ⟨hnil, -⟩ | ⟨i, hi, -⟩
        · rw [hnil]
          exact iff_of_true rfl hempty
        · cases hfind.symm.trans hi
    constructor
    · rintro ⟨s', hrun', -, hfinds⟩
      cases hrun.symm.trans hrun'
      exact ⟨hle, hmounts ▸ hiff.mp hfinds⟩
    · rintro ⟨-, hplain⟩
      exact ⟨s, hrun, by rw [hmounts]; exact hle, hiff.mpr (hmounts ▸ hplain)⟩
  · constructor
    · rintro ⟨s', hrun', -⟩
      cases hrun.symm.trans hrun'
    · rintro ⟨hle, -⟩
      exact absurd hle (Nat.not_le.mpr hlt)

/-- A mount governs its own mount point until another one is made there. -/
theorem governs_new (table : List (Mount φ δ)) (m : Mount φ δ)
    (habs : m.point.bytes.head? = some 0x2F) :
    Governs (table ++ [m]) m.point.bytes table.length := by
  refine ⟨m, by simp, ⟨habs, List.prefix_rfl⟩, fun j m' hj hcovers => ?_⟩
  have hlt := (List.getElem?_eq_some_iff.mp hj).1
  have hle : depth m'.point.bytes ≤ depth m.point.bytes := hcovers.2.length_le
  rw [List.length_append, List.length_singleton] at hlt
  omega

/-- `/`, `/foo` and `/foobar`. -/
def rootString : CString := ⟨rootPoint, by decide⟩

def fooString : CString := ⟨[0x2F, 0x66, 0x6F, 0x6F], by decide⟩

def foobarString : CString := ⟨[0x2F, 0x66, 0x6F, 0x6F, 0x62, 0x61, 0x72], by decide⟩

/-- With mounts on `/` and on `/foo`, the path `/foobar` is looked for in the second one. -/
theorem findMount_lookalike :
    ¬FindsMount [some fun _ : Unit => .ok ()] [⟨rootString, (), true⟩, ⟨fooString, (), true⟩]
      foobarString := by
  rintro ⟨s, hrun, -, hfinds⟩
  have hs : s = ⟨[⟨rootString, (), ()⟩, ⟨fooString, (), ()⟩], some 0,
      [some fun _ : Unit => .ok ()]⟩ := (Except.ok.inj hrun).symm
  subst hs
  obtain ⟨m, hm, hcovers, -⟩ : Governs _ _ 1 := hfinds
  cases hm
  exact absurd hcovers.2 (by decide)

end Levos.Vfs
