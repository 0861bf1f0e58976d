import Levos.Ext2.Entries
import Levos.Ext2.ReadFile
import Levos.Framework.FileGraph

namespace Levos.Ext2

open Levos.Framework Levos.Lib

/-- The record with its whole name is inside its block, and its name has no zeros. -/
structure Record.Plain (r : Record) : Prop where
  inside : r.off + 8 + r.namelength.toNat ≤ r.block.size
  noNul : 0 ∉ r.name

/-- A file system as it should be on a volume, by inode numbers. -/
abbrev Contents := FileGraph (BitVec 32) (List (BitVec 8)) (BitVec 8)

/-- What a volume has to hold for an inode number. -/
def Volume.Holds (v : Volume) (i : BitVec 32) : FileNode (BitVec 32) (List (BitVec 8)) (BitVec 8) → Prop
  | .file bytes => ∃ inode, readInode v i.toInt = .ok inode ∧ inode.type &&& 0xF000 = 0x8000 ∧
      inode.size.toNat = bytes.length ∧ bytes.length ≤ 12 * v.blocksize ∧
      fileBytes v inode 0 bytes.length = bytes
  | .dir entries => ∃ inode, readInode v i.toInt = .ok inode ∧ isDirectory inode ∧
      (∀ r ∈ v.candidates inode, r.Plain) ∧
      ((v.candidates inode).map fun r => (r.name, r.inode)) = entries ∧ ∀ e ∈ entries, 0 ≤ e.2.toInt

/-- The volume holds the whole of `G`. -/
def Volume.Stores (v : Volume) (G : Contents) : Prop := ∀ i node, G i = some node → v.Holds i node

/-- How `ext2_read_directory` compares names: it takes an entry whose name the component begins with. -/
def beginsWith (name component : List (BitVec 8)) : Bool := name.isPrefixOf component

section Compare

variable {α β : Nat → BitVec 8} {str1 str2 : Nat → Except Fault (BitVec 8)} {i n j : Nat}

/-- A comparison ends at the first difference, and reads nothing behind it. -/
theorem strncmpFrom_differs (h1 : ∀ k ≤ j, str1 k = .ok (α k)) (h2 : ∀ k ≤ j, str2 k = .ok (β k))
    (hj : i ≤ j) (hjn : j < i + n) (hne : α j ≠ β j) :
    ∃ d, strncmpFrom str1 str2 i n = .ok d ∧ d ≠ 0 := by
  induction n generalizing i with
  | zero => omega
  | succ n ih =>
    rw [strncmpFrom, h1 i hj, ok_bind, h2 i hj, ok_bind]
    by_cases heq : α i = β i
    · have hlater : i ≠ j := by
        rintro rfl
        exact hne heq
      rw [if_neg (not_not.mpr heq)]
      exact ih (by omega) (by omega)
    · rw [if_pos heq]
      refine ⟨_, rfl, fun hzero => heq (BitVec.eq_of_toNat_eq (by omega))⟩

end Compare

section Lookup

variable {v : Volume} {r : Record} {name t : List (BitVec 8)} {k : Nat}

theorem name_length (r : Record) : r.name.length = r.namelength.toNat := Buffer.length_bytes ..

theorem name_getElem? {k : Nat} (hk : k < r.namelength.toNat) : r.name[k]? = some (r.nameByte k) := by
  rw [Record.name, Buffer.getElem?_bytes, if_pos hk]
  rfl

theorem getD_component (hk : k ≤ name.length) :
    nameByte (name ++ 0 :: t) k = .ok (name.getD k 0) := by
  rw [nameByte_ok (by simp; omega)]
  rw [List.getD_eq_getElem?_getD, List.getD_eq_getElem?_getD]
  rcases Nat.lt_or_eq_of_le hk with hlt | rfl
  · rw [List.getElem?_append_left hlt]
  · simp

/-- A name that the component does not begin with differs from it, at its zero if not before. -/
theorem differs_of_not_prefix (h0 : 0 ∉ r.name) (h : ¬r.name <+: name) :
    ∃ j < r.namelength.toNat, j ≤ name.length ∧ r.nameByte j ≠ name.getD j 0 := by
  rw [List.prefix_iff_getElem?] at h
  simp only [not_forall] at h
  obtain ⟨i, hi, hne⟩ := h
  have hin : i < r.namelength.toNat := by rwa [name_length] at hi
  rw [← List.getElem?_eq_getElem hi, name_getElem? hin] at hne
  by_cases hlt : i < name.length
  · refine ⟨i, hin, Nat.le_of_lt hlt, fun heq => hne ?_⟩
    rw [heq, List.getD_eq_getElem?_getD, List.getElem?_eq_getElem hlt]
    rfl
  · have hend : name.length < r.namelength.toNat := by omega
    refine ⟨name.length, hend, Nat.le_refl _, fun heq => h0 ?_⟩
    have hzero : name.getD name.length 0 = 0 := by simp
    rw [hzero] at heq
    exact List.mem_of_getElem? ((name_getElem? hend).trans (congrArg some heq))

/-- A record whose name has no zeros is compared without a look behind the component's zero. -/
theorem probe_plain (h : r.Plain) (t : List (BitVec 8)) : r.probe (name ++ 0 :: t) =
    .ok (if beginsWith r.name name then some r.inode.toInt else none) := by
  have hroom := h.inside
  have hlength : r.block.load8 (r.off + 6) = .ok r.namelength := if_pos (by omega)
  have hinode : r.block.load32 r.off = .ok r.inode := if_pos (by omega)
  have hsize : r.block.load16 (r.off + 4) = .ok r.size := if_pos (by omega)
  have hfirst (k : Nat) (hk : k < r.namelength.toNat) :
      r.block.load8 (r.off + 8 + k) = .ok (r.nameByte k) := if_pos (by omega)
  have hsecond (k : Nat) (hk : k ≤ name.length) :
      nameByte (name ++ 0 :: t) k = .ok (name.getD k 0) := getD_component hk
  rw [Record.probe, hlength, ok_bind, strncmp, beginsWith]
  by_cases hprefix : r.name <+: name
  · have hle : r.namelength.toNat ≤ name.length := by
      rw [← name_length]
      exact hprefix.length_le
    obtain ⟨d, hd, hiff⟩ :=
      strncmpFrom_ok (p := (· < r.namelength.toNat)) (n := r.namelength.toNat) (i := 0) hfirst
      (fun k hk => hsecond k (by omega)) fun j _ hj _ => by omega
    have hsame : d = 0 := by
      rw [hiff]
      intro j _ hj
      have hat := List.prefix_iff_getElem?.mp hprefix j (by rw [name_length]; omega)
      rw [← List.getElem?_eq_getElem, name_getElem? (by omega)] at hat
      rw [List.getD_eq_getElem?_getD, hat]
      rfl
    rw [hd, ok_bind, if_pos hsame, hinode, if_pos (List.isPrefixOf_iff_prefix.mpr hprefix)]
    rfl
  · obtain ⟨j, hj, hle, hne⟩ := differs_of_not_prefix h.noNul hprefix
    obtain ⟨d, hd, hd0⟩ := strncmpFrom_differs (n := r.namelength.toNat) (i := 0)
      (fun k hk => hfirst k (by omega)) (fun k hk => hsecond k (by omega)) (Nat.zero_le j)
      (by omega) hne
    have hnot : ¬r.name.isPrefixOf name = true := fun hp => hprefix (List.isPrefixOf_iff_prefix.mp hp)
    rw [hd, ok_bind, if_neg hd0, hsize, if_neg hnot]
    rfl

/-- Where all records are plain, a lookup answers as the list of the entries does. -/
theorem readDirectory_plain {dev : Device} {inode : Inode} {dino : Int}
    {es : List (List (BitVec 8) × BitVec 32)} (hmount : mount dev = .ok (.ok v))
    (hinode : readInode v dino = .ok inode) (hplain : ∀ r ∈ v.candidates inode, r.Plain)
    (hes : ((v.candidates inode).map fun r => (r.name, r.inode)) = es) (t : List (BitVec 8)) :
    readDirectory v dino (name ++ 0 :: t) =
      .ok (((es.find? fun e => beginsWith e.1 name).map fun e => e.2.toInt).getD (-ENOENT)) := by
  have hscan (rs : List Record) (hrs : ∀ r ∈ rs, r.Plain) :
      rs.findSomeM? (Record.probe (name ++ 0 :: t)) =
        .ok (((rs.map fun r => (r.name, r.inode)).find? fun e => beginsWith e.1 name).map
          fun e => e.2.toInt) := by
    induction rs with
    | nil => rfl
    | cons r rs ih =>
      obtain ⟨hr, hrest⟩ := List.forall_mem_cons.mp hrs
      have hprobe := @probe_plain _ name hr t
      rw [List.map_cons, List.find?_cons]
      cases hb : beginsWith r.name name with
      | true =>
        rw [hb, if_pos rfl] at hprobe
        rw [findSomeM?_stopped (by rw [hprobe]; simp), hprobe]
        rfl
      | false =>
        rw [hb, if_neg (by simp)] at hprobe
        rw [findSomeM?_passed hprobe]
        exact ih hrest
  rw [readDirectory_eq hmount hinode, hscan _ hplain, hes]
  rfl

theorem cstr_append {u : List (BitVec 8)} (hu : 0 ∉ u) (t : List (BitVec 8)) : cstr (u ++ 0 :: t) = u := by
  induction u with
  | nil => rfl
  | cons c u ih =>
    obtain ⟨hc, hu⟩ := noNul_cons.mp hu
    rw [List.cons_append, cstr_cons hc, ih hu]

/-- A component stands in the path with its zero. -/
theorem inPlace_component {text : List (BitVec 8)} {c : List (BitVec 8)} (hc : c ∈ inPlace slash text) :
    ∃ t, c = cstr c ++ 0 :: t := by
  have hcut (u : List (BitVec 8)) : 0 ∈ cut slash u := by
    induction u with
    | nil => simp [cut]
    | cons d u ih =>
      rw [cut]
      split
      · exact List.mem_cons_self
      · exact List.mem_cons_of_mem _ ih
  have hmem (b : Bool) (u : List (BitVec 8)) (h : c ∈ inPlaceFrom slash b u) : 0 ∈ c := by
    induction u generalizing b with
    | nil => cases h
    | cons d u ih =>
      rw [inPlaceFrom] at h
      split_ifs at h
      · exact ih _ h
      · exact ih _ h
      · rcases List.mem_cons.mp h with rfl | h
        · exact hcut _
        · exact ih _ h
  obtain ⟨u, t, heq, hu⟩ := List.eq_append_cons_of_mem (hmem _ _ hc)
  refine ⟨t, ?_⟩
  have htext : cstr c = u := by
    rw [heq]
    exact cstr_append hu t
  rw [htext, heq]

/-- The components lead through the volume as they lead through what it holds. -/
theorem resolveFrom_walk {dev : Device} {G : Contents} (hmount : mount dev = .ok (.ok v))
    (hG : v.Stores G) (fs : List (List (BitVec 8))) (hfs : ∀ f ∈ fs, ∃ t, f = cstr f ++ 0 :: t)
    (i : BitVec 32) (hi : 0 ≤ i.toInt) :
    (∀ j, G.walk beginsWith i (fs.map cstr) = .ok j → 0 ≤ j.toInt ∧ resolveFrom v i.toInt fs = .ok j.toInt) ∧
      (G.walk beginsWith i (fs.map cstr) = .error .entry → resolveFrom v i.toInt fs = .ok (-ENOENT)) := by
  induction fs generalizing i with
  | nil =>
    refine ⟨fun j hj => ?_, fun h => by cases h⟩
    cases hj
    exact ⟨hi, rfl⟩
  | cons f fs ih =>
    obtain ⟨⟨t, hf⟩, hrest⟩ := List.forall_mem_cons.mp hfs
    by_cases hdir : ∃ es, G i = some (.dir es)
    · obtain ⟨es, hnode⟩ := hdir
      obtain ⟨inode, hread, -, hplain, hes, hsigns⟩ := hG i _ hnode
      have hanswer := @readDirectory_plain _ (cstr f) _ _ _ _ hmount hread hplain hes t
      rw [← hf] at hanswer
      rw [List.map_cons, FileGraph.walk_dir hnode, resolveFrom, hanswer, ok_bind]
      cases hfind : es.find? fun e => beginsWith e.1 (cstr f) with
      | none =>
        refine ⟨fun j hj => ?_, fun _ => if_pos (by decide)⟩
        cases hj
      | some e =>
        have hsign := hsigns e (List.mem_of_find?_eq_some hfind)
        have hgo := ih hrest e.2 hsign
        simp only [Option.map_some, Option.getD_some]
        rw [if_neg (Int.not_lt.mpr hsign)]
        exact hgo
    · rw [List.map_cons, FileGraph.walk_stuck hdir]
      refine ⟨fun j hj => ?_, fun h => ?_⟩
      · cases hj
      · cases h

end Lookup

/-- The component begins with no name that stands in front of its own. -/
def Distinct (es : List (List (BitVec 8) × BitVec 32)) (component : List (BitVec 8)) : Prop :=
  ∀ e ∈ es.takeWhile fun e => !(e.1 == component), beginsWith e.1 component = false

theorem Distinct.find {es : List (List (BitVec 8) × BitVec 32)} {component : List (BitVec 8)}
    (h : Distinct es component) :
    (es.find? fun e => e.1 == component) = es.find? fun e => beginsWith e.1 component := by
  refine FileGraph.find_congr (· == ·) beginsWith (fun e _ he => ?_) h
  rw [beginsWith, beq_iff_eq.mp he]
  exact List.isPrefixOf_iff_prefix.mpr (List.prefix_refl component)

theorem walk_exact {G : Contents} {i : BitVec 32} {ns : List (List (BitVec 8))}
    (h : G.Along (· == ·) Distinct i ns) : G.walk (· == ·) i ns = G.walk beginsWith i ns :=
  FileGraph.walk_congr (h.imp fun _ _ => Distinct.find)

section Paths

variable {dev : Device} {v : Volume} {G : Contents}

/-- A path leads through a volume as it leads through what the volume holds. -/
theorem resolve_stored (hmount : mount dev = .ok (.ok v)) (hG : v.Stores G) (path : CString) :
    (∀ i, G.walk beginsWith 2 (tokens slash path.bytes) = .ok i →
      0 ≤ i.toInt ∧ resolve v path = .ok i.toInt) ∧
      (G.walk beginsWith 2 (tokens slash path.bytes) = .error .entry → resolve v path = .ok (-ENOENT)) := by
  have hcomponents : (inPlace slash path.bytes).map cstr = tokens slash path.bytes :=
    inPlace_tokens path.noNul
  have hwalk := resolveFrom_walk hmount hG (inPlace slash path.bytes) (fun f hf => inPlace_component hf)
    2 (by decide)
  rw [hcomponents] at hwalk
  exact hwalk

/-- After lookups that all found something, the cursor is reset. -/
theorem clean_stored {s₀ s : Strings} {hs : List CString} (hmount : mount dev = .ok (.ok v))
    (hG : v.Stores G) (h₀ : s₀.sp = none) (hrun : Run (Looked v) s₀ hs s)
    (hfound : ∀ p ∈ hs, ∃ i, G.walk beginsWith 2 (tokens slash p.bytes) = .ok i) : s.sp = none := by
  have hclean := hrun.historyInvariant (fun es s => (∀ p ∈ es, p ∈ hs) → s.sp = none) (by
    intro es s p s' ih hst hes
    obtain ⟨i, hi⟩ := hfound p (hes p (by simp))
    obtain ⟨hsign, hres⟩ := (resolve_stored hmount hG p).1 i hi
    refine hst.clean (ih fun q hq => hes q (by simp [hq])) fun hmissing => ?_
    rw [hres] at hmissing
    have hneg : i.toInt = -ENOENT := Except.ok.inj hmissing
    have hnoent : -ENOENT < 0 := by decide
    omega) [] fun _ => h₀
  exact hclean fun p hp => by simpa using hp

end Paths

/-- Lookups answer as the walk through what the volume holds does, where a component is taken for the
first entry whose name it begins with; that is the entry with this name where it begins with no name in
front of it. -/
theorem lookups_stored {dev : Device} {v : Volume} {G : Contents} {s₀ s : Strings} {hs : List CString}
    (hmount : mount dev = .ok (.ok v)) (hG : v.Stores G) (h₀ : s₀.sp = none)
    (hrun : Run (Looked v) s₀ hs s)
    (hfound : ∀ p ∈ hs, ∃ i, G.walk beginsWith 2 (tokens slash p.bytes) = .ok i) (path : CString) :
    (∀ i, G.walk beginsWith 2 (tokens slash path.bytes) = .ok i → answer v path s = .ok i.toInt) ∧
      (G.walk beginsWith 2 (tokens slash path.bytes) = .error .entry → answer v path s = .ok (-ENOENT)) ∧
      (G.Along (· == ·) Distinct 2 (tokens slash path.bytes) →
        G.walk (· == ·) 2 (tokens slash path.bytes) = G.walk beginsWith 2 (tokens slash path.bytes)) := by
  obtain ⟨hok, hmissing⟩ := resolve_stored hmount hG path
  rw [answer_clean path (clean_stored hmount hG h₀ hrun hfound)]
  exact ⟨fun i hi => (hok i hi).2, hmissing, walk_exact⟩

/-- A device whose root directory holds a directory `d` with a file `x` in it, of two bytes. -/
def nestedDevice : Device := deviceOf ([
  (2 * 1024 + 8, 3),                                                -- the inode table
  (3 * 1024 + 129, 0x41), (3 * 1024 + 133, 4), (3 * 1024 + 168, 4),  -- type, size and block of the root
  (3 * 1024 + 257, 0x80), (3 * 1024 + 260, 2), (3 * 1024 + 296, 5),  -- of `x`
  (3 * 1024 + 385, 0x41), (3 * 1024 + 389, 4), (3 * 1024 + 424, 6),  -- and of `d`
  (4 * 1024, 4), (4 * 1024 + 5, 4), (4 * 1024 + 6, 1), (4 * 1024 + 8, 0x64),
  (6 * 1024, 3), (6 * 1024 + 5, 4), (6 * 1024 + 6, 1), (6 * 1024 + 8, 0x78),
  (5 * 1024, 0x48), (5 * 1024 + 1, 0x69), (1024 + 20, 1), (1024 + 40, 8)] ++ signature)

def nestedVolume : Volume := { blank with disk := nestedDevice.sectors }

def nestedContents : Contents := fun i =>
  if i = 2 then some (.dir [([0x64], 4)])
  else if i = 4 then some (.dir [([0x78], 3)])
  else if i = 3 then some (.file [0x48, 0x69])
  else none

/-- `/d/x`. -/
def nestedPath : CString := ⟨[0x2F, 0x64, 0x2F, 0x78], by decide⟩

theorem nestedVolume_mounted : mount nestedDevice = .ok (.ok nestedVolume) := rfl

/-- A directory with one record. -/
theorem holds_single {v : Volume} {i : BitVec 32} {inode : Inode} {r : Record} {e : List (BitVec 8) × BitVec 32}
    (hread : readInode v i.toInt = .ok inode) (hdir : isDirectory inode)
    (hrecord : v.candidates inode = [r]) (hr : r.Plain) (he : (r.name, r.inode) = e)
    (hsign : 0 ≤ e.2.toInt) : v.Holds i (.dir [e]) := by
  refine ⟨inode, hread, hdir, ?_, ?_, ?_⟩
  · intro r' hr'
    rw [hrecord, List.mem_singleton] at hr'
    rw [hr']
    exact hr
  · rw [hrecord, List.map_singleton, he]
  · intro e' he'
    rw [List.mem_singleton.mp he']
    exact hsign

theorem nestedVolume_stores : nestedVolume.Stores nestedContents := by
  intro i node h
  rw [nestedContents] at h
  split_ifs at h with h2 h4 h3
  · cases h
    rw [h2]
    exact holds_single (r := ⟨nestedVolume.blockBuffer 4, 0⟩) rfl rfl rfl
      ⟨by decide +kernel, by decide +kernel⟩ (by decide +kernel) (by decide)
  · cases h
    rw [h4]
    exact holds_single (r := ⟨nestedVolume.blockBuffer 6, 0⟩) rfl rfl rfl
      ⟨by decide +kernel, by decide +kernel⟩ (by decide +kernel) (by decide)
  · cases h
    rw [h3]
    exact ⟨_, rfl, rfl, rfl, by decide, by decide +kernel⟩

theorem lookups_stored_nested : answer nestedVolume nestedPath ⟨[], none⟩ = .ok 3 := by
  have hwalk : nestedContents.walk beginsWith 2 (tokens slash nestedPath.bytes) = .ok 3 := by
    decide +kernel
  exact (lookups_stored nestedVolume_mounted nestedVolume_stores rfl (.nil ⟨[], none⟩) (by simp)
    nestedPath).1 3 hwalk

end Levos.Ext2
