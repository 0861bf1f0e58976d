import Mathlib.Data.List.Basic

namespace Levos.Framework

variable {ι ν α : Type*}

/-- What stands under a number: a file, or a directory with its entries in their order. -/
inductive FileNode (ι ν α : Type*)
  | file (content : List α)
  | dir (entries : List (ν × ι))

/-- A file system as a graph. The entries of a directory may lead anywhere, also back to it. -/
abbrev FileGraph (ι ν α : Type*) := ι → Option (FileNode ι ν α)

/-- Why a walk ends before its last component. -/
inductive Missing
  | entry
  | directory
  deriving DecidableEq

namespace FileGraph

/-- The walk along the components of a path. A component is taken for the first entry whose name fits. -/
def walk (G : FileGraph ι ν α) (fits : ν → ν → Bool) : ι → List ν → Except Missing ι
  | i, [] => .ok i
  | i, n :: ns =>
    match G i with
    | some (.dir es) =>
      match es.find? fun e => fits e.1 n with
      | some e => walk G fits e.2 ns
      | none => .error .entry
    | _ => .error .directory

/-- `P` holds of each directory that a walk comes to, with the component that is looked up there. -/
def Along (G : FileGraph ι ν α) (fits : ν → ν → Bool) (P : List (ν × ι) → ν → Prop) : ι → List ν → Prop
  | _, [] => True
  | i, n :: ns => ∀ es, G i = some (.dir es) →
      P es n ∧ ∀ e, (es.find? fun e => fits e.1 n) = some e → Along G fits P e.2 ns

variable {G : FileGraph ι ν α} {fits fits' : ν → ν → Bool} {i : ι} {n : ν} {ns : List ν}
  {es : List (ν × ι)}

theorem walk_dir (h : G i = some (.dir es)) : G.walk fits i (n :: ns) =
    match es.find? fun e => fits e.1 n with
    | some e => G.walk fits e.2 ns
    | none => .error .entry := by
  rw [walk, h]

theorem walk_stuck (h : ¬∃ es, G i = some (.dir es)) : G.walk fits i (n :: ns) = .error .directory := by
  rw [walk]
  split
  · next es hes => exact absurd ⟨es, hes⟩ h
  · rfl

theorem Along.imp {P Q : List (ν × ι) → ν → Prop} (hPQ : ∀ es n, P es n → Q es n)
    (h : G.Along fits P i ns) : G.Along fits Q i ns := by
  induction ns generalizing i with
  | nil => trivial
  | cons n ns ih =>
    intro es hes
    obtain ⟨hP, hrest⟩ := h es hes
    exact ⟨hPQ es n hP, fun e he => ih (hrest e he)⟩

/-- A comparison that lets more names fit finds the same entry, if none of these stands in front of it. -/
theorem find_congr (fits fits' : ν → ν → Bool) (hfits : ∀ e ∈ es, fits e.1 n = true → fits' e.1 n = true)
    (h : ∀ e ∈ es.takeWhile fun e => !fits e.1 n, fits' e.1 n = false) :
    (es.find? fun e => fits e.1 n) = es.find? fun e => fits' e.1 n := by
  induction es with
  | nil => rfl
  | cons e es ih =>
    obtain ⟨hfirst, hrest⟩ := List.forall_mem_cons.mp hfits
    cases he : fits e.1 n with
    | true => rw [List.find?_cons, List.find?_cons, he, hfirst he]
    | false =>
      rw [List.takeWhile_cons_of_pos (by simp [he])] at h
      obtain ⟨hnot, hbefore⟩ := List.forall_mem_cons.mp h
      rw [List.find?_cons, List.find?_cons, he, hnot]
      exact ih hrest hbefore

/-- A walk does not depend on how names are compared, as long as the same entries are found. -/
theorem walk_congr (h : G.Along fits (fun es n =>
      (es.find? fun e => fits e.1 n) = es.find? fun e => fits' e.1 n) i ns) :
    G.walk fits i ns = G.walk fits' i ns := by
  induction ns generalizing i with
  | nil => rfl
  | cons n ns ih =>
    rw [walk, walk]
    split
    · next es hes =>
      obtain ⟨hfind, hrest⟩ := h es hes
      rw [← hfind]
      split
      · next e he => exact ih (hrest e he)
      · rfl
    · rfl

end FileGraph

end Levos.Framework
