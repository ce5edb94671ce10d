import IdlBridge.Files
import Mathlib.Data.List.Basic

/-! # Where paths lead

    A path leads to a place by a walk through folders.  On a disk as file systems have it, the walk
    to a file ends with the name of the file in a folder, and the folder can be reached from the
    root by its place.  So what is looked for beside a file depends on where the file lies, not on
    the path by which it was found.
-/

namespace IdlBridge.Disk

variable {d : Disk}

/-- A disk as file systems have it: no name is `..`, and where a file lies there is no folder. -/
structure Proper (d : Disk) : Prop where
  names : ∀ f ∈ d.files, (".." : Text) ∉ f.1
  leaves : ∀ f ∈ d.files, d.isFolder f.1 = false

/-- What lies above a folder is a folder. -/
theorem isFolder_of_append {xs ys : List Text} (h : d.isFolder (xs ++ ys) = true) :
    d.isFolder xs = true := by
  unfold isFolder at h ⊢
  simp only [Bool.or_eq_true, List.isPrefixOf_iff_prefix, List.any_eq_true, Bool.and_eq_true,
    decide_eq_true_eq, List.length_append] at h ⊢
  rcases h with h | ⟨f, hf, hprefix, hlength⟩
  · exact Or.inl ((List.prefix_append xs ys).trans h)
  · exact Or.inr ⟨f, hf, (List.prefix_append xs ys).trans hprefix, by omega⟩

/-- One step up from a folder is a folder. -/
theorem isFolder_up {folder : List Text} (h : d.isFolder folder = true) :
    d.isFolder (folder.reverse.drop 1).reverse = true := by
  have hsplit : folder = (folder.reverse.drop 1).reverse ++ (folder.reverse.take 1).reverse := by
    rw [← List.reverse_append, List.take_append_drop, List.reverse_reverse]
  rw [hsplit] at h
  exact isFolder_of_append h

theorem walk_append (folder xs ys : List Text) :
    d.walk folder (xs ++ ys) = (d.walk folder xs).bind fun place => d.walk place.reverse ys := by
  induction xs generalizing folder with
  | nil => rw [List.nil_append, walk, Option.bind_some, List.reverse_reverse]
  | cons x xs ih =>
    rw [List.cons_append, walk, walk]
    split
    · exact ih _
    · rfl

/-- A folder is reached from a folder above it by the names between them. -/
theorem walk_of_isFolder {folder xs : List Text} (h : d.isFolder (folder.reverse ++ xs) = true)
    (hxs : (".." : Text) ∉ xs) : d.walk folder xs = some (folder.reverse ++ xs) := by
  induction xs generalizing folder with
  | nil => rw [walk, List.append_nil]
  | cons x xs ih =>
    rw [List.mem_cons, not_or] at hxs
    obtain ⟨hx, hxs⟩ := hxs
    have hfolder : (x :: folder).reverse ++ xs = folder.reverse ++ x :: xs := by simp
    rw [walk, if_pos (isFolder_of_append h), if_neg (Ne.symm hx), ih (hfolder ▸ h) hxs, hfolder]

theorem isFolder_start (p : Path) : d.isFolder (d.start p).reverse = true := by
  unfold start isFolder
  split <;> simp

/-- The walk to a file passes the folder of the file last. -/
theorem walk_parent (hd : d.Proper) {p : Path} {place : List Text} (h : d.find? p = some place) :
    d.walk (d.start p) p.parent.parts = some place.dropLast ∧
      d.isFolder place.dropLast = true ∧ (".." : Text) ∉ place.dropLast := by
  obtain ⟨hwalk, hany⟩ := Option.filter_eq_some_iff.1 h
  obtain ⟨f, hf, hplace⟩ := List.any_eq_true.1 hany
  obtain rfl : f.1 = place := of_decide_eq_true hplace
  have hleaf := hd.leaves f hf
  rcases List.eq_nil_or_concat p.parts with hnil | ⟨xs, name, hparts⟩
  · -- A path without components leads to a folder.
    rw [hnil, walk, Option.some_inj] at hwalk
    rw [← hwalk, isFolder_start] at hleaf
    cases hleaf
  · rw [List.concat_eq_append] at hparts
    rw [hparts, walk_append] at hwalk
    obtain ⟨folder, hfolder, hname⟩ := Option.bind_eq_some_iff.1 hwalk
    rw [walk, List.reverse_reverse] at hname
    split at hname
    · next hisFolder =>
      rw [walk, Option.some_inj] at hname
      split at hname
      · -- So does one that ends with `..`.
        rw [← hname, isFolder_up hisFolder] at hleaf
        cases hleaf
      · -- Otherwise its last component is the name of the file.
        have hdrop : f.1.dropLast = folder := by
          rw [← hname, List.reverse_cons, List.reverse_reverse, List.dropLast_concat]
        have hparent : p.parent.parts = xs := by rw [Path.parent, hparts, List.dropLast_concat]
        rw [hdrop, hparent]
        refine ⟨hfolder, hisFolder, fun hmem => hd.names f hf ?_⟩
        rw [← hname, List.reverse_cons, List.reverse_reverse]
        exact List.mem_append_left _ hmem
    · cases hname

/-- From two paths to one folder, a path leads to one file. -/
theorem find?_append_congr {p p' : Path}
    (h : d.walk (d.start p) p.parts = d.walk (d.start p') p'.parts) (q : Path) :
    d.find? (p.append q) = d.find? (p'.append q) := by
  unfold Path.append
  split
  · rfl
  · unfold find?
    congr 1
    show d.walk (d.start p) (p.parts ++ q.parts) = d.walk (d.start p') (p'.parts ++ q.parts)
    rw [walk_append, walk_append, h]

/-- What is found beside a file depends on the place of the file only. -/
theorem find?_beside (hd : d.Proper) {p : Path} {place : List Text} (h : d.find? p = some place)
    (q : Path) : d.find? (p.parent.append q) = d.find? (Path.append ⟨true, place.dropLast⟩ q) := by
  obtain ⟨hwalk, hfolder, hnames⟩ := walk_parent hd h
  refine find?_append_congr ?_ q
  have hself : d.walk [] place.dropLast = some place.dropLast := walk_of_isFolder hfolder hnames
  exact hwalk.trans hself.symm

end IdlBridge.Disk
