/-
Files: what a path leads to, and trees of files and directories in which paths are followed step by step.

`Files` is all that reading needs, an entry for every path. A `FileTree` is a tree as data with a working directory in
it. `resolve` follows a path through it, from the root if the path starts with a slash and from the working directory
otherwise: every step leaves a directory, `.` stays, `..` goes up, and a name has to exist. What makes directories or
removes them does it step by step, and what is done before a step that fails stays done. Whatever stands in a tree may be
read and written. `get?_put` says that writing changes one place and no other.
-/

namespace StubTemplate

/-- what a path leads to -/
inductive Entry where
  | missing
  /-- something that exists and is no file, such as a directory -/
  | blocked
  | file (content : ByteArray)

abbrev Files := String → Entry

/-- a place in a tree: the names of the directories down to it from the root, outermost first, and its own name -/
abbrev Location := List String

inductive Node where
  | directory
  | file (content : ByteArray)

instance (node : Option Node) : Decidable (node = some .directory) :=
  match node with
  | some .directory => isTrue rfl
  | some (.file _) => isFalse nofun
  | none => isFalse nofun

/-- the longest name of a file, in bytes -/
def longestName : Nat := 255

def longestPath : Nat := 4095

def isFileName (name : String) : Bool :=
  name ∉ ["", ".", ".."] && name.utf8ByteSize ≤ longestName && !name.toList.contains '/' && !name.toList.contains '\x00'

/-- a working directory, and the places in use besides it and the directories above it -/
structure FileTree where
  home : Location
  nodes : List (Location × Node)
  named : ∀ name ∈ home, isFileName name = true

namespace FileTree

def empty : FileTree := ⟨["tmp", "working directory"], [], by decide⟩

/-- what stands at a place; the working directory and those above it are always there -/
def get? (tree : FileTree) (place : Location) : Option Node :=
  if place <+: tree.home then some .directory else (tree.nodes.find? (·.1 = place)).map Prod.snd

def put (tree : FileTree) (place : Location) (node : Node) : FileTree :=
  { tree with nodes := (place, node) :: tree.nodes.filter (·.1 ≠ place) }

/-- the tree without a place and all that is below it -/
def erase (tree : FileTree) (place : Location) : FileTree :=
  { tree with nodes := tree.nodes.filter fun node => ¬ place <+: node.1 }

/-- the tree without all that is below a place -/
def clear (tree : FileTree) (place : Location) : FileTree :=
  { tree with nodes := tree.nodes.filter fun node => ¬ (place <+: node.1 ∧ place ≠ node.1) }

def homePath (tree : FileTree) : String := "/" ++ "/".intercalate tree.home

def isPath (path : String) : Bool :=
  path ≠ "" && path.utf8ByteSize ≤ longestPath && !path.toList.contains '\x00'

/-- the names between the slashes of a path; the first is empty if the path starts with a slash -/
def components (path : String) : List String :=
  (path.toList.splitOn '/').map String.ofList

def origin (tree : FileTree) (path : String) : Location :=
  if path.toList.head? = some '/' then [] else tree.home

/-- one step of a path, from a place that has to be a directory -/
def step (tree : FileTree) (place : Location) (name : String) : Option Location :=
  if tree.get? place ≠ some .directory then none
  else if name = "" ∨ name = "." then some place
  else if name = ".." then some place.dropLast
  else if longestName < name.utf8ByteSize then none
  else if (tree.get? (place ++ [name])).isSome then some (place ++ [name])
  else none

def resolve (tree : FileTree) (path : String) : Option Location :=
  if isPath path then (components path).foldlM tree.step (tree.origin path) else none

def look (tree : FileTree) : Files := fun path =>
  match (tree.resolve path).bind tree.get? with
  | none => .missing
  | some .directory => .blocked
  | some (.file content) => .file content

/-- the place for a file to be written at a path: a name, in a directory that exists, which is no directory itself -/
def target (tree : FileTree) (path : String) : Option Location :=
  if isPath path then do
    let name ← (components path).getLast?
    let directory ← (components path).dropLast.foldlM tree.step (tree.origin path)
    let place := directory ++ [name]
    if tree.get? directory = some .directory ∧ tree.get? place ≠ some .directory ∧ isFileName name = true then some place
    else none
  else none

def write (tree : FileTree) (path : String) (content : ByteArray) : Option FileTree :=
  (tree.target path).map fun place => tree.put place (.file content)

def makeStep (tree : FileTree) (place : Location) (name : String) : Option (FileTree × Location) :=
  match tree.step place name with
  | some inner => some (tree, inner)
  | none =>
    if tree.get? place = some .directory ∧ name.utf8ByteSize ≤ longestName then
      some (tree.put (place ++ [name]) .directory, place ++ [name])
    else none

/-- the tree with the named directories, one inside the other, up to the first that cannot be made -/
def makeNamed (tree : FileTree) (place : Location) : List String → FileTree
  | [] => tree
  | name :: rest =>
    match tree.makeStep place name with
    | some (made, inner) => makeNamed made inner rest
    | none => tree

/-- the names of a path up to the last that leads on; an empty name and `.` do not -/
def withoutStays (names : List String) : List String :=
  (names.reverse.dropWhile fun name => name == "" || name == ".").reverse

def withoutSlashes (names : List String) : List String :=
  (names.reverse.dropWhile (· == "")).reverse

/-- the tree with the directories of a path, as far as they can be made; one that only `.` follows is not made -/
def makeDirectories (tree : FileTree) (path : String) : FileTree :=
  let names := components path
  if !isPath path then tree
  else if (withoutSlashes names).getLast? = some "." then
    tree.makeNamed (tree.origin path) (withoutStays names).dropLast
  else tree.makeNamed (tree.origin path) names

def parent (path : String) : String :=
  "/".intercalate (withoutStays (withoutStays (components path)).dropLast)

/-- the tree with a file at a path, its directories made first; they stay even if the file cannot be written -/
def writeDeep (tree : FileTree) (path : String) (content : ByteArray) : FileTree :=
  let made := tree.makeDirectories (parent path)
  (made.write path content).getD made

/-- whether a path names a place from the directory above it: it ends in a name, and that directory can be reached -/
def isNamed (tree : FileTree) (path : String) : Bool :=
  let names := withoutSlashes (components path)
  names.getLast? ∉ [some ".", some ".."] && (names.dropLast.foldlM tree.step (tree.origin path)).isSome

/--
The tree without what stands at a path. A directory is emptied, and then goes itself if the path still names it: one
that is called `.` or `..`, or that was reached through what was in it, stays.
-/
def remove (tree : FileTree) (path : String) : FileTree :=
  match tree.resolve path with
  | none => tree
  | some place =>
    let cleared := tree.clear place
    if tree.get? place ≠ some .directory ∨ cleared.isNamed path = true then tree.erase place else cleared

theorem get?_put (tree : FileTree) (place other : Location) (node : Node) (h : ¬ place <+: tree.home) :
    (tree.put place node).get? other = if other = place then some node else tree.get? other := by
  by_cases ho : other = place
  · subst ho
    simp [get?, put, h]
  · have hfind : (tree.nodes.filter (·.1 ≠ place)).find? (·.1 = other) = tree.nodes.find? (·.1 = other) := by
      induction tree.nodes with
      | nil => rfl
      | cons entry rest ih =>
        by_cases he : entry.1 = place
        · have hne : entry.1 ≠ other := fun e => ho (e.symm.trans he)
          rw [List.filter_cons_of_neg (by simp [he]), ih, List.find?_cons_of_neg (by simp [hne])]
        · rw [List.filter_cons_of_pos (by simp [he])]
          by_cases heo : entry.1 = other
          · rw [List.find?_cons_of_pos (by simp [heo]), List.find?_cons_of_pos (by simp [heo])]
          · rw [List.find?_cons_of_neg (by simp [heo]), List.find?_cons_of_neg (by simp [heo]), ih]
    have hne : ¬ place = other := fun e => ho e.symm
    rw [if_neg ho]
    change (if other <+: tree.home then some .directory
      else (((place, node) :: tree.nodes.filter (·.1 ≠ place)).find? (·.1 = other)).map Prod.snd) = tree.get? other
    rw [List.find?_cons_of_neg (by simp [hne]), hfind, get?]

end FileTree

end StubTemplate
