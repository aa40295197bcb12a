/-
Placeholders: `%name(arguments)%` in a text.

A name is a letter or an underscore, then letters, digits and underscores, all of them ASCII. The arguments run to the
first `)%` and may hold a `%` only where no name could start after it. `read?` reads the placeholder a text starts
with, and `eq_text_append_of_read?` says that it takes exactly the placeholder's own text off the front.
-/

namespace StubTemplate

/-- a placeholder: a processor's name and the text of its arguments -/
structure Placeholder where
  name : List Char
  arguments : List Char
  deriving DecidableEq

namespace Placeholder

def isNameStart (c : Char) : Bool := c.isAlpha || c == '_'

def isNameChar (c : Char) : Bool := c.isAlphanum || c == '_'

def text (p : Placeholder) : List Char :=
  '%' :: p.name ++ '(' :: p.arguments ++ [')', '%']

/-- arguments up to the first `)%`, and what follows it; none where another placeholder may start before that -/
def readArguments : List Char → Option (List Char × List Char)
  | [] => none
  | ')' :: '%' :: rest => some ([], rest)
  | c :: rest =>
    if c = '%' ∧ rest.head?.any isNameStart = true then none
    else (readArguments rest).map fun read => (c :: read.1, read.2)

/-- the placeholder a text starts with, and what follows it -/
def read? : List Char → Option (Placeholder × List Char)
  | '%' :: body =>
    if body.head?.any isNameStart = true then
      match body.dropWhile isNameChar with
      | '(' :: rest =>
        (readArguments rest).map fun read => (⟨body.takeWhile isNameChar, read.1⟩, read.2)
      | _ => none
    else none
  | _ => none

theorem eq_append_of_readArguments {s : List Char} {read : List Char × List Char}
    (h : readArguments s = some read) : s = read.1 ++ ')' :: '%' :: read.2 := by
  induction s using readArguments.induct generalizing read with
  | case1 => simp [readArguments] at h
  | case2 rest =>
    simp only [readArguments, Option.some.injEq] at h
    subst h
    rfl
  | case3 c rest hnot hstop =>
    rw [readArguments] at h
    · simp [hstop] at h
    · exact hnot
  | case4 c rest hnot hgo ih =>
    rw [readArguments, if_neg hgo] at h
    · obtain ⟨inner, hinner, rfl⟩ := Option.map_eq_some_iff.1 h
      simp [ih hinner]
    · exact hnot

theorem eq_text_append_of_read? {s : List Char} {read : Placeholder × List Char} (h : read? s = some read) :
    s = read.1.text ++ read.2 := by
  unfold read? at h
  split at h
  · rename_i body
    split at h
    · split at h
      · rename_i rest hrest
        obtain ⟨inner, hinner, rfl⟩ := Option.map_eq_some_iff.1 h
        have hbody : '%' :: body
            = '%' :: (body.takeWhile isNameChar ++ '(' :: (inner.1 ++ ')' :: '%' :: inner.2)) := by
          rw [← eq_append_of_readArguments hinner, ← hrest, List.takeWhile_append_dropWhile]
        exact hbody.trans (by simp [text])
      · cases h
    · cases h
  · cases h

theorem length_lt_of_read? {s : List Char} {read : Placeholder × List Char} (h : read? s = some read) :
    read.2.length < s.length := by
  rw [eq_text_append_of_read? h]
  simp [text]
  omega

end Placeholder

end StubTemplate
