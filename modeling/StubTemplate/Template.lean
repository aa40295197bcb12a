/-
Templates: a text cut into single characters and the placeholders found in it, from the left and without overlap.

`text_ofText` says that cutting loses nothing. `located` lists the placeholders with their offsets in bytes, and
`fill` puts a text in the place of each.
-/
import StubTemplate.Placeholder
import StubTemplate.Text.Utf8

namespace StubTemplate

/-- a part of a template: a character of its own, or a placeholder -/
inductive Segment where
  | char (c : Char)
  | hole (p : Placeholder)
  deriving DecidableEq

abbrev Template := List Segment

namespace Segment

/-- the part as it stands in the template -/
def text : Segment → List Char
  | .char c => [c]
  | .hole p => p.text

def fill (filler : Placeholder → List Char) : Segment → List Char
  | .char c => [c]
  | .hole p => filler p

end Segment

namespace Template

/-- cuts a text at its placeholders -/
def ofText (s : List Char) : Template :=
  match s with
  | [] => []
  | c :: rest =>
    match _h : Placeholder.read? (c :: rest) with
    | some (p, after) => .hole p :: ofText after
    | none => .char c :: ofText rest
termination_by s.length
decreasing_by
  · exact Placeholder.length_lt_of_read? _h
  · simp

/-- the template as one text -/
def text (t : Template) : List Char := t.flatMap Segment.text

def fill (filler : Placeholder → List Char) (t : Template) : List Char := t.flatMap (Segment.fill filler)

def placeholders (t : Template) : List Placeholder :=
  t.filterMap fun
    | .char _ => none
    | .hole p => some p

/-- the placeholders in order, each with its offset in bytes when the template stands at `offset` -/
def locatedFrom (offset : Nat) : Template → List (Placeholder × Nat)
  | [] => []
  | .char c :: rest => locatedFrom (offset + c.utf8Size) rest
  | .hole p :: rest => (p, offset) :: locatedFrom (offset + Text.utf8Size p.text) rest

def located (t : Template) : List (Placeholder × Nat) := t.locatedFrom 0

theorem text_ofText (s : List Char) : (ofText s).text = s := by
  fun_induction ofText s with
  | case1 => rfl
  | case2 c rest p after h ih =>
    simp only [text, List.flatMap_cons, Segment.text] at ih ⊢
    rw [ih]
    exact (Placeholder.eq_text_append_of_read? h).symm
  | case3 c rest h ih =>
    simp only [text, List.flatMap_cons, Segment.text] at ih ⊢
    rw [ih]
    rfl

theorem map_fst_locatedFrom (offset : Nat) (t : Template) : (t.locatedFrom offset).map Prod.fst = t.placeholders := by
  induction t generalizing offset with
  | nil => rfl
  | cons segment rest ih =>
    cases segment with
    | char c => simpa [locatedFrom, placeholders] using ih _
    | hole p => simpa [locatedFrom, placeholders] using ih _

end Template

end StubTemplate
