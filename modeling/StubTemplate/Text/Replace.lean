/-
Replacement of one text by another.

`replaceAll` works from the left and does not look again at what it has put in.
-/

namespace StubTemplate.Text

/-- the text with every occurrence of `pattern` replaced by `filler`; the empty pattern occurs nowhere -/
def replaceAll (pattern filler text : List Char) : List Char :=
  match text with
  | [] => []
  | c :: rest =>
    if pattern ≠ [] ∧ pattern <+: c :: rest then
      filler ++ replaceAll pattern filler ((c :: rest).drop pattern.length)
    else
      c :: replaceAll pattern filler rest
termination_by text.length
decreasing_by
  · rename_i h
    have := List.length_pos_iff.2 h.1
    simp only [List.length_drop, List.length_cons]
    omega
  · simp

end StubTemplate.Text
