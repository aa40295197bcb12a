/-
Blank characters, and what they do to a text: trimming, words, and the one-line form.

A character is blank when it has the Unicode `White_Space` property. `trim` drops blanks at both ends, `words` lists
the maximal runs of other characters in order, and `flatten` joins the words by single spaces.
-/

namespace StubTemplate.Text

/-- code points with the Unicode `White_Space` property, as closed ranges -/
def blankRanges : List (Nat × Nat) :=
  [(0x09, 0x0D), (0x20, 0x20), (0x85, 0x85), (0xA0, 0xA0), (0x1680, 0x1680), (0x2000, 0x200A),
   (0x2028, 0x2029), (0x202F, 0x202F), (0x205F, 0x205F), (0x3000, 0x3000)]

def isBlank (c : Char) : Bool :=
  blankRanges.any fun range => decide (range.1 ≤ c.toNat ∧ c.toNat ≤ range.2)

def trimStart (s : List Char) : List Char :=
  s.dropWhile isBlank

def trimEnd (s : List Char) : List Char :=
  (s.reverse.dropWhile isBlank).reverse

/-- the text without the blanks at both ends -/
def trim (s : List Char) : List Char :=
  trimEnd (trimStart s)

/-- the maximal runs of characters that are not blank, in order -/
def words : List Char → List (List Char)
  | [] => []
  | c :: rest =>
    if isBlank c then words rest
    else
      match rest with
      | [] => [[c]]
      | d :: _ =>
        if isBlank d then [c] :: words rest
        else
          match words rest with
          | [] => [[c]]
          | w :: ws => (c :: w) :: ws

/-- the text on a single line: its words, joined by one space -/
def flatten (s : List Char) : List Char :=
  [' '].intercalate (words s)

theorem length_dropWhile_le {α : Type} (p : α → Bool) (s : List α) : (s.dropWhile p).length ≤ s.length :=
  (List.dropWhile_suffix p).length_le

theorem length_trim_le (s : List Char) : (trim s).length ≤ s.length := by
  have h : (trim s).length ≤ (trimStart s).length := by
    simpa [trim, trimEnd] using length_dropWhile_le isBlank (trimStart s).reverse
  exact Nat.le_trans h (length_dropWhile_le isBlank s)

end StubTemplate.Text
