/-
The top level of a text by byte offsets.

Cutting and searching go along the characters of a text with their offsets, and take pieces out of it by slices. How the
nesting goes on with a character is a parameter here, `scan`: whatever it says is top level, the offsets are those of
characters read, so every slice is there. A counter for brackets that wraps around is such a `scan` as well. With
`Nesting.advance` one gets what the top level is otherwise cut into:
- `exists_splitTop`: the pieces between delimiters;
- `exists_findTop`: the first place with a pattern, as an offset;
- `exists_hasSingleEquals`: whether an element has `=` where `=>` is meant.
-/
import StubTemplate.Proofs.Slices
import StubTemplate.Proofs.TopLevel

namespace StubTemplate.ByOffset

open Text
open Argument (room piecesFrom cutFrom cutTop dropEmptyLast)

variable (scan : Nesting → Char → Nesting)

/-! ## Cutting at a delimiter -/

/--
The pieces of `s` from byte `start` on, when the characters before byte `index` have been read and those listed come
next.
-/
def splitFrom (s : List Char) (delimiter : Char) (n : Nesting) (start index : Nat) :
    List Char → Except Failure (List (List Char))
  | [] => do
    let tail ← slice s start (utf8Size s)
    return if trim tail = [] then [] else [trim tail]
  | c :: rest =>
    if c = delimiter ∧ (scan n c).isTop = true then do
      let piece ← slice s start index
      let pieces ← splitFrom s delimiter (scan n c) (index + c.utf8Size) (index + c.utf8Size) rest
      return trim piece :: pieces
    else splitFrom s delimiter (scan n c) start (index + c.utf8Size) rest

/-- the trimmed pieces between top-level delimiters; a blank one counts unless it is the last -/
def splitTop (delimiter : Char) (s : List Char) : Except Failure (List (List Char)) :=
  splitFrom scan s delimiter .start 0 0 s

/-- `y` is what has been read since the last delimiter, and it belongs to the first of the pieces to come -/
theorem exists_splitFrom (delimiter : Char) (n : Nesting) (x y rest : List Char) : ∃ piece pieces,
    splitFrom scan (x ++ (y ++ rest)) delimiter n (utf8Size x) (utf8Size x + utf8Size y) rest
      = .ok (dropEmptyLast (((y ++ piece) :: pieces).map trim)) ∧
    room (piece :: pieces) = rest.length + 1 ∧
    (scan = Nesting.advance → piecesFrom delimiter n rest = piece :: pieces) := by
  induction rest generalizing n x y with
  | nil =>
    have htail : slice (x ++ (y ++ [])) (utf8Size x) (utf8Size (x ++ (y ++ []))) = .ok y := by
      rw [List.append_nil, slice_behind]
    refine ⟨[], [], ?_, rfl, fun _ => rfl⟩
    rw [splitFrom, htail]
    by_cases hblank : trim y = []
    · simp [dropEmptyLast, hblank, bind, Except.bind, pure, Except.pure]
    · simp [dropEmptyLast, hblank, bind, Except.bind, pure, Except.pure]
  | cons c rest ih =>
    by_cases hhit : c = delimiter ∧ (scan n c).isTop = true
    · obtain ⟨piece, pieces, hrest, hroom, hmodel⟩ := ih (scan n c) (x ++ (y ++ [c])) []
      have hstart : utf8Size (x ++ (y ++ [c])) = utf8Size x + utf8Size y + c.utf8Size := by
        simp [Nat.add_assoc]
      have hsplit : x ++ (y ++ [c]) ++ ([] ++ rest) = x ++ (y ++ c :: rest) := by simp
      rw [hsplit, hstart, utf8Size_nil, Nat.add_zero] at hrest
      refine ⟨[], piece :: pieces, ?_, ?_, ?_⟩
      · have hkeep : dropEmptyLast (((y ++ []) :: piece :: pieces).map trim)
            = trim y :: dropEmptyLast ((piece :: pieces).map trim) := by
          rw [List.append_nil]
          exact Argument.dropEmptyLast_cons (trim y) (List.cons_ne_nil _ _)
        rw [splitFrom, if_pos hhit, slice_middle, hrest, hkeep]
        rfl
      · simp only [room, List.length_nil, List.length_cons] at hroom ⊢
        omega
      · intro hscan
        rw [hscan] at hhit
        rw [piecesFrom, if_pos hhit, ← hscan, hmodel hscan]
    · obtain ⟨piece, pieces, hrest, hroom, hmodel⟩ := ih (scan n c) x (y ++ [c])
      have hindex : utf8Size (y ++ [c]) = utf8Size y + c.utf8Size := by simp
      have hsplit : x ++ ((y ++ [c]) ++ rest) = x ++ (y ++ c :: rest) := by simp
      rw [hsplit, hindex, ← Nat.add_assoc] at hrest
      refine ⟨c :: piece, pieces, ?_, ?_, ?_⟩
      · rw [splitFrom, if_neg hhit, hrest, List.append_assoc, List.singleton_append]
      · simp only [room, List.length_cons] at hroom ⊢
        omega
      · intro hscan
        rw [hscan] at hhit
        rw [piecesFrom, if_neg hhit, ← hscan, hmodel hscan]
        rfl

/-- a text is cut, into no more than it has room for -/
theorem exists_splitTop (delimiter : Char) (s : List Char) : ∃ pieces, splitTop scan delimiter s = .ok pieces ∧
    room pieces ≤ s.length + 1 ∧ (scan = Nesting.advance → pieces = Argument.splitTop delimiter s) := by
  obtain ⟨piece, pieces, hsplit, hroom, hmodel⟩ := exists_splitFrom scan delimiter .start [] [] s
  refine ⟨_, hsplit, ?_, ?_⟩
  · rw [← hroom]
    exact (Argument.room_dropEmptyLast_le _).trans (Argument.room_map_trim_le _)
  · intro hscan
    rw [Argument.splitTop, hmodel hscan, List.nil_append]

/-! ## Searching for a pattern -/

/-- whether `pattern` stands at byte `index`, the place of `c`, and `accepts` holds there -/
def standsAt (s pattern : List Char) (accepts : Char → Option Char → Bool) (index : Nat) (c : Char) :
    Except Failure Bool := do
  let here ← slice s index (utf8Size s)
  if pattern <+: here then
    let after ← slice s (index + utf8Size pattern) (utf8Size s)
    return accepts c after.head?
  else return false

/-- the offset of the first place with `pattern` from byte `index` on, where the characters listed come next -/
def findFrom (s pattern : List Char) (accepts : Char → Option Char → Bool) (n : Nesting) (index : Nat) :
    List Char → Except Failure (Option Nat)
  | [] => .ok none
  | c :: rest =>
    if utf8Size s - utf8Size pattern < index then .ok none
    else do
      let hit ← if (scan n c).isTop then standsAt s pattern accepts index c else .ok false
      if hit then return some index
      else findFrom s pattern accepts (scan n c) (index + c.utf8Size) rest

/--
The offset of the first top-level place with `pattern` where `accepts` holds of the character there and of the one that
comes next, `none` standing for the end. The empty pattern is found nowhere.
-/
def findTop (pattern : List Char) (accepts : Char → Option Char → Bool) (s : List Char) : Except Failure (Option Nat) :=
  if pattern = [] ∨ utf8Size s < utf8Size pattern then .ok none
  else findFrom scan s pattern accepts .start 0 s

variable (pattern : List Char) (accepts : Char → Option Char → Bool)

theorem standsAt_append (x y : List Char) (c : Char) : standsAt (x ++ y) pattern accepts (utf8Size x) c
    = .ok (decide (pattern <+: y) && accepts c (y.drop pattern.length).head?) := by
  have hopen : standsAt (x ++ y) pattern accepts (utf8Size x) c = (if pattern <+: y then do
      let after ← slice (x ++ y) (utf8Size x + utf8Size pattern) (utf8Size (x ++ y))
      return accepts c after.head?
    else return false) := by
    rw [standsAt, slice_behind]
    rfl
  rw [hopen]
  by_cases hstart : pattern <+: y
  · obtain ⟨after, rfl⟩ := hstart
    have hafter : slice (x ++ (pattern ++ after)) (utf8Size x + utf8Size pattern)
        (utf8Size (x ++ (pattern ++ after))) = .ok after := by
      rw [← List.append_assoc, ← utf8Size_append, slice_behind]
    rw [if_pos (List.prefix_append _ _), hafter, List.drop_left]
    simp
  · rw [if_neg hstart, decide_eq_false hstart]
    rfl

/-- one step of the search, where there is still room for the pattern -/
theorem findFrom_cons (n : Nesting) (x rest : List Char) (c : Char)
    (hroom : ¬ utf8Size (x ++ c :: rest) - utf8Size pattern < utf8Size x) :
    findFrom scan (x ++ c :: rest) pattern accepts n (utf8Size x) (c :: rest)
      = if (scan n c).isTop = true ∧ pattern <+: c :: rest ∧
            accepts c ((c :: rest).drop pattern.length).head? = true then .ok (some (utf8Size x))
        else findFrom scan (x ++ c :: rest) pattern accepts (scan n c) (utf8Size x + c.utf8Size) rest := by
  rw [findFrom, if_neg hroom, standsAt_append]
  cases (scan n c).isTop with
  | false => simp [bind, Except.bind]
  | true => simp [bind, Except.bind, pure, Except.pure]

/-- no pattern stands where there is no room for it -/
theorem cutFrom_eq_none_of_lt {pattern : List Char} {accepts : Option Char → Bool} {n : Nesting} {s : List Char}
    (h : utf8Size s < utf8Size pattern) : cutFrom pattern accepts n s = none := by
  rw [Option.eq_none_iff_forall_ne_some]
  intro cut hcut
  have hsize := congrArg utf8Size (Argument.eq_append_of_cutFrom hcut)
  simp only [utf8Size_append] at hsize
  omega

/-- the search goes on behind `x`, and is done at the first place where the pattern stands -/
theorem exists_findFrom {first : Char} (hfirst : pattern.head? = some first) (n : Nesting) (x rest : List Char)
    (hroom : utf8Size pattern ≤ utf8Size (x ++ rest)) : ∃ cut : Option (List Char × List Char),
    findFrom scan (x ++ rest) pattern accepts n (utf8Size x) rest
      = .ok (cut.map fun cut => utf8Size x + utf8Size cut.1) ∧
    (∀ c, cut = some c → rest = c.1 ++ pattern ++ c.2) ∧
    (scan = Nesting.advance → cutFrom pattern (accepts first) n rest = cut) := by
  induction rest generalizing n x with
  | nil => exact ⟨none, rfl, by simp, fun _ => rfl⟩
  | cons c rest ih =>
    by_cases hend : utf8Size (x ++ c :: rest) - utf8Size pattern < utf8Size x
    · refine ⟨none, by rw [findFrom, if_pos hend]; rfl, by simp, ?_⟩
      intro _
      refine cutFrom_eq_none_of_lt ?_
      rw [utf8Size_append] at hend hroom
      omega
    · have hhead : pattern <+: c :: rest → c = first := by
        intro hstart
        obtain ⟨tail, rfl⟩ := List.head?_eq_some_iff.1 hfirst
        exact (List.cons_prefix_cons.1 hstart).1.symm
      rw [findFrom_cons scan pattern accepts n x rest c hend]
      by_cases hhit : (scan n c).isTop = true ∧ pattern <+: c :: rest ∧
          accepts c ((c :: rest).drop pattern.length).head? = true
      · obtain ⟨after, hafter⟩ := hhit.2.1
        have hc : c = first := hhead hhit.2.1
        refine ⟨some ([], after), ?_, ?_, ?_⟩
        · rw [if_pos hhit]
          rfl
        · rintro _ ⟨⟩
          exact hafter.symm
        · intro hscan
          rw [hscan, hc] at hhit
          rw [hc, cutFrom, if_pos hhit, ← hc, ← hafter, List.drop_left]
      · obtain ⟨cut, hrest, hcut, hmodel⟩ := ih (scan n c) (x ++ [c]) (by simpa using hroom)
        have hsplit : x ++ [c] ++ rest = x ++ c :: rest := by simp
        have hindex : utf8Size (x ++ [c]) = utf8Size x + c.utf8Size := by simp
        rw [hsplit, hindex] at hrest
        refine ⟨cut.map fun cut => (c :: cut.1, cut.2), ?_, ?_, ?_⟩
        · rw [if_neg hhit, hrest, Option.map_map]
          simp [Function.comp_def, Nat.add_assoc]
        · intro d hd
          obtain ⟨d', hd', rfl⟩ := Option.map_eq_some_iff.1 hd
          simp [hcut d' hd']
        · intro hscan
          rw [cutFrom, ← hscan, hmodel hscan, if_neg]
          intro hand
          rw [← hhead hand.2.1] at hand
          exact hhit hand

/-- the search comes to an end, with the offset of a place where the pattern stands, or none -/
theorem exists_findTop (s : List Char) : ∃ cut : Option (List Char × List Char),
    findTop scan pattern accepts s = .ok (cut.map fun cut => utf8Size cut.1) ∧
    (∀ c, cut = some c → s = c.1 ++ pattern ++ c.2) ∧
    (scan = Nesting.advance → ∀ first, pattern.head? = some first → cutTop pattern (accepts first) s = cut) := by
  by_cases hnone : pattern = [] ∨ utf8Size s < utf8Size pattern
  · refine ⟨none, by rw [findTop, if_pos hnone]; rfl, by simp, ?_⟩
    intro _ first hfirst
    rcases hnone with rfl | hsize
    · cases hfirst
    · rw [cutTop, cutFrom_eq_none_of_lt hsize, ite_self]
  · rw [not_or, Nat.not_lt] at hnone
    obtain ⟨first, tail, rfl⟩ := List.exists_cons_of_ne_nil hnone.1
    obtain ⟨cut, hfind, hcut, hmodel⟩ := exists_findFrom scan (first :: tail) accepts rfl .start [] s hnone.2
    refine ⟨cut, ?_, hcut, ?_⟩
    · rw [findTop, if_neg (by simpa using hnone)]
      simpa using hfind
    · intro hscan first' hfirst
      obtain rfl : first = first' := Option.some.inj hfirst
      rw [cutTop, if_neg hnone.1, hmodel hscan]

/-! ## A single `=` -/

/-- whether an element has `=` where `=>` is meant: a top-level `=`, not followed by `>`, between two texts -/
def hasSingleEquals (element : List Char) : Except Failure Bool := do
  match ← findTop scan ['='] (fun _ next => next != some '>') element with
  | none => return false
  | some position =>
    let before ← slice element 0 position
    if trim before = [] then return false
    else
      let after ← slice element (position + 1) (utf8Size element)
      return trim after != []

theorem exists_hasSingleEquals (element : List Char) : ∃ b, hasSingleEquals scan element = .ok b ∧
    (scan = Nesting.advance → b = Argument.hasSingleEquals element) := by
  obtain ⟨cut, hfind, hcut, hmodel⟩ := exists_findTop scan ['='] (fun _ next => next != some '>') element
  cases cut with
  | none =>
    refine ⟨false, by rw [hasSingleEquals, hfind]; rfl, ?_⟩
    intro hscan
    rw [Argument.hasSingleEquals, hmodel hscan '=' rfl]
  | some cut =>
    obtain ⟨before, after⟩ := cut
    obtain rfl := hcut _ rfl
    have hbefore : slice (before ++ ['='] ++ after) 0 (utf8Size before) = .ok before := by
      rw [List.append_assoc, slice_before]
    have hsize : utf8Size before + 1 = utf8Size (before ++ ['=']) := (utf8Size_append before ['=']).symm
    have hafter : slice (before ++ ['='] ++ after) (utf8Size before + 1) (utf8Size (before ++ ['='] ++ after))
        = .ok after := by
      rw [hsize, slice_behind]
    refine ⟨trim before != [] && trim after != [], ?_, ?_⟩
    · have hopen : hasSingleEquals scan (before ++ ['='] ++ after) = (do
          let before' ← slice (before ++ ['='] ++ after) 0 (utf8Size before)
          if trim before' = [] then return false
          else
            let after' ← slice (before ++ ['='] ++ after) (utf8Size before + 1) (utf8Size (before ++ ['='] ++ after))
            return trim after' != []) := by
        rw [hasSingleEquals, hfind]
        rfl
      rw [hopen, hbefore, hafter]
      by_cases hblank : trim before = []
      · simp [hblank, bind, Except.bind, pure, Except.pure]
      · simp [hblank, bind, Except.bind, pure, Except.pure]
    · intro hscan
      rw [Argument.hasSingleEquals, hmodel hscan '=' rfl]

end StubTemplate.ByOffset
