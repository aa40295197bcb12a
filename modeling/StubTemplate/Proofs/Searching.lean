/-
Cutting a text at its top-level delimiters, and searching for one delimiter after the other.

Cutting reads the whole text once and carries along what is open. Searching stops at the first top-level delimiter and
begins anew behind it, as if nothing had been read (`searched`). Both meet the same delimiters, because behind a delimiter
at the top level one stands as at the start (`Nesting.advance_eq_start`). A backslash is the exception: read as a
delimiter, it still makes an ordinary character of a quote that follows it.

Step and run: `piecesFrom_of_cutFrom` for one search, `piecesFrom_eq_searched` for all of them. Main result:
`splitTop_search`.
-/
import StubTemplate.Proofs.TopLevel

namespace StubTemplate.Argument

open Nesting Text

/-- what stands before and after the first top-level delimiter -/
def search (delimiter : Char) (s : List Char) : Option (List Char × List Char) :=
  cutTop [delimiter] (fun _ => true) s

theorem search_eq_cutFrom (delimiter : Char) (s : List Char) :
    search delimiter s = cutFrom [delimiter] (fun _ => true) .start s := by
  rw [search, cutTop, if_neg (List.cons_ne_nil delimiter [])]

/-- the pieces between the delimiters that one search after the other finds -/
def searched (delimiter : Char) (s : List Char) : List (List Char) :=
  match _h : search delimiter s with
  | none => [s]
  | some cut => cut.1 :: searched delimiter cut.2
termination_by s.length
decreasing_by
  have hlength := length_cutTop _h
  rw [List.length_singleton] at hlength
  omega

theorem searched_ne_nil (delimiter : Char) (s : List Char) : searched delimiter s ≠ [] := by
  rw [searched]
  split <;> simp

/-! ## One search -/

/-- a search for a delimiter stops where a cut is made -/
theorem cutFrom_delimiter_cons (delimiter c : Char) (n : Nesting) (rest : List Char) :
    cutFrom [delimiter] (fun _ => true) n (c :: rest) =
      if c = delimiter ∧ (n.advance c).isTop = true then some ([], rest)
      else (cutFrom [delimiter] (fun _ => true) (n.advance c) rest).map fun cut => (c :: cut.1, cut.2) := by
  have hiff : ((n.advance c).isTop = true ∧ [delimiter] <+: c :: rest ∧ true = true)
      ↔ (c = delimiter ∧ (n.advance c).isTop = true) := by
    rw [List.singleton_prefix_cons_iff]
    constructor
    · intro ⟨htop, hc, _⟩
      exact ⟨hc.symm, htop⟩
    · intro ⟨hc, htop⟩
      exact ⟨htop, hc.symm, rfl⟩
  rw [cutFrom]
  exact if_congr hiff rfl rfl

section

variable {delimiter : Char} {n : Nesting} {s : List Char}

/-- where nothing is found there is one piece -/
theorem piecesFrom_of_cutFrom_eq_none (h : cutFrom [delimiter] (fun _ => true) n s = none) :
    piecesFrom delimiter n s = [s] := by
  induction s generalizing n with
  | nil => rfl
  | cons c rest ih =>
    rw [cutFrom_delimiter_cons] at h
    split at h
    · cases h
    · rename_i hstay
      have hrest := ih (Option.map_eq_none_iff.1 h)
      rw [piecesFrom, if_neg hstay, hrest, consFirst]

/-- what is found ends the first piece, and behind it one stands as at the start -/
theorem piecesFrom_of_cutFrom (hdelimiter : delimiter ≠ '\\') {cut : List Char × List Char}
    (h : cutFrom [delimiter] (fun _ => true) n s = some cut) :
    piecesFrom delimiter n s = cut.1 :: piecesFrom delimiter .start cut.2 := by
  induction s generalizing n cut with
  | nil => cases h
  | cons c rest ih =>
    rw [cutFrom_delimiter_cons] at h
    rw [piecesFrom]
    split at h
    · rename_i hhere
      obtain ⟨hc, htop⟩ := hhere
      cases h
      rw [if_pos ⟨hc, htop⟩, advance_eq_start (hc ▸ hdelimiter) htop]
    · rename_i hstay
      obtain ⟨inner, hinner, rfl⟩ := Option.map_eq_some_iff.1 h
      rw [if_neg hstay, ih hinner, consFirst]

end

/-! ## One search after the other -/

/-- one pass over a text makes the same pieces as one search after the other -/
theorem piecesFrom_eq_searched {delimiter : Char} (hdelimiter : delimiter ≠ '\\') (s : List Char) :
    piecesFrom delimiter .start s = searched delimiter s := by
  fun_induction searched delimiter s with
  | case1 s hnone =>
    rw [search_eq_cutFrom] at hnone
    exact piecesFrom_of_cutFrom_eq_none hnone
  | case2 s cut hsome ih =>
    rw [search_eq_cutFrom] at hsome
    rw [piecesFrom_of_cutFrom hdelimiter hsome, ih]

/-- nothing of a text is lost between the pieces but the delimiters -/
theorem intercalate_searched (delimiter : Char) (s : List Char) :
    [delimiter].intercalate (searched delimiter s) = s := by
  fun_induction searched delimiter s with
  | case1 s hnone => exact List.intercalate_singleton
  | case2 s cut hsome ih =>
    obtain ⟨piece, pieces, hpieces⟩ := List.exists_cons_of_ne_nil (searched_ne_nil delimiter cut.2)
    rw [search_eq_cutFrom] at hsome
    rw [hpieces, List.intercalate_cons_cons, ← hpieces, ih]
    exact (eq_append_of_cutFrom hsome).symm

/--
**Cutting and searching see the same top level.** If a search finds the delimiter, a text is cut into what stands before
it, trimmed, and the pieces of what stands after it. If it finds nothing, the text is one piece, or none if it is blank.
So the pieces of a text are those that one search after the other gives, each trimmed and without a last one that is
blank; and joined by the delimiter as they stand, these give back the text.
-/
theorem splitTop_search {delimiter : Char} (hdelimiter : delimiter ≠ '\\') (s : List Char) :
    (∀ before after, search delimiter s = some (before, after) →
      s = before ++ delimiter :: after ∧ splitTop delimiter s = trim before :: splitTop delimiter after) ∧
    (search delimiter s = none → splitTop delimiter s = if Blank s then [] else [trim s]) ∧
    splitTop delimiter s = dropEmptyLast ((searched delimiter s).map trim) ∧
    [delimiter].intercalate (searched delimiter s) = s := by
  refine ⟨?_, ?_, ?_, intercalate_searched delimiter s⟩
  · intro before after hsome
    rw [search_eq_cutFrom] at hsome
    have hne : (piecesFrom delimiter .start after).map trim ≠ [] := by simp [piecesFrom_ne_nil]
    have htext := eq_append_of_cutFrom hsome
    rw [List.append_assoc] at htext
    refine ⟨htext, ?_⟩
    rw [splitTop, piecesFrom_of_cutFrom hdelimiter hsome, List.map_cons, dropEmptyLast_cons _ hne, splitTop]
  · intro hnone
    rw [search_eq_cutFrom] at hnone
    rw [splitTop, piecesFrom_of_cutFrom_eq_none hnone, List.map_singleton]
    by_cases hblank : Blank s
    · rw [if_pos hblank, trim_blank hblank]
      rfl
    · rw [if_neg hblank, dropEmptyLast, if_neg]
      rw [List.getLast?_singleton, Option.some.injEq, trim_eq_nil_iff]
      exact hblank
  · rw [splitTop, piecesFrom_eq_searched hdelimiter]

/-- a delimiter that is a bracket, met where it closes another one and where it has nothing to close -/
def bracketText : List Char := " [é] ['x]' ] ]".toList

theorem splitTop_search_bracket : ']' ≠ '\\' ∧ search ']' bracketText = some (" [é".toList, " ['x]' ] ]".toList) ∧
    bracketText = " [é".toList ++ ']' :: " ['x]' ] ]".toList ∧
    splitTop ']' bracketText = trim " [é".toList :: splitTop ']' " ['x]' ] ]".toList ∧
    [']'].intercalate (searched ']' bracketText) = bracketText := by
  have hfound : search ']' bracketText = some (" [é".toList, " ['x]' ] ]".toList) := by decide +kernel
  have hdelimiter : ']' ≠ '\\' := by decide
  have hsplit := splitTop_search hdelimiter bracketText
  exact ⟨hdelimiter, hfound, (hsplit.1 _ _ hfound).1, (hsplit.1 _ _ hfound).2, hsplit.2.2.2⟩

/-- behind a backslash a quote opens no string, while a search that begins there takes it for one -/
example : splitTop '\\' "\\'\\".toList = ["".toList, "'".toList] ∧
    trim "".toList :: splitTop '\\' "'\\".toList = ["".toList, "'\\".toList] := by decide +kernel

end StubTemplate.Argument
