/-
Where a quoted string ends.

Two readers decide on the end of a string, each on its own. The scan of the top level takes a quote for an ordinary
character when a backslash stands right before it. Reading takes a backslash and the character after it as a pair, so
that two backslashes before a quote are a pair of their own and the quote closes the string.

Main result: `parse_strings_iff`. The two agree on a string exactly when its value does not end in a backslash, and
exactly then a string that follows it after a comma is read as the next argument. `string_swallows_next` is the
shortest string on which they do not agree.
-/
import StubTemplate.Proofs.Spelling

namespace StubTemplate.Argument

open Text Nesting

/-! ## The scan past a string -/

/-- a body whose value ends in a backslash leaves the scan after a backslash: nothing comes after the last pair -/
theorem readAll_body_open {q : Char} (hq : isQuote q = true) {s body : List Char} (h : SpellsBody q s body)
    (hs : s.getLast? = some '\\') {n : Nesting} (hn : n.quote = some q) : n.readAll body = ⟨n.depth, some q, true⟩ := by
  induction h generalizing n with
  | nil => cases hs
  | @plain c s body hbackslash hquote h ih =>
    cases s with
    | nil => exact absurd (Option.some.inj hs) hbackslash
    | cons d s =>
      rw [List.getLast?_cons_cons] at hs
      rw [readAll_cons, advance_inside hn (Or.inl hquote)]
      exact ih hs rfl
  | @escaped c s body h ih =>
    rw [readAll_cons, advance_inside hn (Or.inl (ne_of_isQuote hq (by decide)).symm), readAll_cons,
      advance_inside rfl (Or.inr rfl)]
    cases s with
    | nil =>
      cases h
      have hc : c = '\\' := Option.some.inj hs
      rw [readAll_nil, hc]
      rfl
    | cons d s =>
      rw [List.getLast?_cons_cons] at hs
      exact ih hs rfl

/-- the scan is past a spelled string exactly when its value does not end in a backslash -/
theorem SpellsString.isTop_readAll {s : String} {t : List Char} (h : SpellsString s t) :
    (Nesting.start.readAll t).isTop = true ↔ s.toList.getLast? ≠ some '\\' := by
  constructor
  · intro htop hs
    cases h with
    | @quoted q s body hq h =>
      have hbody : (⟨0, some q, false⟩ : Nesting).readAll body = ⟨0, some q, true⟩ := readAll_body_open hq h hs rfl
      have hclose : (⟨0, some q, true⟩ : Nesting).advance q = ⟨0, some q, q == '\\'⟩ := advance_inside rfl (Or.inr rfl)
      have hopen : Nesting.start.advance q = ⟨0, some q, false⟩ := advance_quote hq 0
      rw [List.cons_append, readAll_cons, hopen, readAll_append, hbody, readAll_cons, hclose, readAll_nil,
        isTop_of_quote rfl] at htop
      cases htop
  · intro hs
    have hback : Nesting.start.readAll t = outside 0 := (h.level hs 0).back
    rw [hback]
    rfl

/-! ## What follows a string -/

theorem getLast?_append_comma (s t : List Char) : (s ++ ',' :: t).getLast? = t.getLast?.or (some ',') := by
  rw [List.getLast?_append, List.getLast?_cons]
  cases t.getLast? <;> rfl

theorem length_le_of_spellsBody {q : Char} {s body : List Char} (h : SpellsBody q s body) :
    s.length ≤ body.length := by
  induction h with
  | nil => exact Nat.le_refl 0
  | plain _ _ _ ih => exact Nat.succ_le_succ ih
  | escaped _ ih => exact Nat.le_succ_of_le (Nat.succ_le_succ ih)

theorem SpellsString.trim_append_comma {s : String} {t : List Char} (h : SpellsString s t) (rest : List Char) :
    trim (t ++ ',' :: rest) = t ++ ',' :: trimEnd rest := by
  have htight : Tight (t ++ [] ++ [',']) := tight_append h.tight (tight_of_forall (by decide) (by decide))
  have htrim := htight.trim_append rest
  rwa [List.append_nil, List.append_assoc, List.append_assoc] at htrim

/-- a string with a comma and more behind it does not read as the string alone -/
theorem SpellsString.scalar_append_comma_ne {s : String} {t : List Char} (h : SpellsString s t) (rest : List Char) :
    Argument.scalar (t ++ ',' :: rest) ≠ .str s := by
  have htrim := h.trim_append_comma rest
  have htoken := congrArg trim htrim
  rw [trim_trim, htrim] at htoken
  rw [← scalar_trim, htrim]
  intro heq
  cases h with
  | @quoted q s body hq h =>
    have hform : q :: body ++ [q] ++ ',' :: trimEnd rest = q :: (body ++ q :: ',' :: trimEnd rest) := by simp
    rw [hform] at htoken heq
    by_cases hlast : (q :: (body ++ q :: ',' :: trimEnd rest)).getLast? = some q
    · -- the text ends in a quote like the first one, and what stands between them reads as more than the body
      obtain ⟨inner, hinner⟩ : ∃ inner, trimEnd rest = inner ++ [q] := by
        rw [← hform, getLast?_append_comma, Option.or_eq_some_iff] at hlast
        rcases hlast with hlast | ⟨-, hcomma⟩
        · exact List.getLast?_eq_some_iff.1 hlast
        · exact absurd (Option.some.inj hcomma).symm (ne_of_isQuote hq (by decide))
      have hwrap : q :: (body ++ q :: ',' :: trimEnd rest) = q :: (body ++ q :: ',' :: inner) ++ [q] := by
        rw [hinner]
        simp
      rw [hwrap, scalar_quoted hq, unescape_body_append h, unescape_cons (ne_of_isQuote hq (by decide))] at heq
      have hlength := congrArg List.length (congrArg String.toList (Value.str.inj heq))
      simp only [String.toList_ofList, List.length_append, List.length_cons] at hlength
      omega
    · rw [scalar_unclosed hq htoken.symm hlast] at heq
      have hlength := congrArg List.length (congrArg String.toList (Value.str.inj heq))
      have hle := length_le_of_spellsBody h
      simp only [String.toList_ofList, List.length_cons, List.length_append] at hlength
      omega

theorem SpellsString.parseElement_append_comma_ne {s : String} {t : List Char} (h : SpellsString s t)
    (rest : List Char) : Argument.parseElement (t ++ ',' :: rest) ≠ .ok (.str s) := by
  have harray : Argument.isArray (trim (t ++ ',' :: rest)) = false := by
    rw [h.trim_append_comma]
    cases h with
    | quoted hq h => exact isArray_of_head (ne_of_isQuote hq (by decide)) _
  rw [parseElement_scalar harray]
  intro heq
  exact h.scalar_append_comma_ne rest (Except.ok.inj heq)

/-- where the scan is not past a string, a comma behind it does not end the argument -/
theorem parse_append_comma_ne {s : String} {t : List Char} (h : SpellsString s t)
    (hopen : (Nesting.start.readAll t).isTop = false) (rest : List Char) (values : List Value) :
    parse (t ++ ',' :: rest) ≠ .ok (.str s :: values) := by
  have hsilent : Silent [','] .start (t ++ [',']) := by
    refine silent_append.2 ⟨(h.silent 0).mono (by decide), ?_, trivial⟩
    intro _
    rw [isTop_advance (by decide), hopen]
  obtain ⟨piece, pieces, hpieces⟩ :=
    List.exists_cons_of_ne_nil (piecesFrom_ne_nil ',' (Nesting.start.readAll (t ++ [','])) rest)
  have hcut := piecesFrom_append List.mem_cons_self hsilent hpieces
  rw [List.append_assoc, List.append_assoc, List.singleton_append, List.singleton_append] at hcut
  have hne : trim (t ++ ',' :: piece) ≠ [] := by
    rw [h.trim_append_comma]
    exact List.append_ne_nil_of_left_ne_nil h.tight.nonempty _
  obtain ⟨others, hothers⟩ := exists_dropEmptyLast hne (pieces.map trim)
  rw [parse, splitTop, hcut, List.map_cons, hothers]
  intro heq
  cases mapM_eq_ok_iff.1 heq with
  | cons hfirst _ =>
    rw [parseElement_trim] at hfirst
    exact h.parseElement_append_comma_ne piece hfirst

/-- where the scan is past a string, the string and one that follows it after a comma are read -/
theorem parse_strings {s s' : String} {t t' : List Char} (h : SpellsString s t) (h' : SpellsString s' t')
    (hs : s.toList.getLast? ≠ some '\\') : parse (t ++ [',', ' '] ++ t') = .ok [.str s, .str s'] := by
  have hblank : Blank [' '] := by decide
  have hsecond : splitTop ',' (' ' :: t') = [t'] := by
    have htrim : trim (' ' :: t') = t' := (trim_blank_append hblank t').trans h'.tight.trim_eq
    rw [← splitTop_trim (by decide), htrim, splitTop_silent (by decide) (h'.silent 0)]
    all_goals rw [h'.tight.trim_eq]
    exact h'.tight.nonempty
  have hsplit : splitTop ',' (t ++ [',', ' '] ++ t') = [t, t'] := by
    rw [List.append_assoc, List.cons_append, List.singleton_append,
      splitTop_append_cons (by decide) (by decide) (h.level hs 0), h.tight.trim_eq, hsecond]
  rw [parse, hsplit]
  exact mapM_eq_ok_iff.2 (.cons h.parseElement (.cons h'.parseElement .nil))

/--
**A string ends for the scan where it ends for reading exactly when its value does not end in a backslash**, and
exactly then another string, after a comma and a blank, is read as the next argument. What else the two values hold
makes no difference, nor does what the second one ends in.
-/
theorem parse_strings_iff {s s' : String} {t t' : List Char} (h : SpellsString s t) (h' : SpellsString s' t') :
    ((Nesting.start.readAll t).isTop = true ↔ s.toList.getLast? ≠ some '\\') ∧
      (parse (t ++ [',', ' '] ++ t') = .ok [.str s, .str s'] ↔ s.toList.getLast? ≠ some '\\') := by
  refine ⟨h.isTop_readAll, ?_, parse_strings h h'⟩
  intro hparse hs
  have hopen : (Nesting.start.readAll t).isTop = false := by
    rw [← Bool.not_eq_true, h.isTop_readAll, not_not]
    exact hs
  rw [List.append_assoc, List.cons_append] at hparse
  exact parse_append_comma_ne h hopen _ _ hparse

/-- a backslash, a quote and a letter, the first two after a backslash each -/
def escapedText : List Char := "'\\\\\\'a'".toList

/-- a backslash in quotes, after a backslash -/
def backslashText : List Char := "'\\\\'".toList

theorem spells_escaped : SpellsString "\\'a" escapedText := by
  have hbody : SpellsBody '\x27' "\\'a".toList "\\\\\\'a".toList :=
    .escaped (.escaped (.plain (by decide) (by decide) .nil))
  exact .quoted rfl hbody

theorem spells_backslash : SpellsString "\\" backslashText := by
  have hbody : SpellsBody '\x27' "\\".toList "\\\\".toList := .escaped .nil
  exact .quoted rfl hbody

theorem parse_strings_iff_backslash_last :
    parse (escapedText ++ [',', ' '] ++ backslashText) = .ok [.str "\\'a", .str "\\"] :=
  (parse_strings_iff spells_escaped spells_backslash).2.2 (by decide)

/-- **A string that is a backslash takes in the string after it**: the two are read as one -/
theorem string_swallows_next :
    SpellsString "\\" backslashText ∧ SpellsString "b" "'b'".toList ∧
    parse (backslashText ++ [',', ' '] ++ "'b'".toList) = .ok [.str "\\', 'b"] ∧
    parse (backslashText ++ [',', ' '] ++ "'b'".toList) ≠ .ok [.str "\\", .str "b"] := by
  have hletter : SpellsString "b" ('\x27' :: ['b'] ++ ['\x27']) := .quoted rfl (.plain (by decide) (by decide) .nil)
  have hsplit : splitTop ',' (backslashText ++ [',', ' '] ++ "'b'".toList)
      = ['\x27' :: "\\\\', 'b".toList ++ ['\x27']] := by decide +kernel
  have hscalar : scalar ('\x27' :: "\\\\', 'b".toList ++ ['\x27']) = .str "\\', 'b" := scalar_quoted rfl _
  have hparse : parse (backslashText ++ [',', ' '] ++ "'b'".toList) = .ok [.str "\\', 'b"] := by
    rw [parse, hsplit]
    exact mapM_eq_ok_iff.2 (.cons ((parseElement_scalar (by decide)).trans (congrArg _ hscalar)) .nil)
  refine ⟨spells_backslash, hletter, hparse, ?_⟩
  rw [hparse]
  intro heq
  have hlength := congrArg List.length (Except.ok.inj heq)
  cases hlength

end StubTemplate.Argument
