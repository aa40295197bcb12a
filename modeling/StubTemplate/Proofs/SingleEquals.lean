/-
An `=` in an array where `=>` is meant.

`BareEquals` is an `=` at the top level of an element that is not part of `=>`. With a text on both sides it is a mistake.
An element is searched for such a sign once, and only the first one is looked at: `hasSingleEquals_iff` says which
elements are refused.

Main result: `parseArray_single_equals`. An array with such a mistake is refused, unless one more sign stands in the same
element with no text before it. Then the mistake goes unseen; `leading_equals_hides` is such an array.
-/
import StubTemplate.Proofs.Spelling

namespace StubTemplate.Argument

open Text

/-- an `=` at the top level of a text that is not part of `=>`, with what stands before and after it -/
structure BareEquals (text before after : List Char) : Prop where
  text_eq : text = before ++ '=' :: after
  top : (Nesting.start.readAll before).isTop = true
  bare : after.head? ≠ some '>'

instance (text before after : List Char) : Decidable (BareEquals text before after) :=
  decidable_of_iff (text = before ++ '=' :: after ∧ (Nesting.start.readAll before).isTop = true ∧ after.head? ≠ some '>')
    ⟨fun ⟨h, htop, hbare⟩ => ⟨h, htop, hbare⟩, fun ⟨h, htop, hbare⟩ => ⟨h, htop, hbare⟩⟩

theorem bareEquals_of_cutTop {text before after : List Char}
    (h : cutTop ['='] (fun next => next != some '>') text = some (before, after)) : BareEquals text before after := by
  rw [cutTop, if_neg (List.cons_ne_nil _ _)] at h
  have htext := eq_append_of_cutFrom h
  obtain ⟨htop, haccepts⟩ := isTop_of_cutFrom h
  refine ⟨by rw [htext, List.append_assoc]; rfl, ?_, by simpa using haccepts⟩
  rwa [Nesting.isTop_advance (by decide)] at htop

/-- the search finds the first of all such signs -/
theorem BareEquals.exists_cutTop {text before after : List Char} (h : BareEquals text before after) :
    ∃ cut, cutTop ['='] (fun next => next != some '>') text = some cut ∧ cut.1 <+: before := by
  have htop : ((Nesting.start.readAll before).advance '=').isTop = true := by
    rw [Nesting.isTop_advance (by decide)]
    exact h.top
  rw [cutTop, if_neg (List.cons_ne_nil _ _), h.text_eq]
  exact exists_cutFrom htop (by simpa using h.bare)

/-- an element is refused if an `=` stands between two texts in it and none stands before all text -/
theorem hasSingleEquals_iff {text : List Char} : hasSingleEquals text = true ↔
    (∃ before after, BareEquals text before after ∧ ¬ Blank before ∧ ¬ Blank after) ∧
      ∀ before after, BareEquals text before after → ¬ Blank before := by
  constructor
  · intro h
    rw [hasSingleEquals] at h
    split at h
    · cases h
    · rename_i before after hcut
      simp only [Bool.and_eq_true, bne_iff_ne, ne_eq, trim_eq_nil_iff] at h
      refine ⟨⟨before, after, bareEquals_of_cutTop hcut, h⟩, ?_⟩
      intro before' after' h' hblank
      obtain ⟨cut, hcut', hstart⟩ := h'.exists_cutTop
      cases hcut.symm.trans hcut'
      exact h.1 fun c hc => hblank c (hstart.subset hc)
  · rintro ⟨⟨before, after, h, hbefore, hafter⟩, hfirst⟩
    obtain ⟨⟨u, v⟩, hcut, w, hw⟩ := h.exists_cutTop
    have hbare := bareEquals_of_cutTop hcut
    have hv : ¬ Blank v := by
      have htext : u ++ '=' :: v = u ++ (w ++ '=' :: after) := by
        rw [← hbare.text_eq, h.text_eq, ← hw, List.append_assoc]
      cases w with
      | nil =>
        cases List.append_cancel_left htext
        exact hafter
      | cons c w =>
        -- the sign between the two texts stands after the first one
        have hrest := (List.cons.inj (List.append_cancel_left htext)).2
        intro hblank
        have hequals := hblank '=' (by simp [hrest])
        exact absurd hequals (by decide)
    rw [hasSingleEquals, hcut]
    simp [trim_eq_nil_iff, hfirst u v hbare, hv]

/-- an array that is read has no element that is refused -/
theorem hasSingleEquals_eq_false {texts : List (List Char)} {es : List Element} (h : parseElements texts = .ok es) :
    ∀ text ∈ texts, hasSingleEquals text = false := by
  have hreads := (reads_of_parseElements h).flip.imp fun text e hreads => And.intro hreads.1 hreads
  exact ((List.forall₂_and_left _ _).1 hreads).1

theorem exists_error_of_hasSingleEquals {literal text : List Char} (htext : text ∈ elementTexts (trim literal))
    (h : hasSingleEquals text = true) : ∃ e, parseArray literal = .error e := by
  cases hread : parseArray literal with
  | error e => exact ⟨e, rfl⟩
  | ok v =>
    obtain ⟨es, hes, -⟩ := exists_of_parseArray hread
    rw [hasSingleEquals_eq_false hes text htext] at h
    cases h

/--
**A single equals sign between two texts is rejected, unless another comes before all text.** If an element of an array
has an `=` at the top level that is not part of `=>`, with text before and after it, then reading the array fails, or the
element has such an `=` with nothing but blanks before it.
-/
theorem parseArray_single_equals {literal text : List Char} (htext : text ∈ elementTexts (trim literal))
    {before after : List Char} (h : BareEquals text before after) (hbefore : ¬ Blank before) (hafter : ¬ Blank after) :
    (∃ e, parseArray literal = .error e) ∨ ∃ before' after', BareEquals text before' after' ∧ Blank before' := by
  by_cases hfirst : ∀ before' after', BareEquals text before' after' → ¬ Blank before'
  · have hrefused := hasSingleEquals_iff.2 ⟨⟨before, after, h, hbefore, hafter⟩, hfirst⟩
    exact .inl (exists_error_of_hasSingleEquals htext hrefused)
  · simp only [not_forall, Classical.not_not] at hfirst
    obtain ⟨before', after', h', hblank⟩ := hfirst
    exact .inr ⟨before', after', h', hblank⟩

theorem parseArray_single_equals_after_arrow : ∃ e, parseArray "['a' => 'b' = 'c', 1]".toList = .error e := by
  have htext : "'a' => 'b' = 'c'".toList ∈ elementTexts (trim "['a' => 'b' = 'c', 1]".toList) := by decide +kernel
  have hequals : BareEquals "'a' => 'b' = 'c'".toList "'a' => 'b' ".toList " 'c'".toList := by decide +kernel
  rcases parseArray_single_equals htext hequals (by decide) (by decide) with he | ⟨before, after, hbare, hblank⟩
  · exact he
  · -- the element starts with a quote, which is neither the sign nor a blank
    cases before with
    | nil => exact absurd hbare.text_eq (by simp)
    | cons c before =>
      have hquote : '\x27' = c := (List.cons.inj hbare.text_eq).1
      exact absurd (hblank c List.mem_cons_self) (by rw [← hquote]; decide)

/-- **An equals sign before all text hides the mistake after it**: the element is read as a bare string -/
theorem leading_equals_hides : elementTexts (trim "[= a = b]".toList) = ["= a = b".toList] ∧
    BareEquals "= a = b".toList "= a ".toList " b".toList ∧ ¬ Blank "= a ".toList ∧ ¬ Blank " b".toList ∧
    parseArray "[= a = b]".toList = .ok (.list [.str "= a = b"]) := by
  have htexts : elementTexts (trim "[= a = b]".toList) = ["= a = b".toList] := by decide +kernel
  have hitem : Reads (.item (.str "= a = b")) "= a = b".toList :=
    ⟨by decide +kernel, by decide +kernel, parseElement_scalar (by decide)⟩
  refine ⟨htexts, by decide +kernel, by decide, by decide, ?_⟩
  rw [parseArray, htexts, parseElements_of_reads (.cons hitem .nil)]
  rfl

end StubTemplate.Argument
