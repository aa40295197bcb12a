/-
The text of a placeholder says by itself where it ends.

A placeholder that was found in some template is read wherever its text stands, whatever comes before and after it: the
bytes behind it could go on with a name, a parenthesis or a `%`, and reading stops at the same `)%` all the same.

Main result: `located_self_delimiting`. Hence no placeholder's text starts with that of another one, and replacing the
text of a placeholder rewrites only what reads as this placeholder.
-/
import StubTemplate.Proofs.PlaceholderOffsets
import StubTemplate.Proofs.Replacement
import StubTemplate.Proofs.Sequences

namespace StubTemplate

namespace Text

/-- what the bytes of a text start with, the text starts with -/
theorem prefix_of_utf8_prefix {s t : List Char} (h : utf8 s <+: utf8 t) : s <+: t := by
  induction s generalizing t with
  | nil => exact List.nil_prefix
  | cons c s ih =>
    cases t with
    | nil =>
      have hnil : utf8 (c :: s) = [] := List.prefix_nil.1 h
      exact absurd (utf8_eq_nil_iff.1 hnil) (List.cons_ne_nil c s)
    | cons d t =>
      rw [utf8_cons, utf8_cons] at h
      have hc : String.utf8EncodeChar c <+: String.utf8EncodeChar d ++ utf8 t := (List.prefix_append _ _).trans h
      have hcd : c = d := by
        rcases List.prefix_or_prefix_of_prefix hc (List.prefix_append _ _) with hle | hle
        · exact eq_of_prefix_utf8EncodeChar hle
        · exact (eq_of_prefix_utf8EncodeChar hle).symm
      subst hcd
      exact List.cons_prefix_cons.2 ⟨rfl, ih ((List.prefix_append_right_inj _).1 h)⟩

/-- replacement keeps what stands between the occurrences, and puts the filler in the place of each of these -/
theorem exists_pieces {pattern : List Char} (hpattern : pattern ≠ []) (s : List Char) : ∃ pieces, pieces ≠ [] ∧
    s = pattern.intercalate pieces ∧ ∀ filler, replaceAll pattern filler s = filler.intercalate pieces := by
  induction s using replaceAll.induct pattern with
  | case1 => exact ⟨[[]], by simp, by simp, by simp [replaceAll]⟩
  | case2 c rest hhit ih =>
    obtain ⟨after, hafter⟩ := hhit.2
    rw [← hafter, List.drop_left] at ih
    obtain ⟨pieces, hne, hs, hreplace⟩ := ih
    obtain ⟨piece, pieces, rfl⟩ := List.exists_cons_of_ne_nil hne
    refine ⟨[] :: piece :: pieces, List.cons_ne_nil _ _, ?_, ?_⟩
    · rw [List.intercalate_cons_cons, ← hs, ← hafter, List.nil_append]
    · intro filler
      rw [← hafter, replaceAll_pattern_append hpattern, hreplace, List.intercalate_cons_cons, List.nil_append]
  | case3 c rest hmiss ih =>
    obtain ⟨pieces, hne, hs, hreplace⟩ := ih
    obtain ⟨piece, pieces, rfl⟩ := List.exists_cons_of_ne_nil hne
    have hcons : ∀ separator : List Char,
        separator.intercalate ((c :: piece) :: pieces) = c :: separator.intercalate (piece :: pieces) := by
      intro separator
      cases pieces <;> simp [List.intercalate_cons_cons]
    refine ⟨(c :: piece) :: pieces, List.cons_ne_nil _ _, ?_, ?_⟩
    · rw [hcons, ← hs]
    · intro filler
      rw [replaceAll_cons fun hstart => hmiss ⟨hpattern, hstart⟩, hreplace, hcons]

end Text

open Text Placeholder ByOffset

/-- wherever the bytes of a text have those of a placeholder, the placeholder is read -/
theorem Placeholder.WellFormed.placeholderAt_eq {p : Placeholder} (hp : p.WellFormed) {u : List Char} {n : Nat}
    (h : utf8 p.text <+: (utf8 u).drop n) : ∃ before after, u = before ++ (p.text ++ after) ∧ n = utf8Size before ∧
      read? (p.text ++ after) = some (p, after) ∧ placeholderAt u n = .ok (some (.ofLocated (p, n))) := by
  obtain ⟨rest, hrest⟩ := h
  have hbyte : (utf8 u)[n]? = some '%'.toUInt8 := by
    rw [← Nat.add_zero n, ← List.getElem?_drop, ← hrest, utf8_text]
    rfl
  obtain ⟨before, y, rfl, rfl⟩ := exists_of_getElem?_utf8 (by decide) hbyte
  have hprefix : utf8 p.text <+: utf8 ('%' :: y) := by
    have hdrop := drop_utf8_append before ('%' :: y) 0
    rw [Nat.add_zero, List.drop_zero, ← hrest] at hdrop
    exact ⟨rest, hdrop⟩
  obtain ⟨after, hafter⟩ := prefix_of_utf8_prefix hprefix
  have hread : read? (p.text ++ after) = some (p, after) := read?_eq_some_iff.2 ⟨hp, rfl⟩
  refine ⟨before, after, by rw [hafter], rfl, hread, ?_⟩
  rw [← hafter, placeholderAt_append, hread]
  rfl

namespace Template

/--
**A placeholder's text says where it ends.** Let `p` be found in some template. Wherever the bytes of a text have those
of `p`, the placeholder that is read there is `p`, with all of its text and nothing else. No placeholder found in any
template has a text that starts with that of `p`, but `p` itself. And replacing the text of `p` rewrites, whatever the
filler, the places between some pieces of a text, at each of which `p` is read.
-/
theorem located_self_delimiting {template : List Char} {f : Placeholder × Nat} (hf : f ∈ (ofText template).located) :
    (∀ u n, utf8 f.1.text <+: (utf8 u).drop n →
      (∃ before after, u = before ++ (f.1.text ++ after) ∧ n = utf8Size before ∧
        read? (f.1.text ++ after) = some (f.1, after)) ∧
      placeholderAt u n = .ok (some ⟨f.1.name, f.1.arguments, f.1.text, n⟩)) ∧
    (∀ template' g, g ∈ (ofText template').located → f.1.text <+: g.1.text → g.1 = f.1) ∧
    ∀ u, ∃ pieces, u = f.1.text.intercalate pieces ∧
      (∀ filler, replaceAll f.1.text filler u = filler.intercalate pieces) ∧
      ∀ before after, pieces = before ++ after → before ≠ [] → after ≠ [] →
        placeholderAt u (utf8Size (f.1.text.intercalate before))
          = .ok (some ⟨f.1.name, f.1.arguments, f.1.text, utf8Size (f.1.text.intercalate before)⟩) := by
  obtain ⟨-, -, hp, -, -⟩ := wellFormed_of_mem_locatedFrom hf
  refine ⟨?_, ?_, ?_⟩
  · intro u n h
    obtain ⟨before, after, hu, hn, hread, hfound⟩ := hp.placeholderAt_eq h
    exact ⟨⟨before, after, hu, hn, hread⟩, hfound⟩
  · intro template' g hg hprefix
    obtain ⟨-, -, hq, -, -⟩ := wellFormed_of_mem_locatedFrom hg
    obtain ⟨rest, hrest⟩ := hprefix
    have heq : f.1.text ++ rest = g.1.text ++ [] := by rw [hrest, List.append_nil]
    exact (hp.eq_of_append_eq hq heq).1.symm
  · intro u
    obtain ⟨pieces, -, hu, hreplace⟩ := exists_pieces f.1.text_ne_nil u
    refine ⟨pieces, hu, hreplace, ?_⟩
    intro before after hpieces hbefore hafter
    have hsplit : u = f.1.text.intercalate before ++ (f.1.text ++ f.1.text.intercalate after) := by
      rw [hu, hpieces, intercalate_append _ hbefore hafter]
    have hbytes : utf8 f.1.text <+: (utf8 u).drop (utf8Size (f.1.text.intercalate before)) := by
      have hdrop := drop_utf8_append (f.1.text.intercalate before) (f.1.text ++ f.1.text.intercalate after) 0
      rw [Nat.add_zero, List.drop_zero, ← hsplit, utf8_append] at hdrop
      exact ⟨_, hdrop.symm⟩
    obtain ⟨-, -, -, -, -, hfound⟩ := hp.placeholderAt_eq hbytes
    exact hfound

/-- a call whose arguments end with a `)` of their own -/
def parenCall : Placeholder := ⟨"a".toList, "é %)".toList⟩

theorem located_self_delimiting_parenCall :
    placeholderAt "%%a(é %))%b(%a(é %))%".toList 1
      = .ok (some ⟨"a".toList, "é %)".toList, "%a(é %))%".toList, 1⟩) := by
  have hf : (parenCall, 0) ∈ (ofText "%a(é %))%".toList).located := by decide +kernel
  exact ((located_self_delimiting hf).1 _ 1 (by decide +kernel)).2

end Template

end StubTemplate
