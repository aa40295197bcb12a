/-
No slice is taken off a boundary.

The last of the work by offsets is to fill a template: to find its placeholders, to read the arguments of each, and to
replace its text once, all of which goes as it does by characters (`follows_inject`).

Main result: `slices_on_boundaries`, about everything on the way that takes slices, from one placeholder up to the whole
template.
-/
import StubTemplate.Proofs.ArgumentOffsets
import StubTemplate.Proofs.Calls
import StubTemplate.Proofs.PlaceholderOffsets

namespace StubTemplate.ByOffset

open Text
open Argument (cutTop)

variable (scan : Nesting → Char → Nesting)

/-! ## Filling a template -/

/-- what the processor of a placeholder makes of its arguments -/
def resolve (r : Registry) (files : Files) (base : String) (i : Invocation) : Except Failure String := do
  let arguments ← parse scan i.arguments
  let processor ← (r.get (String.ofList i.name)).mapError .reported
  (processor.process files base arguments).mapError .reported

/-- fills placeholders in a text, one after the other, and passes over those with a text that is done -/
def fillEach (resolve : Invocation → Except Failure String) :
    (done : List (List Char)) → List Invocation → List Char → Except Failure String
  | _, [], text => .ok (String.ofList text)
  | done, i :: rest, text =>
    if i.matched ∈ done then fillEach resolve done rest text
    else do
      let output ← resolve i
      fillEach resolve (i.matched :: done) rest (replaceAll i.matched output.toList text)

/-- fills every placeholder of a template -/
def inject (r : Registry) (files : Files) (base template : String) : Except Failure String := do
  let found ← placeholders template.toList
  fillEach (resolve scan r files base) [] found template.toList

theorem follows_resolve (r : Registry) (files : Files) (base : String) (f : Placeholder × Nat) :
    Follows (scan = Nesting.advance) (resolve scan r files base (.ofLocated f)) (r.resolve files base f.1) :=
  (follows_parse scan f.1.arguments).bind fun _ => (Follows.refl _).bind fun _ => .refl _

theorem result_fillEach_cons (resolve : Placeholder → Except Error String) (p : Placeholder) (ps : List Placeholder)
    (text : List Char) : (Injection.fillEach resolve (p :: ps) text).result = (do
      let output ← resolve p
      (Injection.fillEach resolve ps (replaceAll p.text output.toList text)).result) := by
  rw [Injection.fillEach]
  cases resolve p <;> rfl

/-- passing over the texts that are done leaves each of the others once, at the place where it first comes -/
theorem follows_fillEach {P : Prop} {resolve' : Invocation → Except Failure String}
    {resolve : Placeholder → Except Error String} (hresolve : ∀ f, Follows P (resolve' (.ofLocated f)) (resolve f.1))
    {found : List (Placeholder × Nat)} (hfound : ∀ f ∈ found, f.1.WellFormed) (done : List (List Char))
    (text : List Char) :
    Follows P (fillEach resolve' done (found.map .ofLocated) text)
      (Injection.fillEach resolve ((found.map Prod.fst).filter fun p => p.text ∉ done).eraseDups text).result := by
  induction found generalizing done text with
  | nil => exact .ok fun _ => rfl
  | cons f found ih =>
    obtain ⟨hf, hfound⟩ := List.forall_mem_cons.1 hfound
    have hmatched : (Invocation.ofLocated f).matched = f.1.text := rfl
    rw [List.map_cons, List.map_cons, fillEach, hmatched]
    by_cases hdone : f.1.text ∈ done
    · rw [if_pos hdone, List.filter_cons_of_neg (by simpa using hdone)]
      exact ih hfound done text
    · have hrest : ((found.map Prod.fst).filter fun p => p.text ∉ done).filter (fun p => !p == f.1)
          = (found.map Prod.fst).filter fun p => p.text ∉ f.1.text :: done := by
        rw [List.filter_filter]
        refine List.filter_congr fun p hp => ?_
        obtain ⟨g, hg, rfl⟩ := List.mem_map.1 hp
        have htext : g.1 = f.1 ↔ g.1.text = f.1.text :=
          ⟨congrArg Placeholder.text, fun h => ((hfound g hg).eq_of_append_eq hf (congrArg (· ++ []) h)).1⟩
        rw [Bool.eq_iff_iff]
        simp [htext]
      rw [if_neg hdone, List.filter_cons_of_pos (by simpa using hdone), List.eraseDups_cons, hrest,
        result_fillEach_cons]
      exact (hresolve f).bind fun output => ih hfound _ _

theorem follows_inject (r : Registry) (files : Files) (base template : String) :
    Follows (scan = Nesting.advance) (inject scan r files base template) (r.inject files base template).result := by
  have hwell : ∀ f ∈ (Template.ofText template.toList).located, f.1.WellFormed := by
    intro f hf
    obtain ⟨-, -, hwell, -, -⟩ := Template.wellFormed_of_mem_locatedFrom hf
    exact hwell
  have hfill := follows_fillEach (follows_resolve scan r files base) hwell [] template.toList
  have hall : ((Template.ofText template.toList).located.map Prod.fst).filter (fun p => p.text ∉ ([] : List (List Char)))
      = (Template.ofText template.toList).placeholders := by
    rw [List.filter_eq_self.2 (by simp)]
    exact Template.map_fst_locatedFrom 0 _
  rw [hall] at hfill
  rw [inject, placeholders_eq]
  exact hfill

/--
**No slice is taken off a boundary.** There is a slice exactly from one position of a string to another that does not
come before it. Whatever the text, and whatever the scan says is top level, none of this ends for want of a slice:
reading a placeholder at a byte, also inside of a character, and finding all of them; cutting at any delimiter and
searching for any pattern; looking for a single `=`, telling a numeral, reading an array and the arguments; and filling a
template. With the scan of the characters each of these does what is done by characters.
-/
theorem slices_on_boundaries :
    (∀ (s : String) start stop, (∃ t, slice s.toList start stop = .ok t) ↔
      start ≤ stop ∧ String.Pos.Raw.IsValid s ⟨start⟩ ∧ String.Pos.Raw.IsValid s ⟨stop⟩) ∧
    (∀ s start, AllSlices (placeholderAt s start)) ∧
    (∀ s, AllSlices (placeholders s)) ∧
    (∀ scan delimiter s, AllSlices (splitTop scan delimiter s)) ∧
    (∀ scan pattern accepts s, AllSlices (findTop scan pattern accepts s)) ∧
    (∀ scan element, AllSlices (hasSingleEquals scan element)) ∧
    (∀ token, AllSlices (isNumeral token)) ∧
    (∀ scan literal, AllSlices (parseArray scan literal)) ∧
    (∀ scan s, AllSlices (parse scan s)) ∧
    (∀ scan r files base template, AllSlices (inject scan r files base template)) ∧
    (∀ s, placeholders s = .ok ((Template.ofText s).located.map Invocation.ofLocated)) ∧
    (∀ delimiter s, splitTop Nesting.advance delimiter s = .ok (Argument.splitTop delimiter s)) ∧
    (∀ first rest accepts s, findTop Nesting.advance (first :: rest) accepts s
      = .ok ((cutTop (first :: rest) (accepts first) s).map fun cut => utf8Size cut.1)) ∧
    (∀ element, hasSingleEquals Nesting.advance element = .ok (Argument.hasSingleEquals element)) ∧
    (∀ token, isNumeral token = .ok (Numeral.read? token).isSome) ∧
    (∀ literal, parseArray Nesting.advance literal = (Argument.parseArray literal).mapError .reported) ∧
    (∀ s, parse Nesting.advance s = (Argument.parse s).mapError .reported) ∧
    ∀ r files base template,
      inject Nesting.advance r files base template = (r.inject files base template).result.mapError .reported := by
  refine ⟨?_, ?_, ?_, ?_, ?_, ?_, ?_, ?_, ?_, ?_, placeholders_eq, ?_, ?_, ?_, isNumeral_eq, ?_, ?_, ?_⟩
  · intro s start stop
    rw [exists_slice_iff, isBoundary_iff, isBoundary_iff, String.ofList_toList]
  · intro s start
    obtain ⟨found, hfound⟩ := exists_placeholderAt s start
    exact allSlices_of_eq_ok hfound
  · exact fun s => allSlices_of_eq_ok (placeholders_eq s)
  · intro scan delimiter s
    obtain ⟨pieces, hpieces, -, -⟩ := exists_splitTop scan delimiter s
    exact allSlices_of_eq_ok hpieces
  · intro scan pattern accepts s
    obtain ⟨cut, hcut, -, -⟩ := exists_findTop scan pattern accepts s
    exact allSlices_of_eq_ok hcut
  · intro scan element
    obtain ⟨b, hb, -⟩ := exists_hasSingleEquals scan element
    exact allSlices_of_eq_ok hb
  · exact fun token => allSlices_of_eq_ok (isNumeral_eq token)
  · exact fun scan literal => (follows_parseArray scan literal).allSlices
  · exact fun scan s => (follows_parse scan s).allSlices
  · exact fun scan r files base template => (follows_inject scan r files base template).allSlices
  · intro delimiter s
    obtain ⟨pieces, hpieces, -, hmodel⟩ := exists_splitTop Nesting.advance delimiter s
    rw [hpieces, hmodel rfl]
  · intro first rest accepts s
    obtain ⟨cut, hcut, -, hmodel⟩ := exists_findTop Nesting.advance (first :: rest) accepts s
    rw [hcut, hmodel rfl first rfl]
  · intro element
    obtain ⟨b, hb, hmodel⟩ := exists_hasSingleEquals Nesting.advance element
    rw [hb, hmodel rfl]
  · exact fun literal => (follows_parseArray _ literal).eq rfl
  · exact fun s => (follows_parse _ s).eq rfl
  · exact fun r files base template => (follows_inject _ r files base template).eq rfl

end StubTemplate.ByOffset
