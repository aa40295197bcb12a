/-
Filling a template that calls one thing, however often it stands there.

Finding placeholders and replacing a text are two searches, and both go from the left and never look again at what they
have passed. Where all placeholders of a template are one, they stop at the same places (`replaceAll_eq_fill`): an
occurrence of a placeholder's text is what reading a placeholder finds there, also where it shares its `%` with the one
before it. Nothing is asked of the output, since after one replacement there is nothing left to replace.

Main result: `inject_repeated`.
-/
import StubTemplate.Proofs.Calls

namespace StubTemplate

open Text

namespace Template

theorem placeholders_hole (p : Placeholder) (t : Template) : placeholders (.hole p :: t) = p :: placeholders t := rfl

theorem placeholders_char (c : Char) (t : Template) : placeholders (.char c :: t) = placeholders t := rfl

/-- where a template holds no other placeholder, replacing the text of one fills exactly its places -/
theorem replaceAll_eq_fill {p : Placeholder} (hp : p.WellFormed) (filler : List Char) {s : List Char}
    (h : ∀ q ∈ (ofText s).placeholders, q = p) : replaceAll p.text filler s = (ofText s).fill fun _ => filler := by
  fun_induction ofText s with
  | case1 =>
    rw [replaceAll]
    rfl
  | case2 c rest q after hread ih =>
    rw [placeholders_hole, List.forall_mem_cons] at h
    obtain ⟨rfl, hrest⟩ := h
    have htext := (Placeholder.read?_eq_some_iff.1 hread).2
    rw [htext, replaceAll_pattern_append q.text_ne_nil, ih hrest]
    rfl
  | case3 c rest hread ih =>
    rw [placeholders_char] at h
    have hmiss : ¬ p.text <+: c :: rest := by
      rintro ⟨after, hafter⟩
      rw [Placeholder.read?_eq_some_iff.2 ⟨hp, hafter.symm⟩] at hread
      cases hread
    rw [replaceAll_cons hmiss, ih h]
    rfl

end Template

/-- of elements that are all the same, the first is left -/
theorem eraseDups_eq_take_one {α : Type} [BEq α] [LawfulBEq α] {l : List α} (h : ∀ a ∈ l, ∀ b ∈ l, a = b) :
    l.eraseDups = l.take 1 := by
  cases l with
  | nil => rfl
  | cons a l =>
    have hnone : l.filter (fun b => !b == a) = [] := by
      rw [List.filter_eq_nil_iff]
      intro b hb
      simp [h b (List.mem_cons_of_mem a hb) a List.mem_cons_self]
    rw [List.eraseDups_cons, hnone]
    rfl

namespace Registry

open Template

/--
**A template with one distinct placeholder is filled exactly, whatever the output is.** Where all placeholders found have
the same text, the first is resolved and nothing else, and the template is given with each placeholder, at its offset and
of its length, replaced by the output.
-/
theorem inject_repeated (r : Registry) (files : Files) (base template output : String)
    (hsame : ∀ p ∈ (ofText template.toList).placeholders, ∀ q ∈ (ofText template.toList).placeholders, p.text = q.text)
    (hresolve : ∀ p ∈ (ofText template.toList).placeholders, r.resolve files base p = .ok output) :
    (r.inject files base template).resolved
        = ((ofText template.toList).placeholders.take 1).map (fun p => (p, .ok output)) ∧
      ∃ text, (r.inject files base template).result = .ok text ∧
        utf8 text.toList = splice (utf8 template.toList) 0
          (edits (fun _ => output.toList) (ofText template.toList).located) := by
  have heq : ∀ p ∈ (ofText template.toList).placeholders, ∀ q ∈ (ofText template.toList).placeholders, p = q := by
    intro p hp q hq
    exact eq_of_text_eq hp hq (hsame p hp q hq)
  rw [splice_located, inject, eraseDups_eq_take_one heq]
  cases hfound : (ofText template.toList).placeholders with
  | nil =>
    have hnone : ∀ p, Segment.hole p ∉ ofText template.toList := by
      intro p hp
      rw [← mem_placeholders_iff, hfound] at hp
      cases hp
    refine ⟨rfl, template, ?_, ?_⟩
    · rw [List.take_nil, Injection.fillEach, String.ofList_toList]
    · rw [fill_eq_text hnone, text_ofText]
  | cons p rest =>
    rw [hfound] at heq hresolve
    have hp := (wellFormed_of_mem_placeholders (hfound ▸ List.mem_cons_self)).1
    have honly : ∀ q ∈ (ofText template.toList).placeholders, q = p := by
      intro q hq
      exact heq q (hfound ▸ hq) p List.mem_cons_self
    have hrun : Injection.fillEach (r.resolve files base) [p] template.toList
        = ⟨.ok (String.ofList (replaceAll p.text output.toList template.toList)), [(p, .ok output)]⟩ := by
      rw [Injection.fillEach, hresolve p List.mem_cons_self]
      rfl
    rw [List.take_succ_cons, List.take_zero, hrun]
    exact ⟨rfl, _, rfl, by rw [String.toList_ofList, replaceAll_eq_fill hp _ honly]⟩

/-- a processor whose output calls it again -/
def selfCalling : Registry where
  processors := [⟨"again", fun _ _ _ => .ok "%again()%"⟩]
  valid := by decide
  distinct := by decide

/-- three calls, of which the second would have to share a `%` with the first -/
def touching : String := "%again()%again()%%again()%!"

theorem inject_repeated_touching :
    (selfCalling.inject noFiles "" touching).resolved = [(⟨"again".toList, []⟩, .ok "%again()%")] ∧
      ∃ text, (selfCalling.inject noFiles "" touching).result = .ok text ∧
        utf8 text.toList = splice (utf8 touching.toList) 0
          [⟨0, 9, utf8 "%again()%".toList⟩, ⟨17, 9, utf8 "%again()%".toList⟩] := by
  have h := inject_repeated selfCalling noFiles "" touching "%again()%" (by decide +kernel) (by decide +kernel)
  have hfirst : (ofText touching.toList).placeholders.take 1 = [⟨"again".toList, []⟩] := by decide +kernel
  have hlocated : (ofText touching.toList).located = [(⟨"again".toList, []⟩, 0), (⟨"again".toList, []⟩, 17)] := by
    decide +kernel
  rw [hfirst, hlocated] at h
  exact h

end Registry

end StubTemplate
