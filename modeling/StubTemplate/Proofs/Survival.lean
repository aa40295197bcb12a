/-
What becomes of a placeholder while the ones before it are replaced, and of its output afterwards.

Replacement is by text, so a placeholder can lose a `%` that its text shares with a placeholder replaced earlier;
`inject_loses_placeholder` is such a run. Main result: `inject_survival`. That is the only way to lose one (`Shared`),
and an output is lost again only inside the text of a later placeholder (`Enclosed`).

Step and run: what one replacement does not meet it keeps (`infix_replaceAll`), so a text that is lost in a run is lost
at one turn, where every occurrence of it was met (`infix_filled_or`).
-/
import StubTemplate.Proofs.Sequences
import StubTemplate.Proofs.Substitution

namespace StubTemplate

open Text

/-! ## Texts that meet -/

namespace Placeholder

/-- the text holds `p`, and each time its first or its last `%` belongs to `q` as well -/
def Shared (q p : Placeholder) (text : List Char) : Prop :=
  p.text <:+: text ∧ ∀ a b, text = a ++ p.text ++ b → q.text <:+ a ++ ['%'] ∨ q.text <+: '%' :: b

/-- the text holds `s`, and each time inside of `q` -/
def Enclosed (q : Placeholder) (s text : List Char) : Prop :=
  s <:+: text ∧ ∀ a b, text = a ++ s ++ b → ∃ x y, q.text = x ++ s ++ y ∧ x <:+ a ∧ y <+: b

/-- two placeholders that meet share a `%` -/
theorem WellFormed.shared_of_not_clear {p q : Placeholder} (hp : p.WellFormed) (hq : q.WellFormed) (hne : p ≠ q)
    {a b : List Char} (h : ¬ Clear q.text a p.text b) : q.text <:+ a ++ ['%'] ∨ q.text <+: '%' :: b := by
  have hdistinct : ∀ y, p.text ++ b ≠ q.text ++ y := by
    intro y hy
    exact hne (hp.eq_of_append_eq hq hy).1
  rcases exists_of_not_clear h with ⟨x, z, y, hz, hptext, hmeet⟩ | ⟨u, x, z, y, hz, ha, hqtext, hmeet⟩
  · rcases hp.overlap hq hptext hmeet.symm with rfl | rfl | rfl
    · rw [List.nil_append] at hptext
      rw [← hptext] at hmeet
      exact absurd hmeet (hdistinct y)
    · exact absurd rfl hz
    · exact .inr ⟨y, hmeet.symm⟩
  · rcases hq.overlap hp hqtext hmeet with rfl | rfl | rfl
    · rw [List.nil_append] at hqtext
      rw [← hqtext] at hmeet
      exact absurd hmeet (hdistinct y)
    · exact absurd rfl hz
    · exact .inl ⟨u, by rw [ha, hqtext, List.append_assoc]⟩

/-- where a placeholder meets a text without a `%`, it holds all of it -/
theorem enclosed_of_not_clear {q : Placeholder} {s : List Char} (hs : '%' ∉ s) {a b : List Char}
    (h : ¬ Clear q.text a s b) : ∃ x y, q.text = x ++ s ++ y ∧ x <:+ a ∧ y <+: b := by
  rcases exists_of_not_clear h with ⟨x, z, y, hz, rfl, hmeet⟩ | ⟨u, x, z, y, hz, ha, hqtext, hmeet⟩
  · -- the opening `%` of `q` would stand in the text
    obtain ⟨c, z, rfl⟩ := List.exists_cons_of_ne_nil hz
    have hc : c = '%' := (List.cons.inj hmeet).1
    exact absurd (List.mem_append_right x (by rw [hc]; exact List.mem_cons_self)) hs
  · rcases List.append_eq_append_iff.1 hmeet with ⟨w, rfl, hb⟩ | ⟨w, rfl, -⟩
    · exact ⟨x, w, by rw [hqtext, List.append_assoc], ⟨u, ha.symm⟩, ⟨y, hb.symm⟩⟩
    · -- the closing `%` of `q` would stand in the text
      obtain ⟨v, d, hv⟩ := (List.eq_nil_or_concat z).resolve_left hz
      rw [List.concat_eq_append] at hv
      have hlast := congrArg List.getLast? (q.text_eq_concat.symm.trans hqtext)
      rw [hv, ← List.append_assoc, List.getLast?_concat, List.getLast?_concat] at hlast
      cases hlast
      exact absurd (List.mem_append_left w (by rw [hv]; exact List.mem_concat_self)) hs

end Placeholder

/-! ## Runs -/

namespace Injection

/-- a text that a run loses is met, at one turn, wherever it stands -/
theorem infix_filled_or (output : Placeholder → List Char) {s text : List Char} (ps : List Placeholder)
    (h : s <:+: text) : s <:+: filled output ps text ∨ ∃ before q after, ps = before ++ q :: after ∧
      s <:+: filled output before text ∧ ∀ a b, filled output before text = a ++ s ++ b → ¬ Clear q.text a s b := by
  induction ps generalizing text with
  | nil => exact .inl h
  | cons q ps ih =>
    by_cases hkeep : s <:+: replaceAll q.text (output q) text
    · rcases ih hkeep with hend | ⟨before, q', after, hps, hbefore, hmeet⟩
      · exact .inl hend
      · exact .inr ⟨q :: before, q', after, by rw [hps, List.cons_append], hbefore, hmeet⟩
    · refine .inr ⟨[], q, ps, rfl, h, ?_⟩
      intro a b hab hclear
      apply hkeep
      have htext : text = a ++ s ++ b := hab
      rw [htext]
      exact infix_replaceAll q.text_ne_nil hclear

/-- a run that does not fail resolves every placeholder -/
theorem isOk_of_result_fillEach {resolve : Placeholder → Except Error String} {ps : List Placeholder}
    {text : List Char} {out : String} (h : (fillEach resolve ps text).result = .ok out) :
    ∀ p ∈ ps, (resolve p).isOk = true := by
  induction ps generalizing text with
  | nil =>
    intro p hp
    exact absurd hp List.not_mem_nil
  | cons q ps ih =>
    rw [fillEach] at h
    cases hq : resolve q with
    | error e =>
      rw [hq] at h
      cases h
    | ok output =>
      rw [hq] at h
      intro p hp
      rcases List.mem_cons.1 hp with rfl | hp
      · rw [hq]
        rfl
      · exact ih h p hp

end Injection

namespace Registry

open Template Injection

/-- what a template has become after the turns of some placeholders -/
def textAfter (r : Registry) (files : Files) (base template : String) (done : List Placeholder) : List Char :=
  filled (r.output files base) done template.toList

theorem textAfter_append (r : Registry) (files : Files) (base template : String) (done rest : List Placeholder) :
    r.textAfter files base template (done ++ rest)
      = filled (r.output files base) rest (r.textAfter files base template done) := filled_append _ _ _ _

/-- the text that a run gives is the template after the turns of all its placeholders -/
theorem toList_of_result_inject {r : Registry} {files : Files} {base template text : String}
    (h : (r.inject files base template).result = .ok text) :
    text.toList = r.textAfter files base template (ofText template.toList).placeholders.eraseDups := by
  have hresolve : ∀ p ∈ (ofText template.toList).placeholders.eraseDups,
      r.resolve files base p = .ok (String.ofList (r.output files base p)) := by
    intro p hp
    exact resolve_eq_ok (isOk_of_result_fillEach h p hp)
  have hresult := result_fillEach hresolve template.toList
  have heq : Except.ok text = Except.ok _ := h.symm.trans hresult
  rw [Except.ok.inj heq, String.toList_ofList]
  rfl

/-- when its turn comes, a placeholder is there, or at an earlier turn it was shared wherever it stood -/
theorem infix_textAfter_or_shared (r : Registry) (files : Files) (base : String) {template : String}
    {done rest : List Placeholder} {p : Placeholder}
    (hturn : (ofText template.toList).placeholders.eraseDups = done ++ p :: rest) :
    p.text <:+: r.textAfter files base template done ∨
      ∃ before q after, done = before ++ q :: after ∧ q.Shared p (r.textAfter files base template before) := by
  have hfound : ∀ q ∈ done ++ p :: rest, q ∈ (ofText template.toList).placeholders := by
    intro q hq
    rw [← hturn] at hq
    exact List.mem_eraseDups.1 hq
  obtain ⟨hp, hinfix⟩ := wellFormed_of_mem_placeholders (hfound p (List.mem_append_right done List.mem_cons_self))
  rcases infix_filled_or (r.output files base) done hinfix with hkeep | ⟨before, q, after, hdone, hbefore, hmeet⟩
  · exact .inl hkeep
  · have hqdone : q ∈ done := by
      rw [hdone]
      exact List.mem_append_right before List.mem_cons_self
    obtain ⟨hq, -⟩ := wellFormed_of_mem_placeholders (hfound q (List.mem_append_left _ hqdone))
    have hne : p ≠ q := by
      intro hpq
      have hnodup := nodup_eraseDups (ofText template.toList).placeholders
      rw [hturn, List.nodup_append] at hnodup
      exact hnodup.2.2 q hqdone p List.mem_cons_self hpq.symm
    refine .inr ⟨before, q, after, hdone, hbefore, ?_⟩
    intro a b hab
    exact hp.shared_of_not_clear hq hne (hmeet a b hab)

/-- an output that was put in is there in the end, or at a later turn it was enclosed wherever it stood -/
theorem output_infix_or_enclosed {r : Registry} {files : Files} {base template text : String}
    (hok : (r.inject files base template).result = .ok text) {done rest : List Placeholder} {p : Placeholder}
    (hturn : (ofText template.toList).placeholders.eraseDups = done ++ p :: rest)
    (houtput : '%' ∉ r.output files base p)
    (hput : r.output files base p <:+: r.textAfter files base template (done ++ [p])) :
    r.output files base p <:+: text.toList ∨
      ∃ before q after, rest = before ++ q :: after ∧
        q.Enclosed (r.output files base p) (r.textAfter files base template (done ++ [p] ++ before)) := by
  have hend : text.toList = filled (r.output files base) rest (r.textAfter files base template (done ++ [p])) := by
    rw [← textAfter_append, List.append_assoc, List.singleton_append, ← hturn]
    exact toList_of_result_inject hok
  rcases infix_filled_or (r.output files base) rest hput with hkeep | ⟨before, q, after, hrest, hbefore, hmeet⟩
  · rw [hend]
    exact .inl hkeep
  · rw [← textAfter_append] at hbefore hmeet
    refine .inr ⟨before, q, after, hrest, hbefore, ?_⟩
    intro a b hab
    exact Placeholder.enclosed_of_not_clear houtput (hmeet a b hab)

/--
**A placeholder is lost only where it shares a `%`, and its output only inside of a later placeholder.** When the turn
comes to `p`, the text so far holds it, or at the turn of an earlier placeholder it shared its first or last `%` with
that one wherever it stood. If the text holds it, its output is there after the turn. It is there in the end as well,
or at the turn of a later placeholder it stood nowhere but inside of that one.
-/
theorem inject_survival {r : Registry} {files : Files} {base template text : String}
    (hok : (r.inject files base template).result = .ok text)
    (houtput : ∀ p ∈ (ofText template.toList).placeholders, '%' ∉ r.output files base p)
    {done rest : List Placeholder} {p : Placeholder}
    (hturn : (ofText template.toList).placeholders.eraseDups = done ++ p :: rest) :
    (p.text <:+: r.textAfter files base template done ∨
      ∃ before q after, done = before ++ q :: after ∧ q.Shared p (r.textAfter files base template before)) ∧
    (p.text <:+: r.textAfter files base template done →
      r.output files base p <:+: r.textAfter files base template (done ++ [p]) ∧
      (r.output files base p <:+: text.toList ∨
        ∃ before q after, rest = before ++ q :: after ∧
          q.Enclosed (r.output files base p) (r.textAfter files base template (done ++ [p] ++ before)))) := by
  refine ⟨infix_textAfter_or_shared r files base hturn, ?_⟩
  intro hthere
  have hfound : p ∈ (ofText template.toList).placeholders := by
    rw [← List.mem_eraseDups, hturn]
    exact List.mem_append_right done List.mem_cons_self
  have hput : r.output files base p <:+: r.textAfter files base template (done ++ [p]) := by
    rw [textAfter_append]
    exact filler_infix_replaceAll p.text_ne_nil hthere
  exact ⟨hput, output_infix_or_enclosed hok hturn (houtput p hfound) hput⟩

def leftMark : Placeholder := ⟨"left".toList, []⟩

def rightMark : Placeholder := ⟨"right".toList, []⟩

/-- the closing `%` of `rightMark` opens another `leftMark` -/
def sharing : String := "%left()% %right()%left()%"

theorem inject_survival_sharing : ∃ before q after, [leftMark] = before ++ q :: after ∧
    Placeholder.Shared q rightMark (twoMarks.textAfter noFiles "" sharing before) := by
  have hok : (twoMarks.inject noFiles "" sharing).result = .ok "L %right()L" := by decide +kernel
  have houtput : ∀ p ∈ (ofText sharing.toList).placeholders, '%' ∉ twoMarks.output noFiles "" p := by decide +kernel
  have hturn : (ofText sharing.toList).placeholders.eraseDups = [leftMark] ++ rightMark :: [] := by decide +kernel
  have hlost : ¬ rightMark.text <:+: twoMarks.textAfter noFiles "" sharing [leftMark] := by decide +kernel
  exact (inject_survival hok houtput hturn).1.resolve_left hlost

/-- the output of `leftMark` completes a placeholder that is in the template as well, and goes with both -/
example : (twoMarks.inject noFiles "" "%right(%left()%)% %right(L)%").result = .ok "R R" := by decide +kernel

/-- **A placeholder that was found can be lost**: `leftMark` takes the `%` that closes `rightMark` -/
theorem inject_loses_placeholder :
    (twoMarks.inject noFiles "" sharing).result = .ok "L %right()L" ∧
    (∀ p ∈ (ofText sharing.toList).placeholders, '%' ∉ twoMarks.output noFiles "" p) ∧
    (ofText sharing.toList).placeholders.eraseDups = [leftMark, rightMark] ∧
    ¬ rightMark.text <:+: twoMarks.textAfter noFiles "" sharing [leftMark] ∧
    ¬ twoMarks.output noFiles "" rightMark <:+: "L %right()L".toList := by
  decide +kernel

end Registry

end StubTemplate
