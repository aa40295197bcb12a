/-
What a template calls.

The placeholders of a template, each distinct text once, are tried in order up to the first that fails (`tried`), and
an output changes nothing in that. Main results:
- `inject_calls`: the calls of a run, the failure that it reports, and that two registries with the same names whose
  processors succeed are called in the same way.
- `inject_bare_call`: a processor without a point in its name is called by `%name()%`. The name of a placeholder has no
  points, so a processor whose name has one is never called from a template; `inject_passes_over_dotted` is such a run.
-/
import StubTemplate.Proofs.Delivery
import StubTemplate.Proofs.Survival

namespace StubTemplate

open Text

/-! ## One run -/

theorem isOk_eq_false_iff {ε α : Type} {x : Except ε α} : x.isOk = false ↔ ∃ e, x = .error e := by
  cases x with
  | error e => exact iff_of_true rfl ⟨e, rfl⟩
  | ok a => simp [Except.isOk, Except.toBool]

namespace Injection

/-- the placeholders that are tried: those before the first that fails, and that one -/
def tried (resolve : Placeholder → Except Error String) (ps : List Placeholder) : List Placeholder :=
  ps.takeWhile (fun p => (resolve p).isOk) ++ (ps.dropWhile fun p => (resolve p).isOk).take 1

section

variable {resolve : Placeholder → Except Error String}

theorem tried_cons_of_ok {p : Placeholder} (h : (resolve p).isOk = true) (ps : List Placeholder) :
    tried resolve (p :: ps) = p :: tried resolve ps := by
  simp [tried, h]

theorem tried_cons_of_error {p : Placeholder} (h : (resolve p).isOk = false) (ps : List Placeholder) :
    tried resolve (p :: ps) = [p] := by
  simp [tried, h]

theorem tried_sublist (resolve : Placeholder → Except Error String) (ps : List Placeholder) :
    (tried resolve ps).Sublist ps := by
  have h := (List.Sublist.refl (ps.takeWhile fun p => (resolve p).isOk)).append
    (List.take_sublist 1 (ps.dropWhile fun p => (resolve p).isOk))
  rwa [List.takeWhile_append_dropWhile] at h

/-- what is called depends on which placeholders fail, and on nothing else -/
theorem tried_congr {resolve' : Placeholder → Except Error String} (h : ∀ p, (resolve p).isOk = (resolve' p).isOk)
    (ps : List Placeholder) : tried resolve ps = tried resolve' ps := by
  have hok : (fun p => (resolve p).isOk) = fun p => (resolve' p).isOk := funext h
  rw [tried, tried, hok]

/-- the calls of a run: the placeholders that are tried, each with what it resolves to -/
theorem resolved_fillEach (resolve : Placeholder → Except Error String) (ps : List Placeholder) (text : List Char) :
    (fillEach resolve ps text).resolved = (tried resolve ps).map fun p => (p, resolve p) := by
  induction ps generalizing text with
  | nil => rfl
  | cons p ps ih =>
    rw [fillEach]
    cases hp : resolve p with
    | error e => rw [tried_cons_of_error (by rw [hp]; rfl), List.map_singleton, hp]
    | ok output =>
      rw [tried_cons_of_ok (by rw [hp]; rfl), List.map_cons, hp]
      exact congrArg _ (ih _)

/-- a run asks for nothing but what it tries -/
theorem fillEach_congr {resolve' : Placeholder → Except Error String} {ps : List Placeholder}
    (h : ∀ p ∈ tried resolve ps, resolve' p = resolve p) (text : List Char) :
    fillEach resolve' ps text = fillEach resolve ps text := by
  induction ps generalizing text with
  | nil => rfl
  | cons p ps ih =>
    cases hp : resolve p with
    | error e =>
      rw [tried_cons_of_error (by rw [hp]; rfl)] at h
      rw [fillEach, fillEach, h p List.mem_cons_self, hp]
    | ok output =>
      rw [tried_cons_of_ok (by rw [hp]; rfl)] at h
      have hrest := ih fun q hq => h q (List.mem_cons_of_mem p hq)
      rw [fillEach, fillEach, h p List.mem_cons_self, hp]
      dsimp only
      rw [hrest]

/-- the failure of a run is that of the first placeholder that fails -/
theorem result_fillEach_eq_error_iff {ps : List Placeholder} {text : List Char} {e : Error} :
    (fillEach resolve ps text).result = .error e ↔
      ∃ p, ps.find? (fun p => !(resolve p).isOk) = some p ∧ resolve p = .error e := by
  induction ps generalizing text with
  | nil => simp [fillEach]
  | cons p ps ih =>
    rw [fillEach]
    cases hp : resolve p with
    | error e' =>
      rw [List.find?_cons_of_pos (by rw [hp]; rfl)]
      simp [hp]
    | ok output =>
      rw [List.find?_cons_of_neg (by simp [hp, Except.isOk, Except.toBool])]
      exact ih

theorem isOk_result_fillEach_iff {ps : List Placeholder} {text : List Char} :
    (fillEach resolve ps text).result.isOk = true ↔ ∀ p ∈ ps, (resolve p).isOk = true := by
  constructor
  · intro h
    cases hresult : (fillEach resolve ps text).result with
    | error e =>
      rw [hresult] at h
      cases h
    | ok out => exact isOk_of_result_fillEach hresult
  · intro h
    rw [← Bool.not_eq_false, isOk_eq_false_iff]
    rintro ⟨e, he⟩
    obtain ⟨p, hp, hpe⟩ := result_fillEach_eq_error_iff.1 he
    have hok := h p (List.mem_of_find?_eq_some hp)
    rw [hpe] at hok
    cases hok

end

end Injection

/-! ## The distinct texts of a template -/

namespace Template

/-- the texts of the placeholders, each once, in the order in which they first come -/
def distinctTexts (t : Template) : List (List Char) := (t.placeholders.map Placeholder.text).eraseDups

theorem eq_of_text_eq {s : List Char} {p q : Placeholder} (hp : p ∈ (ofText s).placeholders)
    (hq : q ∈ (ofText s).placeholders) (h : p.text = q.text) : p = q := by
  have hp := (wellFormed_of_mem_placeholders hp).1
  have hq := (wellFormed_of_mem_placeholders hq).1
  exact (hp.eq_of_append_eq hq (congrArg (· ++ []) h)).1

theorem map_text_eraseDups (s : List Char) :
    (ofText s).placeholders.eraseDups.map Placeholder.text = (ofText s).distinctTexts := by
  have hdistinct : ∀ p ∈ (ofText s).placeholders, ∀ q ∈ (ofText s).placeholders, p.text = q.text → p = q :=
    fun p hp q hq => eq_of_text_eq hp hq
  exact (eraseDups_map hdistinct).symm

theorem nodup_distinctTexts (s : List Char) : (ofText s).distinctTexts.Nodup := by
  rw [← map_text_eraseDups]
  refine List.Nodup.map_on ?_ (nodup_eraseDups _)
  intro p hp q hq
  exact eq_of_text_eq (List.mem_eraseDups.1 hp) (List.mem_eraseDups.1 hq)

end Template

namespace Registry

open Template Injection

/-! ## Two registries -/

/-- every processor succeeds, whatever its arguments -/
def Succeeds (r : Registry) (files : Files) (base : String) : Prop :=
  ∀ p ∈ r.processors, ∀ arguments, (p.process files base arguments).isOk = true

theorem mem_of_get {r : Registry} {name : String} {p : Processor} (h : r.get name = .ok p) :
    p ∈ r.processors ∧ p.name = name := by
  unfold get at h
  split at h
  · rename_i q hq
    cases h
    exact ⟨List.mem_of_find?_eq_some hq, by simpa using List.find?_some hq⟩
  · cases h

/-- where every processor succeeds, a placeholder fails for its arguments or its name alone -/
theorem isOk_resolve_iff {r : Registry} {files : Files} {base : String} (h : r.Succeeds files base)
    {p : Placeholder} : (r.resolve files base p).isOk = true ↔
      (Argument.parse p.arguments).isOk = true ∧ String.ofList p.name ∈ r.names := by
  unfold resolve
  cases hparse : Argument.parse p.arguments with
  | error e => exact iff_of_false nofun fun h => nomatch h.1
  | ok arguments =>
    cases hget : r.get (String.ofList p.name) with
    | error e =>
      refine iff_of_false nofun ?_
      rintro ⟨-, hname⟩
      obtain ⟨q, hq, hqname⟩ := List.mem_map.1 hname
      rw [← hqname, get_name hq] at hget
      cases hget
    | ok q =>
      obtain ⟨hq, hname⟩ := mem_of_get hget
      exact iff_of_true (h q hq arguments) ⟨rfl, List.mem_map.2 ⟨q, hq, hname⟩⟩

/-- two registries with the same names, whose processors succeed, fail at the same placeholders -/
theorem isOk_resolve_eq {r r' : Registry} {files files' : Files} {base base' : String}
    (hnames : ∀ name, name ∈ r.names ↔ name ∈ r'.names) (h : r.Succeeds files base) (h' : r'.Succeeds files' base')
    (p : Placeholder) : (r.resolve files base p).isOk = (r'.resolve files' base' p).isOk := by
  rw [Bool.eq_iff_iff, isOk_resolve_iff h, isOk_resolve_iff h', hnames]

/-- the calls of a run, each with whether it succeeded -/
def calls (r : Registry) (files : Files) (base template : String) : List (Placeholder × Bool) :=
  (r.inject files base template).resolved.map fun entry => (entry.1, entry.2.isOk)

theorem calls_eq (r : Registry) (files : Files) (base template : String) :
    r.calls files base template
      = (tried (r.resolve files base) (ofText template.toList).placeholders.eraseDups).map
          fun p => (p, (r.resolve files base p).isOk) := by
  rw [calls, inject, resolved_fillEach, List.map_map]
  rfl

/--
**The template alone decides what is called.** The placeholders `ps` stand for the distinct texts found in the
template. They are tried in order up to the first that fails, each once, and what any other placeholder resolves to
makes no difference. The run fails with the failure of that first one, and otherwise it succeeds. Another registry with
the same names is called in the same way, if the processors of both succeed, whatever they give.
-/
theorem inject_calls (r : Registry) (files : Files) (base template : String) : ∃ ps : List Placeholder,
    ps.map Placeholder.text = (ofText template.toList).distinctTexts ∧
    (∀ p ∈ ps, p ∈ (ofText template.toList).placeholders) ∧
    (r.inject files base template).resolved
      = (tried (r.resolve files base) ps).map (fun p => (p, r.resolve files base p)) ∧
    ((r.inject files base template).resolved.map fun entry => entry.1.text).Nodup ∧
    (∀ (r' : Registry) (files' : Files) (base' : String),
      (∀ p ∈ tried (r.resolve files base) ps, r'.resolve files' base' p = r.resolve files base p) →
        r'.inject files' base' template = r.inject files base template) ∧
    (∀ e, (r.inject files base template).result = .error e ↔
      ∃ p, ps.find? (fun p => !(r.resolve files base p).isOk) = some p ∧ r.resolve files base p = .error e) ∧
    ((r.inject files base template).result.isOk = true ↔ ∀ p ∈ ps, (r.resolve files base p).isOk = true) ∧
    ∀ (r' : Registry) (files' : Files) (base' : String), (∀ name, name ∈ r.names ↔ name ∈ r'.names) →
      r.Succeeds files base → r'.Succeeds files' base' →
        r'.calls files' base' template = r.calls files base template := by
  refine ⟨(ofText template.toList).placeholders.eraseDups, map_text_eraseDups _, ?_, resolved_fillEach _ _ _, ?_, ?_,
    fun e => result_fillEach_eq_error_iff, isOk_result_fillEach_iff, ?_⟩
  · intro p hp
    exact List.mem_eraseDups.1 hp
  · have hsublist := (tried_sublist (r.resolve files base) (ofText template.toList).placeholders.eraseDups).map
      Placeholder.text
    rw [map_text_eraseDups] at hsublist
    rw [inject, resolved_fillEach, List.map_map]
    exact (nodup_distinctTexts template.toList).sublist hsublist
  · intro r' files' base' h
    exact fillEach_congr h template.toList
  · intro r' files' base' hnames h h'
    have hok := isOk_resolve_eq hnames h h'
    rw [calls_eq, calls_eq, tried_congr hok]
    refine List.map_congr_left ?_
    intro p _
    rw [hok]

/-- two processors with the names of those in `twoMarks`, each giving a placeholder of the other -/
def crossedMarks : Registry where
  processors := [⟨"right", fun _ _ _ => .ok "%left()%"⟩, ⟨"left", fun _ _ _ => .ok "%right()%"⟩]
  valid := by decide
  distinct := by decide

theorem inject_calls_crossed : crossedMarks.calls noFiles "" offer = twoMarks.calls noFiles "" offer := by
  obtain ⟨-, -, -, -, -, -, -, -, hsame⟩ := inject_calls twoMarks noFiles "" offer
  refine hsame crossedMarks noFiles "" ?_ ?_ ?_
  · intro name
    simp [names, twoMarks, crossedMarks, or_comm]
  · simp [Succeeds, twoMarks, Except.isOk, Except.toBool]
  · simp [Succeeds, crossedMarks, Except.isOk, Except.toBool]

end Registry

/-! ## Processors that no placeholder can name -/

namespace Processor

theorem isNameInner_of_isName {s : List Char} (h : isName s = true) :
    s.head?.any Char.isLower = true ∧ ∀ c ∈ s, isNameInner c = true := by
  cases s with
  | nil => cases h
  | cons first rest =>
    simp only [isName, Bool.and_eq_true, List.all_eq_true] at h
    refine ⟨h.1.1, List.forall_mem_cons.2 ⟨?_, h.1.2⟩⟩
    simp [isNameInner, isNameEnd, h.1.1]

/-- a point is all that the name of a processor may have and that of a placeholder may not -/
theorem isNameChar_of_isNameInner {c : Char} (h : isNameInner c = true) (hc : c ≠ '.') :
    Placeholder.isNameChar c = true := by
  simp only [isNameInner, isNameEnd, Bool.or_eq_true, beq_iff_eq] at h
  simp only [Placeholder.isNameChar, Char.isAlphanum, Bool.or_eq_true, beq_iff_eq]
  rcases h with ((hlower | hdigit) | hline) | hpoint
  · exact .inl (.inl (isAlpha_of_isLower hlower))
  · exact .inl (.inr hdigit)
  · exact .inr hline
  · exact absurd hpoint hc

/-- the call of a processor without arguments -/
def bareCall (p : Processor) : Placeholder := ⟨p.name.toList, []⟩

/-- the template that is nothing but such a call -/
def bareTemplate (p : Processor) : String := "%" ++ p.name ++ "()%"

theorem toList_bareTemplate (p : Processor) : p.bareTemplate.toList = p.bareCall.text := by
  simp [bareTemplate, bareCall, Placeholder.text]

theorem wellFormed_bareCall {p : Processor} (h : isName p.name.toList = true) (hdot : '.' ∉ p.name.toList) :
    p.bareCall.WellFormed := by
  obtain ⟨hfirst, hinner⟩ := isNameInner_of_isName h
  refine ⟨?_, ?_, Placeholder.isArguments_nil⟩
  · rw [Option.any_eq_true] at hfirst ⊢
    obtain ⟨c, hc, hlower⟩ := hfirst
    refine ⟨c, hc, ?_⟩
    simp [Placeholder.isNameStart, isAlpha_of_isLower hlower]
  · intro c hc
    refine isNameChar_of_isNameInner (hinner c hc) ?_
    rintro rfl
    exact hdot hc

/-- what stands before the first parenthesis is all that does -/
theorem takeWhile_append_paren {s : List Char} (hs : '(' ∉ s) (x : List Char) :
    (s ++ '(' :: x).takeWhile (· != '(') = s := by
  have hpos : ∀ c ∈ s, (c != '(') = true := by
    intro c hc
    rw [bne_iff_ne]
    rintro rfl
    exact hs hc
  rw [List.takeWhile_append_of_pos hpos]
  simp

/-- no placeholder stands in the call of a processor with a point in its name -/
theorem placeholders_bareCall {p : Processor} (h : isName p.name.toList = true) (hdot : '.' ∈ p.name.toList) :
    (Template.ofText p.bareCall.text).placeholders = [] := by
  obtain ⟨-, hinner⟩ := isNameInner_of_isName h
  have hpercent : '%' ∉ p.name.toList := fun hmem => absurd (hinner _ hmem) (by decide)
  have hparen : '(' ∉ p.name.toList := fun hmem => absurd (hinner _ hmem) (by decide)
  rw [List.eq_nil_iff_forall_not_mem]
  intro q hq
  obtain ⟨hwell, a, b, hab⟩ := Template.wellFormed_of_mem_placeholders hq
  cases a with
  | nil =>
    -- it starts where the call starts, so both have the same name
    have hqparen : '(' ∉ q.name := fun hmem => absurd (hwell.chars _ hmem) (by decide)
    have hbody : q.name ++ '(' :: (q.arguments ++ [')', '%'] ++ b) = p.name.toList ++ '(' :: [')', '%'] := by
      simpa [Placeholder.text, bareCall] using hab
    have hname := congrArg (List.takeWhile (· != '(')) hbody
    rw [takeWhile_append_paren hqparen, takeWhile_append_paren hparen] at hname
    exact absurd (hwell.chars '.' (hname ▸ hdot)) (by decide)
  | cons c a =>
    -- only one `%` is left for its two
    have hcount := congrArg (List.count '%') (List.cons.inj hab).2
    simp [Placeholder.text, bareCall, List.count_append, List.count_eq_zero.2 hpercent] at hcount
    omega

end Processor

namespace Registry

/--
**A processor can be called without arguments exactly if its name has no point.** Without one, the call is the only
placeholder of the template that consists of it, and filling this template is running the processor. With one, nothing
is found in the template and it stays as it is.
-/
theorem inject_bare_call {r : Registry} (files : Files) (base : String) {p : Processor} (hp : p ∈ r.processors) :
    ('.' ∉ p.name.toList →
      (Template.ofText p.bareTemplate.toList).located = [(p.bareCall, 0)] ∧
      r.inject files base p.bareTemplate = ⟨p.process files base [], [(p.bareCall, p.process files base [])]⟩) ∧
    ('.' ∈ p.name.toList →
      (Template.ofText p.bareTemplate.toList).located = [] ∧
      r.inject files base p.bareTemplate = ⟨.ok p.bareTemplate, []⟩) := by
  have hname := r.valid p hp
  rw [p.toList_bareTemplate]
  refine ⟨?_, ?_⟩
  · intro hdot
    have hcall := Processor.wellFormed_bareCall hname hdot
    have hresolve : r.resolve files base p.bareCall = p.process files base [] :=
      resolve_of_parse files base hp rfl (by rfl)
    refine ⟨by rw [Template.ofText_text hcall]; rfl, ?_⟩
    rw [← String.ofList_toList (s := p.bareTemplate), p.toList_bareTemplate, inject_text r files base hcall,
      Injection.fillEach_text, hresolve]
  · intro hdot
    have hnone := Processor.placeholders_bareCall hname hdot
    refine ⟨?_, ?_⟩
    · rw [← List.map_eq_nil_iff, Template.located, Template.map_fst_locatedFrom, hnone]
    · rw [inject, p.toList_bareTemplate, hnone, List.eraseDups_nil, Injection.fillEach, ← p.toList_bareTemplate,
        String.ofList_toList]

/-- a processor whose name no placeholder can have -/
def dotted : Processor := ⟨"proc.name", fun _ _ _ => .ok "dotted"⟩

def plain : Processor := ⟨"proc", fun _ _ _ => .ok "plain"⟩

def dottedAndPlain : Registry := ⟨[dotted, plain], by decide, by decide⟩

theorem inject_bare_call_plain :
    (Template.ofText "%proc()%".toList).located = [(⟨"proc".toList, []⟩, 0)] ∧
    dottedAndPlain.inject noFiles "" "%proc()%" = ⟨.ok "plain", [(⟨"proc".toList, []⟩, .ok "plain")]⟩ ∧
    dottedAndPlain.inject noFiles "" "%proc.name()%" = ⟨.ok "%proc.name()%", []⟩ := by
  have hplain := (inject_bare_call noFiles "" (r := dottedAndPlain) (p := plain) (by simp [dottedAndPlain])).1 (by decide)
  have hdotted := (inject_bare_call noFiles "" (r := dottedAndPlain) (p := dotted) (by simp [dottedAndPlain])).2 (by decide)
  exact ⟨hplain.1, hplain.2, hdotted.2⟩

/-- **A processor can be registered and never be called**: no placeholder has the name `proc.name` -/
theorem inject_passes_over_dotted : ∃ r : Registry, ofProcessors [dotted] = .ok r ∧ dotted ∈ r.processors ∧
    (∀ f ∈ (Template.ofText "%proc.name()%".toList).located, f.1.name ≠ dotted.name.toList) ∧
    (r.inject noFiles "" "%proc.name()%").result ≠ dotted.process noFiles "" [] := by
  refine ⟨⟨[dotted], by decide, by decide⟩, rfl, List.mem_cons_self, ?_, ?_⟩
  · decide +kernel
  · decide +kernel

end Registry

end StubTemplate
