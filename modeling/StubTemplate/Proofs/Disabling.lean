/-
What it does to disable processors.

A configuration names processors to leave out. Two passes go through the names: the first looks for one that is not at
hand, and the second drops the processors that are named. What is left is the default registry without those names
(`registry_eq_ok_iff`), and to leave names out of a registry changes what is found under these names and under no others
(`get_without_of_notMem`, `get_without_of_mem`).

Main result: `registry_disabling`. The configuration fails with the first name that is not at hand; else placeholders
that call no disabled processor are resolved, and templates with only such placeholders filled, as by the default
registry.
-/
import StubTemplate.Config
import StubTemplate.Proofs.Registration

namespace StubTemplate

namespace Registry

/-! ## Registries without some names -/

/-- the registry without the processors of some names -/
def without (r : Registry) (names : List String) : Registry where
  processors := r.processors.filter fun p => !names.contains p.name
  valid p hp := r.valid p (List.mem_of_mem_filter hp)
  distinct := r.distinct.sublist (List.filter_sublist.map Processor.name)

variable {r : Registry} {disabled : List String} {name : String} {files : Files} {base : String} {p : Placeholder}

theorem names_without : (r.without disabled).names = r.names.filter fun name => !disabled.contains name := by
  rw [names, names, List.filter_map]
  rfl

theorem get_without_of_notMem (h : name ∉ disabled) : (r.without disabled).get name = r.get name := by
  have hfound : (fun q : Processor => decide ((!disabled.contains q.name) = true ∧ (q.name == name) = true)) =
      fun q => q.name == name := by
    funext q
    by_cases hq : q.name = name
    · simp [hq, h]
    · simp [hq]
  rw [get, get, without, List.find?_filter, hfound]

theorem get_without_of_mem (h : name ∈ disabled) :
    (r.without disabled).get name = .error (.processorUnknown name) := by
  apply get_of_notMem
  simp [names_without, h]

/-- a placeholder whose processor stays is resolved as before -/
theorem resolve_without_of_notMem (h : String.ofList p.name ∉ disabled) :
    (r.without disabled).resolve files base p = r.resolve files base p := by
  rw [resolve, resolve, get_without_of_notMem h]

/-- a placeholder whose processor is left out fails, with its arguments if they are malformed -/
theorem resolve_without_of_mem (h : String.ofList p.name ∈ disabled) : (r.without disabled).resolve files base p =
    (Argument.parse p.arguments).bind fun _ => .error (.processorUnknown (String.ofList p.name)) := by
  rw [resolve, get_without_of_mem h]
  rfl

theorem inject_without {template : String}
    (h : ∀ p ∈ (Template.ofText template.toList).placeholders, String.ofList p.name ∉ disabled) :
    (r.without disabled).inject files base template = r.inject files base template := by
  refine Injection.fillEach_congr (fun p hp => resolve_without_of_notMem (h p ?_)) template.toList
  exact List.mem_eraseDups.1 ((Injection.tried_sublist _ _).subset hp)

/-- the processors at hand -/
def defaults : Registry where
  processors := Processor.builtins
  valid := by decide
  distinct := by decide

theorem ofProcessors_processors (r : Registry) : ofProcessors r.processors = .ok r :=
  ofProcessors_eq_ok_iff.2 ⟨⟨fun p hp => Processor.isName_iff.1 (r.valid p hp), r.distinct⟩, rfl⟩

end Registry

namespace Config

open Registry (noFiles)

/-! ## The registry of a configuration -/

variable {c : Config}

theorem any_builtins_iff {name : String} :
    Processor.builtins.any (·.name == name) = true ↔ name ∈ Registry.defaults.names :=
  Registry.contains_iff (r := .defaults)

theorem find?_disabled_eq_some_iff {name : String} :
    c.disabled.find? (fun name => !Processor.builtins.any (·.name == name)) = some name ↔
      name ∉ Registry.defaults.names ∧
        ∃ before after, c.disabled = before ++ name :: after ∧ ∀ n ∈ before, n ∈ Registry.defaults.names := by
  simp only [List.find?_eq_some_iff_append, Bool.not_not, any_builtins_iff, Bool.not_eq_true', ← Bool.not_eq_true]

theorem find?_disabled_eq_none_iff :
    c.disabled.find? (fun name => !Processor.builtins.any (·.name == name)) = none ↔
      ∀ name ∈ c.disabled, name ∈ Registry.defaults.names := by
  simp only [List.find?_eq_none, Bool.not_eq_true', Bool.not_eq_false, any_builtins_iff]

theorem registry_eq_ok_iff {r : Registry} : c.registry = .ok r ↔
    (∀ name ∈ c.disabled, name ∈ Registry.defaults.names) ∧ r = Registry.defaults.without c.disabled := by
  have hrest := Registry.ofProcessors_processors (Registry.defaults.without c.disabled)
  rw [← find?_disabled_eq_none_iff, registry]
  cases hfind : c.disabled.find? fun name => !Processor.builtins.any (·.name == name) with
  | some unknown => simp
  | none => exact ⟨fun h => ⟨rfl, Except.ok.inj (h.symm.trans hrest)⟩, fun h => h.2 ▸ hrest⟩

theorem registry_eq_error_iff {e : Error} : c.registry = .error e ↔
    ∃ before name after, c.disabled = before ++ name :: after ∧ (∀ n ∈ before, n ∈ Registry.defaults.names) ∧
      name ∉ Registry.defaults.names ∧ e = .processorUnknown name := by
  constructor
  · intro h
    cases hfind : c.disabled.find? fun name => !Processor.builtins.any (·.name == name) with
    | some unknown =>
      obtain ⟨hmissing, before, after, hdisabled, hbefore⟩ := find?_disabled_eq_some_iff.1 hfind
      rw [registry, hfind] at h
      exact ⟨before, unknown, after, hdisabled, hbefore, hmissing, (Except.error.inj h).symm⟩
    | none =>
      have hok := registry_eq_ok_iff.2 ⟨find?_disabled_eq_none_iff.1 hfind, rfl⟩
      cases h.symm.trans hok
  · rintro ⟨before, name, after, hdisabled, hbefore, hmissing, rfl⟩
    rw [registry, find?_disabled_eq_some_iff.2 ⟨hmissing, before, after, hdisabled, hbefore⟩]

/--
**Disabling processors removes them and nothing else.** A configuration has a registry exactly if all names that it
disables are at hand; otherwise the failure is that of the first name that is not. The registry has the other names, in
their order. A placeholder that calls a disabled processor fails, with its arguments if these are malformed and with the
processor's name if not. Any other is resolved as by the default registry, and so is a template filled in which no
placeholder calls a disabled processor.
-/
theorem registry_disabling (c : Config) : ∃ defaults, Registry.ofProcessors Processor.builtins = .ok defaults ∧
    defaults.names = Processor.builtins.map Processor.name ∧
    (∀ e, c.registry = .error e ↔
      ∃ before name after, c.disabled = before ++ name :: after ∧ (∀ n ∈ before, n ∈ defaults.names) ∧
        name ∉ defaults.names ∧ e = .processorUnknown name) ∧
    ((∃ r, c.registry = .ok r) ↔ ∀ name ∈ c.disabled, name ∈ defaults.names) ∧
    ∀ r, c.registry = .ok r →
      r.names = defaults.names.filter (fun name => !c.disabled.contains name) ∧
      (∀ files base p, String.ofList p.name ∉ c.disabled →
        r.resolve files base p = defaults.resolve files base p) ∧
      (∀ files base p e, String.ofList p.name ∈ c.disabled → Argument.parse p.arguments = .error e →
        r.resolve files base p = .error e) ∧
      (∀ files base p arguments, String.ofList p.name ∈ c.disabled → Argument.parse p.arguments = .ok arguments →
        r.resolve files base p = .error (.processorUnknown (String.ofList p.name))) ∧
      ∀ files base template,
        (∀ p ∈ (Template.ofText template.toList).placeholders, String.ofList p.name ∉ c.disabled) →
        r.inject files base template = defaults.inject files base template := by
  refine ⟨.defaults, Registry.ofProcessors_processors .defaults, rfl, fun e => registry_eq_error_iff, ?_, ?_⟩
  · simp [registry_eq_ok_iff]
  · intro r hr
    obtain ⟨-, rfl⟩ := registry_eq_ok_iff.1 hr
    refine ⟨Registry.names_without, ?_, ?_, ?_, ?_⟩
    · exact fun files base p h => Registry.resolve_without_of_notMem h
    · intro files base p e h harguments
      rw [Registry.resolve_without_of_mem h, harguments]
      rfl
    · intro files base p arguments h harguments
      rw [Registry.resolve_without_of_mem h, harguments]
      rfl
    · exact fun files base template h => Registry.inject_without h

/-- a configuration that disables one processor, twice -/
def twice : Config := ⟨none, ["flatten_text", "flatten_text"]⟩

/-- the same, with two names that are not at hand between -/
def misspelt : Config := ⟨none, ["flatten_text", "flatten", "flat", "flatten_text"]⟩

theorem registry_disabling_flattenText : misspelt.registry = .error (.processorUnknown "flatten") ∧
    ∃ r, twice.registry = .ok r ∧ r.names = ["json_to_url_encoded_query_string"] ∧
      r.resolve noFiles "" ⟨"flatten_text".toList, "[a = b]".toList⟩ = .error .singleEquals ∧
      r.resolve noFiles "" ⟨"flatten_text".toList, "a.txt".toList⟩ = .error (.processorUnknown "flatten_text") ∧
      ∀ files base, r.inject files base "%json_to_url_encoded_query_string(a)%" =
        Registry.defaults.inject files base "%json_to_url_encoded_query_string(a)%" := by
  obtain ⟨defaults, hdefaults, -, -, hok, hleft⟩ := registry_disabling twice
  obtain ⟨_, hdefaults', -, herror, -⟩ := registry_disabling misspelt
  obtain rfl := Except.ok.inj (hdefaults.symm.trans hdefaults')
  obtain rfl := Except.ok.inj ((Registry.ofProcessors_processors .defaults).symm.trans hdefaults)
  obtain ⟨r, hr⟩ := hok.2 (by decide)
  obtain ⟨hnames, -, hmalformed, hdisabled, hinject⟩ := hleft r hr
  have hequals : Argument.parseElement "[a = b]".toList = .error .singleEquals := by
    have htexts : Argument.elementTexts (Text.trim "[a = b]".toList) = ["a = b".toList] := by decide +kernel
    have hsingle : Argument.hasSingleEquals "a = b".toList = true := by decide +kernel
    rw [Argument.parseElement, dif_pos (by decide), htexts, Argument.parseElements, if_pos hsingle]
    rfl
  have hparse : Argument.parse "[a = b]".toList = .error .singleEquals := by
    have hsplit : Argument.splitTop ',' "[a = b]".toList = ["[a = b]".toList] := by decide +kernel
    rw [Argument.parse, hsplit, List.mapM_cons, hequals]
    rfl
  have hscalar : Argument.parse "a.txt".toList = .ok [.str "a.txt"] := by
    have hsplit : Argument.splitTop ',' "a.txt".toList = ["a.txt".toList] := by decide +kernel
    rw [Argument.parse, hsplit, List.mapM_cons, Argument.parseElement_scalar (by decide)]
    rfl
  refine ⟨(herror _).2 ⟨["flatten_text"], "flatten", _, rfl, by decide, by decide, rfl⟩, r, hr, ?_, ?_, ?_, ?_⟩
  · exact hnames.trans (by decide)
  · exact hmalformed _ _ _ _ (by decide) hparse
  · exact hdisabled _ _ _ _ (by decide) hscalar
  · exact fun files base => hinject files base _ (by decide +kernel)

end Config

end StubTemplate
