/-
Any list of arguments, handed to a processor through a template.

`Argument.written` writes arguments so that nothing in them can be taken for a part of a template: every character of
a text has a backslash before it. Written arguments are one of the spellings of the values (`spellsElements_written`),
so they read back, and they are `Inert`: they hold neither an end nor a start of a placeholder, and no such thing
comes up where they are put next to other text.

Main result: `inject_call`. Where a template is nothing but the call of a processor with written arguments, this call
is the only placeholder found, and filling the template gives what the processor gives for the values, be it a text or
a failure.
-/
import Mathlib.Data.List.Nodup
import StubTemplate.Proofs.Spelling
import StubTemplate.Proofs.Substitution

namespace StubTemplate

open Text

/-! ## Writing arguments -/

/-- a text in single quotes, with a backslash before every character -/
def masked (text : String) : List Char :=
  '\x27' :: text.toList.flatMap (fun c => ['\\', c]) ++ ['\x27']

/-- a key: a text in quotes, or an integer -/
def Key.written : Key → List Char
  | .str text => masked text
  | .int number => Numeral.ofInt number.toInt

namespace Value

mutual

/-- a value, with `gap` after every comma in it; a float has no spelling of its own and is written as its text -/
def written (gap : List Char) : Value → List Char
  | .null => "null".toList
  | .bool flag => if flag then "true".toList else "false".toList
  | .int number => Numeral.ofInt number.toInt
  | .float number => floatText number
  | .str text => masked text
  | .list items => '[' :: (',' :: gap).intercalate (writtenItems gap items) ++ [']']
  | .map entries => '[' :: (',' :: gap).intercalate (writtenEntries gap entries) ++ [']']

def writtenItems (gap : List Char) : List Value → List (List Char)
  | [] => []
  | item :: rest => written gap item :: writtenItems gap rest

def writtenEntries (gap : List Char) : Entries → List (List Char)
  | [] => []
  | (key, value) :: rest => (key.written ++ " => ".toList ++ written gap value) :: writtenEntries gap rest

end

theorem writtenItems_eq_map (gap : List Char) (items : List Value) :
    writtenItems gap items = items.map (written gap) := by
  induction items with
  | nil => rw [writtenItems, List.map_nil]
  | cons item rest ih => rw [writtenItems, ih, List.map_cons]

theorem writtenEntries_eq_map (gap : List Char) (entries : Entries) : writtenEntries gap entries
    = entries.map fun entry => entry.1.written ++ " => ".toList ++ entry.2.written gap := by
  induction entries with
  | nil => rw [writtenEntries, List.map_nil]
  | cons entry rest ih => rw [writtenEntries, ih, List.map_cons]

end Value

/-- arguments, with `outer` after each comma between them and `inner` after each comma inside of one -/
def Argument.written (outer inner : List Char) (values : List Value) : List Char :=
  (',' :: outer).intercalate (values.map (Value.written inner))

/-- the call of a processor with written arguments -/
def Processor.call (p : Processor) (outer inner : List Char) (values : List Value) : Placeholder :=
  ⟨p.name.toList, Argument.written outer inner values⟩

/-! ## Written arguments are spelled -/

namespace Argument

theorem spellsString_masked (text : String) : SpellsString text (masked text) := by
  have hbody : ∀ s : List Char, SpellsBody '\x27' s (s.flatMap fun c => ['\\', c]) := by
    intro s
    induction s with
    | nil => exact .nil
    | cons c s ih => exact .escaped ih
  exact .quoted rfl (hbody text.toList)

theorem spellsKey_written (key : Key) : SpellsKey key key.written := by
  cases key with
  | str text => exact .str (spellsString_masked text)
  | int number => exact .int number

theorem SpellsElements.blank_append {es : List Element} {t w : List Char} (hw : Blank w) (h : SpellsElements es t) :
    SpellsElements es (w ++ t) := by
  have hblank : ∀ {w' : List Char}, Blank w' → Blank (w ++ w') := by
    intro w' hw' c hc
    exact (List.mem_append.1 hc).elim (hw c) (hw' c)
  cases h with
  | none hw' => exact .none (hblank hw')
  | one hw' he hend => simpa only [List.append_assoc] using SpellsElements.one (hblank hw') he hend
  | more hw' he hend hrest => simpa only [List.append_assoc] using SpellsElements.more (hblank hw') he hend hrest

/-- texts of elements joined by a comma and blanks are a text of them all -/
theorem spellsElements_intercalate {gap : List Char} (hgap : Blank gap) {es : List Element}
    {texts : List (List Char)} (h : List.Forall₂ SpellsElement es texts) :
    SpellsElements es ((',' :: gap).intercalate texts) := by
  have hno : Blank [] := by decide
  induction h with
  | nil => exact .none hno
  | @cons e t es texts he hrest ih =>
    cases hrest with
    | nil =>
      simpa using SpellsElements.one hno he hno
    | cons he' hrest' =>
      have hmore := SpellsElements.more hno he hno (ih.blank_append hgap)
      rw [List.append_nil, List.nil_append] at hmore
      rwa [List.intercalate_cons_cons, List.append_assoc, List.cons_append]

/-- what is written spells the value -/
theorem spells_written {gap : List Char} (hgap : Blank gap) {v : Value} (hv : Spellable v) :
    Spells v (v.written gap) := by
  induction hv with
  | null => exact .null
  | bool flag => exact .bool flag
  | int i => exact .int i
  | str => exact .str (spellsString_masked _)
  | @list items _ ih =>
    refine .list (spellsElements_intercalate hgap ?_)
    rw [Value.writtenItems_eq_map, List.forall₂_map_left_iff, List.forall₂_map_right_iff, List.forall₂_same]
    intro v hv
    exact .item (ih v hv)
  | @map entries _ _ _ _ ih =>
    refine .map (spellsElements_intercalate hgap ?_)
    rw [Value.writtenEntries_eq_map, List.forall₂_map_left_iff, List.forall₂_map_right_iff, List.forall₂_same]
    intro entry hentry
    have hspace : Blank [' '] := by decide
    have helement := SpellsElement.entry (spellsKey_written entry.1) hspace hspace (ih entry hentry)
    simpa using helement

theorem spellsElements_written {outer inner : List Char} (houter : Blank outer) (hinner : Blank inner)
    {values : List Value} (hvalues : ∀ v ∈ values, Spellable v) :
    SpellsElements (values.map .item) (written outer inner values) := by
  apply spellsElements_intercalate houter
  rw [List.forall₂_map_left_iff, List.forall₂_map_right_iff, List.forall₂_same]
  intro v hv
  exact .item (spells_written hinner (hvalues v hv))

end Argument

/-! ## Written arguments are inert -/

namespace Placeholder

/-- arguments of a placeholder that do not join with what follows them to an end or a start of one -/
structure Inert (s : List Char) : Prop where
  arguments : IsArguments s
  last : ∀ c ∈ s.getLast?, c ≠ ')' ∧ c ≠ '%'

theorem inert_of_forall {s : List Char} (h : ∀ c ∈ s, c ≠ ')' ∧ c ≠ '%') : Inert s := by
  refine ⟨⟨?_, ?_⟩, ?_⟩
  · intro hpair
    exact (h '%' (hpair.subset (by simp))).2 rfl
  · intro c _ hpair
    exact (h '%' (hpair.subset List.mem_cons_self)).2 rfl
  · intro c hc
    exact h c (List.mem_of_mem_getLast? hc)

theorem Inert.append {s t : List Char} (hs : Inert s) (ht : Inert t) : Inert (s ++ t) := by
  rcases List.eq_nil_or_concat s with rfl | ⟨s, z, rfl⟩
  · exact ht
  · rw [List.concat_eq_append] at hs ⊢
    have hz := hs.last z List.getLast?_concat
    -- a pair across the seam would start with the last character of the first text
    have hpair : ∀ {x y : Char}, z ≠ x → ¬ [x, y] <:+: s ++ [z] → ¬ [x, y] <:+: t → ¬ [x, y] <:+: s ++ [z] ++ t := by
      intro x y hzx hleft hright h
      rw [List.append_assoc, List.singleton_append] at h
      rcases pair_infix_append_cons h with h | h
      · exact hleft h
      · rcases pair_infix_cons.1 h with ⟨hx, -⟩ | h
        · exact hzx hx
        · exact hright h
    refine ⟨⟨hpair hz.1 hs.arguments.firstClose ht.arguments.firstClose, ?_⟩, ?_⟩
    · intro c hc
      exact hpair hz.2 (hs.arguments.noOpening c hc) (ht.arguments.noOpening c hc)
    · intro c hc
      rw [List.getLast?_append, Option.mem_def, Option.or_eq_some_iff] at hc
      rcases hc with hc | ⟨-, hc⟩
      · exact ht.last c hc
      · exact hs.last c hc

/-- a character after a backslash does not matter in front of what no placeholder could go on with -/
theorem Inert.escape {s : List Char} (hs : Inert s) (hne : s ≠ []) (hbare : Template.Bare s) (c : Char) :
    Inert ('\\' :: c :: s) := by
  obtain ⟨d, rest, rfl⟩ := List.exists_cons_of_ne_nil hne
  have hd := hbare d rfl
  refine ⟨isArguments_cons.2 ⟨by simp, by simp, isArguments_cons.2 ⟨?_, ?_, hs.arguments⟩⟩, ?_⟩
  · intro _ hclose
    exact hd.1 (Option.some.inj hclose)
  · intro e he _ hopen
    rw [← Option.some.inj hopen, hd.2] at he
    cases he
  · rw [List.getLast?_cons_cons, List.getLast?_cons_cons]
    exact hs.last

theorem inert_masked (text : String) : Inert (masked text) := by
  have hquote : Inert ['\x27'] := inert_of_forall (by decide)
  have hbody : ∀ s : List Char, Inert (s.flatMap (fun c => ['\\', c]) ++ ['\x27'])
      ∧ Template.Bare (s.flatMap (fun c => ['\\', c]) ++ ['\x27']) := by
    intro s
    induction s with
    | nil => exact ⟨hquote, by decide⟩
    | cons c s ih =>
      refine ⟨ih.1.escape (by simp) ih.2 c, ?_⟩
      intro d hd
      cases hd
      decide
  exact hquote.append (hbody text.toList).1

theorem inert_ofInt (i : Int) : Inert (Numeral.ofInt i) := by
  apply inert_of_forall
  intro c hc
  exact ⟨Numeral.ne_of_mem_ofInt hc (by decide) (by decide), Numeral.ne_of_mem_ofInt hc (by decide) (by decide)⟩

theorem inert_blank {w : List Char} (hw : Blank w) : Inert w := by
  apply inert_of_forall
  intro c hc
  constructor
  all_goals
    rintro rfl
    exact absurd (hw _ hc) (by decide)

theorem inert_intercalate {gap : List Char} (hgap : Blank gap) {texts : List (List Char)}
    (h : ∀ t ∈ texts, Inert t) : Inert ((',' :: gap).intercalate texts) := by
  have hcomma : Inert (',' :: gap) := (inert_of_forall (s := [',']) (by decide)).append (inert_blank hgap)
  induction texts with
  | nil => exact inert_of_forall (s := []) (by decide)
  | cons t texts ih =>
    cases texts with
    | nil => simpa using h
    | cons t' texts =>
      rw [List.intercalate_cons_cons]
      refine ((h t List.mem_cons_self).append hcomma).append (ih ?_)
      intro t'' ht''
      exact h t'' (List.mem_cons_of_mem t ht'')

theorem inert_brackets {s : List Char} (h : Inert s) : Inert ('[' :: s ++ [']']) :=
  ((inert_of_forall (s := ['[']) (by decide)).append h).append (inert_of_forall (s := [']']) (by decide))

theorem inert_writtenKey (key : Key) : Inert key.written := by
  cases key with
  | str text => exact inert_masked text
  | int number => exact inert_ofInt _

theorem inert_writtenValue {gap : List Char} (hgap : Blank gap) {v : Value} (hv : Argument.Spellable v) :
    Inert (v.written gap) := by
  induction hv with
  | null => exact inert_of_forall (s := "null".toList) (by decide)
  | bool flag =>
    rw [Value.written]
    cases flag <;> exact inert_of_forall (by decide)
  | int i => exact inert_ofInt _
  | str => exact inert_masked _
  | @list items _ ih =>
    refine inert_brackets (inert_intercalate hgap ?_)
    rw [Value.writtenItems_eq_map, List.forall_mem_map]
    exact ih
  | @map entries _ _ _ _ ih =>
    refine inert_brackets (inert_intercalate hgap ?_)
    rw [Value.writtenEntries_eq_map, List.forall_mem_map]
    intro entry hentry
    have harrow : Inert " => ".toList := inert_of_forall (by decide)
    exact ((inert_writtenKey entry.1).append harrow).append (ih entry hentry)

theorem inert_written {outer inner : List Char} (houter : Blank outer) (hinner : Blank inner) {values : List Value}
    (hvalues : ∀ v ∈ values, Argument.Spellable v) : Inert (Argument.written outer inner values) := by
  apply inert_intercalate houter
  rw [List.forall_mem_map]
  intro v hv
  exact inert_writtenValue hinner (hvalues v hv)

end Placeholder

/-! ## A template that is one call -/

theorem Template.ofText_text {p : Placeholder} (hp : p.WellFormed) : ofText p.text = [.hole p] := by
  obtain ⟨c, rest, -, htext⟩ := hp.exists_text_eq
  have hread : Placeholder.read? p.text = some (p, []) :=
    Placeholder.read?_eq_some_iff.2 ⟨hp, (List.append_nil _).symm⟩
  rw [htext] at hread ⊢
  rw [ofText]
  split
  · rename_i q after hq
    rw [hread] at hq
    cases hq
    rw [ofText]
  · rename_i hq
    rw [hread] at hq
    cases hq

/-- filling the one placeholder of a text that is nothing else is resolving it -/
theorem Injection.fillEach_text (resolve : Placeholder → Except Error String) (p : Placeholder) :
    fillEach resolve [p] p.text = ⟨resolve p, [(p, resolve p)]⟩ := by
  have hall : ∀ filler, replaceAll p.text filler p.text = filler := fun _ => (Becomes.hit p.text_ne_nil).eq
  rw [fillEach]
  cases resolve p with
  | error e => rfl
  | ok output => simp only [hall, fillEach, String.ofList_toList]

namespace Registry

/-- a processor of a registry is found under its name -/
theorem get_name {r : Registry} {p : Processor} (hp : p ∈ r.processors) : r.get p.name = .ok p := by
  unfold get
  cases hfind : r.processors.find? (·.name == p.name) with
  | none =>
    have hmiss := List.find?_eq_none.1 hfind p hp
    simp at hmiss
  | some q =>
    have hname : q.name = p.name := by simpa using List.find?_some hfind
    have hq := List.inj_on_of_nodup_map r.distinct (List.mem_of_find?_eq_some hfind) hp hname
    exact congrArg _ hq

/-- a placeholder with the name of a processor and arguments that spell some values resolves to what it makes of these -/
theorem resolve_of_parse {r : Registry} (files : Files) (base : String) {p : Processor} (hp : p ∈ r.processors)
    {call : Placeholder} (hname : call.name = p.name.toList) {values : List Value}
    (hparse : Argument.parse call.arguments = .ok values) :
    r.resolve files base call = p.process files base values := by
  rw [resolve, hparse, hname, String.ofList_toList, get_name hp]
  rfl

/-- in a template that is one placeholder and nothing else, this one is filled -/
theorem inject_text (r : Registry) (files : Files) (base : String) {call : Placeholder} (hcall : call.WellFormed) :
    r.inject files base (String.ofList call.text) = Injection.fillEach (r.resolve files base) [call] call.text := by
  have hplaceholders : (Template.ofText call.text).placeholders.eraseDups = [call] := by
    rw [Template.ofText_text hcall]
    rfl
  rw [inject, String.toList_ofList, hplaceholders]

/-- a template that is one placeholder of a processor, with arguments that spell some values -/
theorem inject_placeholder {r : Registry} (files : Files) (base : String) {p : Processor} (hp : p ∈ r.processors)
    {call : Placeholder} (hcall : call.WellFormed) (hname : call.name = p.name.toList) {values : List Value}
    (hparse : Argument.parse call.arguments = .ok values) :
    (r.inject files base (String.ofList call.text)).result = p.process files base values := by
  rw [inject_text r files base hcall, Injection.fillEach_text, resolve_of_parse files base hp hname hparse]

/--
**Any list of arguments can be handed to a processor through a template.** In the template that is nothing but the
call of a processor, whose name must be one that a placeholder can have, the call is the only placeholder. Filling the
template gives what the processor gives for the values, be it a text or a failure. No text in memory is above the
bound.
-/
theorem inject_call {r : Registry} (files : Files) (base : String) {p : Processor} (hp : p ∈ r.processors)
    (hstart : p.name.toList.head?.any Placeholder.isNameStart = true)
    (hchars : ∀ c ∈ p.name.toList, Placeholder.isNameChar c = true) {values : List Value}
    (hvalues : ∀ v ∈ values, Argument.Spellable v) {outer inner : List Char} (houter : Blank outer)
    (hinner : Blank inner)
    (hfits : (utf8Size (p.call outer inner values).text : Int) ≤ Int64.maxValue.toInt) :
    (Template.ofText (p.call outer inner values).text).located = [(p.call outer inner values, 0)] ∧
    (r.inject files base (String.ofList (p.call outer inner values).text)).result
      = p.process files base values := by
  have hcall : (p.call outer inner values).WellFormed :=
    ⟨hstart, hchars, (Placeholder.inert_written houter hinner hvalues).arguments⟩
  have hsize : Argument.Fits (Argument.written outer inner values).length := by
    refine Argument.Fits.mono ⟨hfits⟩ (Nat.le_trans ?_ (Argument.length_le_utf8Size _))
    simp only [Placeholder.text, Processor.call, List.length_append, List.length_cons]
    omega
  have hparse : Argument.parse (p.call outer inner values).arguments = .ok values :=
    Argument.parse_of_spellsElements hvalues (Argument.spellsElements_written houter hinner hvalues) hsize
  refine ⟨?_, inject_placeholder files base hp hcall rfl hparse⟩
  rw [Template.ofText_text hcall]
  rfl

/-- gives its first argument back -/
def echo : Processor := ⟨"echo", fun _ _ arguments => .ok ((arguments.head?.bind Value.text?).getD "")⟩

def echoes : Registry := ⟨[echo], by decide, by decide⟩

/-- entries under a key that looks like a placeholder -/
def hostileEntries : Entries := [(.str "%echo()%", .bool true), (.int 3, .list [])]

/-- texts that end placeholders, start them, and separate arguments -/
def hostileValues : List Value := [.str ")% %echo('", .list [.str "], [ => ", .null], .map hostileEntries]

theorem spellable_hostile : ∀ v ∈ hostileValues, Argument.Spellable v := by
  have hkey : Argument.SpellableKey (.str "%echo()%") := by
    refine ⟨by decide, ?_⟩
    intro i hi
    have hmem : '%' ∈ Numeral.ofInt i.toInt := by rw [← hi]; decide
    exact Numeral.ne_of_mem_ofInt hmem (d := '%') (by decide) (by decide) rfl
  have hmap : Argument.Spellable (.map hostileEntries) := by
    refine .map (by decide) (by decide) ?_ ?_
    · simp only [hostileEntries, List.forall_mem_cons]
      exact ⟨hkey, trivial, by simp⟩
    · simp only [hostileEntries, List.forall_mem_cons]
      exact ⟨.bool true, .list (by simp), by simp⟩
  simp only [hostileValues, List.forall_mem_cons]
  refine ⟨.str (by decide), .list ?_, hmap, by simp⟩
  simp only [List.forall_mem_cons]
  exact ⟨.str (by decide), .null, by simp⟩

theorem inject_call_hostile :
    (Template.ofText (echo.call [] [' '] hostileValues).text).located = [(echo.call [] [' '] hostileValues, 0)] ∧
    (echoes.inject noFiles "" (String.ofList (echo.call [] [' '] hostileValues).text)).result = .ok ")% %echo('" :=
  inject_call noFiles "" List.mem_cons_self (by decide) (by decide) spellable_hostile (by decide) (by decide)
    (by decide +kernel)

end Registry

end StubTemplate
