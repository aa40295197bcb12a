/-
Spellings of argument lists. Main result: every spelling reads back as the list it spells (`parse_spelling`).

A list may be spelled in many ways: strings in either kind of quotes, a backslash before any character of a string,
blanks around commas and arrows and next to brackets. `Spells` and its companions relate a value to each of its texts;
`Spellable` lists what a value must keep away from for its texts to be read as meant.

The proof follows the relation. A spelled value is level at every depth (`level_of_spells`), so no search at a higher
level stops inside it; by `forall₂_reads` the pieces between the commas are the spellings of the single elements, and
each of these is read one level further down.
-/
import Mathlib.Data.List.Forall2
import StubTemplate.Proofs.Literals
import StubTemplate.Proofs.Sequences
import StubTemplate.Text.Utf8

namespace StubTemplate.Argument

open Text Nesting

/-! ## Spellings -/

/--
The text between two quotes that spells a string: a backslash before each backslash and each such quote, and before
any other character or not.
-/
inductive SpellsBody (quote : Char) : List Char → List Char → Prop
  | nil : SpellsBody quote [] []
  | plain {c : Char} {s body : List Char} (hbackslash : c ≠ '\\') (hquote : c ≠ quote) (h : SpellsBody quote s body) :
    SpellsBody quote (c :: s) (c :: body)
  | escaped {c : Char} {s body : List Char} (h : SpellsBody quote s body) :
    SpellsBody quote (c :: s) ('\\' :: c :: body)

/-- a string in quotes of either kind -/
inductive SpellsString : String → List Char → Prop
  | quoted {quote : Char} {s : String} {body : List Char} (hquote : isQuote quote = true)
    (h : SpellsBody quote s.toList body) : SpellsString s (quote :: body ++ [quote])

inductive SpellsKey : Key → List Char → Prop
  | str {s : String} {t : List Char} (h : SpellsString s t) : SpellsKey (.str s) t
  | int (i : Int64) : SpellsKey (.int i) (Numeral.ofInt i.toInt)

mutual

/-- the texts of a value -/
inductive Spells : Value → List Char → Prop
  | null : Spells .null "null".toList
  | bool (flag : Bool) : Spells (.bool flag) (if flag then "true".toList else "false".toList)
  | int (i : Int64) : Spells (.int i) (Numeral.ofInt i.toInt)
  | str {s : String} {t : List Char} (h : SpellsString s t) : Spells (.str s) t
  | list {items : List Value} {t : List Char} (h : SpellsElements (items.map .item) t) :
    Spells (.list items) ('[' :: t ++ [']'])
  | map {entries : Entries} {t : List Char}
    (h : SpellsElements (entries.map fun entry => .entry entry.1 entry.2) t) :
    Spells (.map entries) ('[' :: t ++ [']'])

/-- the texts of an element of an array, without the blanks around it -/
inductive SpellsElement : Element → List Char → Prop
  | item {v : Value} {t : List Char} (h : Spells v t) : SpellsElement (.item v) t
  | entry {k : Key} {v : Value} {s w w' t : List Char} (hkey : SpellsKey k s) (hw : Blank w) (hw' : Blank w')
    (h : Spells v t) : SpellsElement (.entry k v) (s ++ w ++ ['=', '>'] ++ (w' ++ t))

/-- the texts of elements, with commas between them and blanks around each -/
inductive SpellsElements : List Element → List Char → Prop
  | none {w : List Char} (hw : Blank w) : SpellsElements [] w
  | one {e : Element} {w t w' : List Char} (hw : Blank w) (h : SpellsElement e t) (hw' : Blank w') :
    SpellsElements [e] (w ++ t ++ w')
  | more {e e' : Element} {es : List Element} {w t w' rest : List Char} (hw : Blank w) (h : SpellsElement e t)
    (hw' : Blank w') (hrest : SpellsElements (e' :: es) rest) :
    SpellsElements (e :: e' :: es) (w ++ t ++ w' ++ ',' :: rest)

end

/-- no string key may end in a backslash or be the plain numeral of a 64-bit integer -/
def SpellableKey : Key → Prop
  | .str s => s.toList.getLast? ≠ some '\\' ∧ ∀ i : Int64, s.toList ≠ Numeral.ofInt i.toInt
  | .int _ => True

/-- values whose spellings are read as meant: no floats, no string that ends in a backslash, no empty map -/
inductive Spellable : Value → Prop
  | null : Spellable .null
  | bool (flag : Bool) : Spellable (.bool flag)
  | int (i : Int64) : Spellable (.int i)
  | str {s : String} (h : s.toList.getLast? ≠ some '\\') : Spellable (.str s)
  | list {items : List Value} (h : ∀ v ∈ items, Spellable v) : Spellable (.list items)
  | map {entries : Entries} (hne : entries ≠ []) (hdistinct : entries.keys.Nodup)
    (hkeys : ∀ entry ∈ entries, SpellableKey entry.1) (h : ∀ entry ∈ entries, Spellable entry.2) :
    Spellable (.map entries)

def Element.Spellable : Element → Prop
  | .item v => Argument.Spellable v
  | .entry k v => SpellableKey k ∧ Argument.Spellable v

theorem spellable_items {items : List Value} (h : ∀ v ∈ items, Spellable v) :
    ∀ e ∈ items.map Element.item, e.Spellable := by
  intro e he
  obtain ⟨v, hv, rfl⟩ := List.mem_map.1 he
  exact h v hv

theorem spellable_entries {entries : Entries} (hkeys : ∀ entry ∈ entries, SpellableKey entry.1)
    (h : ∀ entry ∈ entries, Spellable entry.2) :
    ∀ e ∈ entries.map fun entry => Element.entry entry.1 entry.2, e.Spellable := by
  intro e he
  obtain ⟨entry, hentry, rfl⟩ := List.mem_map.1 he
  exact ⟨hkeys entry hentry, h entry hentry⟩

/-! ## Where spellings begin and end -/

theorem tight_append {s m t : List Char} (hs : Tight s) (ht : Tight t) : Tight (s ++ m ++ t) := by
  refine ⟨by simp [hs.nonempty], ?_, ?_⟩
  · intro c hc
    apply hs.first
    obtain ⟨first, rest, rfl⟩ := List.exists_cons_of_ne_nil hs.nonempty
    exact hc
  · intro c hc
    apply ht.last
    rwa [List.getLast?_append, List.getLast?_eq_some_getLast ht.nonempty, Option.some_or,
      ← List.getLast?_eq_some_getLast ht.nonempty] at hc

theorem tight_wrap {first last : Char} (hfirst : isBlank first = false) (hlast : isBlank last = false)
    (s : List Char) : Tight (first :: s ++ [last]) := by
  have h : ∀ c : Char, isBlank c = false → Tight [c] := by
    intro c hc
    exact ⟨by simp, by simpa using hc, by simpa using hc⟩
  exact tight_append (m := s) (h first hfirst) (h last hlast)

theorem isBlank_quote {q : Char} (hq : isQuote q = true) : isBlank q = false := by
  rcases quote_cases hq with rfl | rfl <;> decide

theorem SpellsString.tight {s : String} {t : List Char} (h : SpellsString s t) : Tight t := by
  cases h with
  | quoted hquote h => exact tight_wrap (isBlank_quote hquote) (isBlank_quote hquote) _

theorem SpellsKey.tight {k : Key} {t : List Char} (h : SpellsKey k t) : Tight t := by
  cases h with
  | str h => exact h.tight
  | int i => exact Numeral.tight_ofInt _

theorem Spells.tight {v : Value} {t : List Char} (h : Spells v t) : Tight t := by
  cases h with
  | null => exact tight_of_forall (by decide) (by decide)
  | bool flag => cases flag <;> exact tight_of_forall (by decide) (by decide)
  | int i => exact Numeral.tight_ofInt _
  | str h => exact h.tight
  | list h => exact tight_wrap (by decide) (by decide) _
  | map h => exact tight_wrap (by decide) (by decide) _

theorem SpellsElement.tight {e : Element} {t : List Char} (h : SpellsElement e t) : Tight t := by
  cases h with
  | item h => exact h.tight
  | entry hkey hw hw' h =>
    rw [← List.append_assoc, List.append_assoc _ _ ['=', '>'], List.append_assoc _ (_ ++ ['=', '>'])]
    exact tight_append hkey.tight h.tight

/-! ## Spellings are level -/

/-- the characters that cutting and searching look for -/
def separators : List Char := [',', '=']

theorem isTop_of_quote {n : Nesting} {q : Char} (h : n.quote = some q) : n.isTop = false := by simp [isTop, h]

theorem silent_body {q : Char} (hq : isQuote q = true) {s body : List Char} (h : SpellsBody q s body)
    (marks : List Char) {n : Nesting} (hn : n.quote = some q) : Silent marks n body := by
  induction h generalizing n with
  | nil => trivial
  | plain hbackslash hquote h ih =>
    rw [Silent, advance_inside hn (Or.inl hquote)]
    exact ⟨fun _ => isTop_of_quote rfl, ih rfl⟩
  | escaped h ih =>
    rw [Silent, advance_inside hn (Or.inl (ne_of_isQuote hq (by decide)).symm), Silent, advance_inside rfl (Or.inr rfl)]
    exact ⟨fun _ => isTop_of_quote rfl, fun _ => isTop_of_quote rfl, ih rfl⟩

/--
Reading a body leaves the string open, and its closing quote not escaped. The last piece of the body decides: the
first character of the rest of the body does away with a backslash before it.
-/
theorem readAll_body {q : Char} (hq : isQuote q = true) {s body : List Char} (h : SpellsBody q s body)
    (hs : s.getLast? ≠ some '\\') {n : Nesting} (hn : n.quote = some q) (hopen : n.escaped = false ∨ s ≠ []) :
    n.readAll body = ⟨n.depth, some q, false⟩ := by
  induction h generalizing n with
  | nil =>
    have he : n.escaped = false := hopen.resolve_right fun h => h rfl
    rw [readAll_nil, ← hn, ← he]
  | @plain c s body hbackslash hquote h ih =>
    have hs' : s.getLast? ≠ some '\\' := by
      cases s with
      | nil => simp
      | cons d s => rwa [List.getLast?_cons_cons] at hs
    rw [readAll_cons, advance_inside hn (Or.inl hquote)]
    exact ih hs' rfl (Or.inl (by simpa using hbackslash))
  | @escaped c s body h ih =>
    rw [readAll_cons, advance_inside hn (Or.inl (ne_of_isQuote hq (by decide)).symm), readAll_cons,
      advance_inside rfl (Or.inr rfl)]
    cases s with
    | nil =>
      have hc : c ≠ '\\' := by simpa using hs
      exact ih (by simp) rfl (Or.inl (by simpa using hc))
    | cons d s =>
      rw [List.getLast?_cons_cons] at hs
      exact ih hs rfl (Or.inr (List.cons_ne_nil d s))

/-- no separator of a spelled string stands outside its quotes -/
theorem SpellsString.silent {s : String} {t : List Char} (h : SpellsString s t) (d : Int) :
    Silent separators (outside d) t := by
  cases h with
  | @quoted q _ body hq h =>
    have hmark : q ∉ separators := by
      intro hmem
      simp only [separators, List.mem_cons, List.not_mem_nil, or_false] at hmem
      exact hmem.elim (ne_of_isQuote hq (by decide)) (ne_of_isQuote hq (by decide))
    refine ⟨fun hc => absurd hc hmark, silent_append.2 ⟨?_, fun hc => absurd hc hmark, trivial⟩⟩
    rw [advance_quote hq]
    exact silent_body hq h separators rfl

theorem SpellsString.level {s : String} {t : List Char} (h : SpellsString s t) (hs : s.toList.getLast? ≠ some '\\')
    (d : Int) : Level separators d t := by
  refine ⟨h.silent d, ?_⟩
  cases h with
  | @quoted q _ body hq h =>
    have hback : (⟨d, some q, false⟩ : Nesting).readAll body = ⟨d, some q, false⟩ :=
      readAll_body hq h hs rfl (Or.inl rfl)
    rw [List.cons_append, readAll_cons, advance_quote hq, readAll_append, hback]
    exact advance_unquote hq d

theorem level_ofInt (i : Int) (d : Int) : Level separators d (Numeral.ofInt i) := by
  apply level_plain Numeral.isPlain_of_mem_ofInt
  right
  intro c hc hmark
  simp only [separators, List.mem_cons, List.not_mem_nil, or_false] at hmark
  rcases hmark with rfl | rfl
  · exact Numeral.ne_of_mem_ofInt hc (d := ',') (by decide) (by decide) rfl
  · exact Numeral.ne_of_mem_ofInt hc (d := '=') (by decide) (by decide) rfl

theorem level_pad {w : List Char} (hw : Blank w) (d : Int) : Level separators d w :=
  level_blank hw (by decide)

theorem SpellsKey.level {k : Key} {t : List Char} (h : SpellsKey k t) (hk : SpellableKey k) (d : Int) :
    Level separators d t := by
  cases h with
  | str h => exact h.level hk.1 d
  | int i => exact level_ofInt _ d

/-- below the top level the separators themselves are level -/
theorem level_separator {d : Int} (hd : 0 < d) {s : List Char} (hs : ∀ c ∈ s, isPlain c = true) :
    Level separators d s :=
  level_plain hs (Or.inl (by omega))

mutual

/-- no comma and no equals sign of a spelled value stands at the top level -/
theorem level_of_spells : ∀ {v : Value} {t : List Char}, Spells v t → Spellable v → ∀ {d : Int}, 0 ≤ d →
    Level separators d t
  | _, _, .null, _, _, _ => level_plain (by decide) (Or.inr (by decide))
  | _, _, .bool flag, _, _, _ => by cases flag <;> exact level_plain (by decide) (Or.inr (by decide))
  | _, _, .int i, _, d, _ => level_ofInt _ d
  | _, _, .str h, hv, d, _ => by
    cases hv with
    | str hs => exact h.level hs d
  | _, _, .list h, hv, d, hd => by
    cases hv with
    | list hitems =>
      exact (level_of_spellsElements h (spellable_items hitems) (by omega)).brackets (by decide) (by decide)
  | _, _, .map h, hv, d, hd => by
    cases hv with
    | map _ _ hkeys hvalues =>
      exact (level_of_spellsElements h (spellable_entries hkeys hvalues) (by omega)).brackets (by decide) (by decide)

theorem level_of_spellsElement : ∀ {e : Element} {t : List Char}, SpellsElement e t → e.Spellable → ∀ {d : Int},
    0 < d → Level separators d t
  | _, _, .item h, hv, _, hd => level_of_spells h hv (by omega)
  | _, _, .entry hkey hw hw' h, ⟨hk, hv⟩, d, hd => by
    have hvalue := level_of_spells h hv (d := d) (by omega)
    have harrow : Level separators d ['=', '>'] := level_separator hd (by decide)
    exact (((hkey.level hk d).append (level_pad hw d)).append harrow).append ((level_pad hw' d).append hvalue)

theorem level_of_spellsElements : ∀ {es : List Element} {t : List Char}, SpellsElements es t →
    (∀ e ∈ es, e.Spellable) → ∀ {d : Int}, 0 < d → Level separators d t
  | _, _, .none hw, _, d, _ => level_pad hw d
  | _, _, .one hw h hw', hes, d, hd => by
    have helement := level_of_spellsElement h (hes _ List.mem_cons_self) hd
    exact ((level_pad hw d).append helement).append (level_pad hw' d)
  | _, _, .more hw h hw' hrest, hes, d, hd => by
    have helement := level_of_spellsElement h (hes _ List.mem_cons_self) hd
    have htail := level_of_spellsElements hrest (fun e he => hes e (List.mem_cons_of_mem _ he)) hd
    have hcomma : Level separators d [','] := level_separator hd (by decide)
    exact (((level_pad hw d).append helement).append (level_pad hw' d)).append (hcomma.append htail)

end

/-- at the top level, an element has no comma outside quotes and brackets -/
theorem comma_level_of_spellsElement {e : Element} {t : List Char} (h : SpellsElement e t) (he : e.Spellable) :
    Level [','] 0 t := by
  have hsub : [','] ⊆ separators := by decide
  cases h with
  | item h => exact (level_of_spells h he (Int.le_refl 0)).mono hsub
  | entry hkey hw hw' h =>
    have hleft := ((hkey.level he.1 0).append (level_pad hw 0)).mono hsub
    have hright := ((level_pad hw' 0).append (level_of_spells h he.2 (Int.le_refl 0))).mono hsub
    have harrow : Level [','] 0 ['=', '>'] := level_plain (by decide) (Or.inr (by decide))
    exact (hleft.append harrow).append hright

/-! ## Reading spellings -/

theorem unescape_cons {c : Char} (hc : c ≠ '\\') (rest : List Char) : unescape (c :: rest) = c :: unescape rest := by
  rw [unescape]
  · intro h _
    exact hc h
  · intro _ _ h _
    exact hc h

/-- the escapes of a body are read as meant, whatever follows -/
theorem unescape_body_append {q : Char} {s body : List Char} (h : SpellsBody q s body) (rest : List Char) :
    unescape (body ++ rest) = s ++ unescape rest := by
  induction h with
  | nil => rfl
  | plain hbackslash hquote h ih => rw [List.cons_append, unescape_cons hbackslash, ih, List.cons_append]
  | escaped h ih => rw [List.cons_append, List.cons_append, unescape, ih, List.cons_append]

theorem SpellsString.scalar {s : String} {t : List Char} (h : SpellsString s t) : scalar t = .str s := by
  cases h with
  | @quoted q s body hq h =>
    have hbody := unescape_body_append h []
    rw [List.append_nil, unescape, List.append_nil] at hbody
    rw [scalar_quoted hq, hbody, String.ofList_toList]

theorem isArray_of_head {c : Char} (hc : c ≠ '[') (rest : List Char) : isArray (c :: rest) = false := by
  simp [isArray, hc]

theorem isArray_wrap (t : List Char) : isArray ('[' :: t ++ [']']) = true := by
  rw [isArray, getLast?_wrap]
  rfl

theorem SpellsString.isArray {s : String} {t : List Char} (h : SpellsString s t) : isArray t = false := by
  cases h with
  | quoted hq h => exact isArray_of_head (ne_of_isQuote hq (by decide)) _

/-- a spelled string reads as that string, also where its value ends in a backslash -/
theorem SpellsString.parseElement {s : String} {t : List Char} (h : SpellsString s t) :
    parseElement t = .ok (.str s) := by
  rw [parseElement_scalar (by rw [h.tight.trim_eq]; exact h.isArray), h.scalar]

theorem isArray_ofInt (i : Int) : isArray (Numeral.ofInt i) = false := by
  obtain ⟨c, rest, hs⟩ := List.exists_cons_of_ne_nil (Numeral.ofInt_ne_nil i)
  rw [hs]
  exact isArray_of_head (Numeral.ne_of_mem_ofInt (hs ▸ List.mem_cons_self) (by decide) (by decide)) rest

theorem parseKey_of_spellsKey {k : Key} {t : List Char} (h : SpellsKey k t) (hk : SpellableKey k) :
    parseKey t = .ok k := by
  have ht := h.tight
  cases h with
  | str h => exact parseKey_str (ht.trim_eq.symm ▸ h.isArray) h.scalar hk.2
  | int i => exact parseKey_int (ht.trim_eq.symm ▸ isArray_ofInt _) (scalar_ofInt i)

/-- an array is made of the elements that its texts give -/
theorem exists_of_parseElement {s : List Char} {v : Value} (hs : isArray (trim s) = true)
    (h : parseElement s = .ok v) : ∃ es, parseElements (elementTexts (trim s)) = .ok es ∧ v = arrayOf es := by
  rw [parseElement, dif_pos hs] at h
  obtain ⟨es, hes, h⟩ := bind_eq_ok_iff.1 h
  cases h
  exact ⟨es, hes, rfl⟩

theorem exists_of_parseArray {literal : List Char} {v : Value} (h : parseArray literal = .ok v) :
    ∃ es, parseElements (elementTexts (trim literal)) = .ok es ∧ v = arrayOf es := by
  obtain ⟨es, hes, h⟩ := bind_eq_ok_iff.1 h
  cases h
  exact ⟨es, hes, rfl⟩

/-- a text in brackets is read through the pieces inside them -/
theorem parseElement_wrap (t : List Char) :
    parseElement ('[' :: t ++ [']']) = (parseElements (splitTop ',' t)).map arrayOf := by
  have ht : trim ('[' :: t ++ [']']) = '[' :: t ++ [']'] := (tight_wrap (by decide) (by decide) t).trim_eq
  have hinside : inside ('[' :: t ++ [']']) = t := inside_wrap (by decide) (by decide) t
  rw [parseElement, dif_pos (by rw [ht]; exact isArray_wrap t), ht, elementTexts, hinside,
    splitTop_trim (by decide)]
  rfl

/-- what an array makes of a piece between its commas -/
def Reads (e : Element) (text : List Char) : Prop :=
  hasSingleEquals text = false ∧
    match e with
    | .item v => cutTop ['=', '>'] (fun _ => true) text = none ∧ parseElement text = .ok v
    | .entry k v => ∃ cut, cutTop ['=', '>'] (fun _ => true) text = some cut ∧ parseKey cut.1 = .ok k
        ∧ parseElement cut.2 = .ok v

theorem parseElements_of_reads {es : List Element} {texts : List (List Char)} (h : List.Forall₂ Reads es texts) :
    parseElements texts = .ok es := by
  induction h with
  | nil => rw [parseElements]
  | @cons e text es texts he _ ih =>
    obtain ⟨hequals, he⟩ := he
    cases e with
    | item v =>
      obtain ⟨hcut, hv⟩ := he
      rw [parseElements_item hequals hcut, hv, ih]
      rfl
    | entry k v =>
      obtain ⟨cut, hcut, hk, hv⟩ := he
      rw [parseElements_entry hequals hcut, hv, hk, ih]
      rfl

/-- of the texts of an array that is read, each gives one element -/
theorem reads_of_parseElements {texts : List (List Char)} {es : List Element} (h : parseElements texts = .ok es) :
    List.Forall₂ Reads es texts := by
  induction texts generalizing es with
  | nil =>
    rw [parseElements] at h
    cases h
    exact .nil
  | cons text texts ih =>
    rw [parseElements] at h
    split at h
    · cases h
    · rename_i hequals
      have hequals : hasSingleEquals text = false := Bool.not_eq_true _ ▸ hequals
      split at h
      · rename_i cut hcut
        obtain ⟨v, hv, h⟩ := bind_eq_ok_iff.1 h
        obtain ⟨key, hkey, h⟩ := bind_eq_ok_iff.1 h
        obtain ⟨es', hes', h⟩ := bind_eq_ok_iff.1 h
        cases h
        exact .cons ⟨hequals, cut, hcut, hkey, hv⟩ (ih hes')
      · rename_i hcut
        obtain ⟨v, hv, h⟩ := bind_eq_ok_iff.1 h
        obtain ⟨es', hes', h⟩ := bind_eq_ok_iff.1 h
        cases h
        exact .cons ⟨hequals, hcut, hv⟩ (ih hes')

/-- elements are read one by one, and all of them have to be read -/
theorem mapM_eq_ok_iff {texts : List (List Char)} {values : List Value} :
    texts.mapM parseElement = .ok values ↔ List.Forall₂ (fun text v => parseElement text = .ok v) texts values := by
  induction texts generalizing values with
  | nil =>
    rw [List.mapM_nil, List.forall₂_nil_left_iff]
    exact ⟨fun h => (Except.ok.inj h).symm, fun h => congrArg Except.ok h.symm⟩
  | cons text texts ih =>
    rw [List.mapM_cons]
    constructor
    · intro h
      cases hfirst : parseElement text with
      | error e =>
        rw [hfirst] at h
        cases h
      | ok v =>
        cases hrest : texts.mapM parseElement with
        | error e =>
          rw [hfirst, hrest] at h
          cases h
        | ok vs =>
          rw [hfirst, hrest] at h
          cases h
          exact .cons hfirst (ih.1 hrest)
    · rintro (_ | ⟨hfirst, hrest⟩)
      rw [hfirst, ih.2 hrest]
      rfl

theorem mapM_of_reads {values : List Value} {texts : List (List Char)}
    (h : List.Forall₂ Reads (values.map .item) texts) : texts.mapM parseElement = .ok values := by
  rw [List.forall₂_map_left_iff] at h
  exact mapM_eq_ok_iff.2 (h.flip.imp fun _ _ hreads => hreads.2.2)

theorem reads_item {v : Value} {t : List Char} (h : Level separators 0 t) (hv : parseElement t = .ok v) :
    Reads (.item v) t := by
  have hequals : cutTop ['='] (fun next => next != some '>') t = none := cutTop_level (by decide) h
  exact ⟨by rw [hasSingleEquals, hequals], cutTop_level (by decide) h, hv⟩

/-- the arrow between two level texts is the first one at the top level -/
theorem cutTop_arrow {left : List Char} (h : Level separators 0 left) (right : List Char) :
    cutTop ['=', '>'] (fun _ => true) (left ++ ['=', '>'] ++ right) = some (left, right) := by
  have hhere : cutTop ['=', '>'] (fun _ => true) (['=', '>'] ++ right) = some ([], right) := by
    rw [cutTop, if_neg (List.cons_ne_nil _ _), List.cons_append, cutFrom,
      if_pos ⟨rfl, List.prefix_append ['=', '>'] right, rfl⟩]
    rfl
  rw [List.append_assoc, cutTop_append (by decide) h, hhere, Option.map_some, List.append_nil]

/-- the equals sign of an arrow is not one that stands alone -/
theorem hasSingleEquals_arrow {left right : List Char} (hl : Level separators 0 left)
    (hr : Level separators 0 right) : hasSingleEquals (left ++ ['=', '>'] ++ right) = false := by
  have hright : cutFrom ['='] (fun next => next != some '>') (outside 0) right = none := by
    have h : cutTop ['='] (fun next => next != some '>') right = none := cutTop_level (by decide) hr
    rwa [cutTop, if_neg (List.cons_ne_nil _ _)] at h
  have harrow : cutTop ['='] (fun next => next != some '>') (['=', '>'] ++ right) = none := by
    have hprefix : ¬ ['='] <+: '>' :: right := by simp
    have hadvance : Nesting.start.advance '=' = outside 0 := rfl
    rw [cutTop, if_neg (List.cons_ne_nil _ _), List.cons_append, List.singleton_append, cutFrom, if_neg (by simp),
      hadvance, cutFrom, advance_plain (by decide), if_neg (fun h => hprefix h.2.1), hright]
    rfl
  rw [hasSingleEquals, List.append_assoc, cutTop_append (by decide) hl, harrow, Option.map_none]

theorem reads_entry {k : Key} {v : Value} {s w w' t : List Char} (hkey : SpellsKey k s) (hk : SpellableKey k)
    (hw : Blank w) (hw' : Blank w') (ht : Level separators 0 t) (hv : parseElement t = .ok v) :
    Reads (.entry k v) (s ++ w ++ ['=', '>'] ++ (w' ++ t)) := by
  have hleft := (hkey.level hk 0).append (level_pad hw 0)
  have hright := (level_pad hw' 0).append ht
  refine ⟨hasSingleEquals_arrow hleft hright, (s ++ w, w' ++ t), cutTop_arrow hleft _, ?_, ?_⟩
  · rw [← parseKey_trim, trim_append_blank hw, parseKey_trim]
    exact parseKey_of_spellsKey hkey hk
  · rw [← parseElement_trim, trim_blank_append hw', parseElement_trim]
    exact hv

/-- a list has no more elements than its text has characters, and one -/
theorem length_le_of_spellsElements {es : List Element} {t : List Char} (h : SpellsElements es t) :
    es.length ≤ t.length + 1 := by
  induction es generalizing t with
  | nil => exact Nat.zero_le _
  | cons e es ih =>
    cases h with
    | one => simp
    | more hw h hw' hrest =>
      have := ih hrest
      simp only [List.length_append, List.length_cons] at this ⊢
      omega

theorem length_lt_wrap (a b : Char) (t : List Char) : t.length < (a :: t ++ [b]).length := by
  simp only [List.length_append, List.length_cons]
  omega

mutual

theorem parseElement_of_spells : ∀ {v : Value} {t : List Char}, Spells v t → Spellable v → Fits t.length →
    parseElement t = .ok v
  | _, _, .null, _, _ => parseElement_scalar (by decide)
  | _, _, .bool flag, _, _ => by cases flag <;> exact parseElement_scalar (by decide)
  | _, _, .int i, _, _ => by
    rw [parseElement_scalar (by rw [(Numeral.tight_ofInt _).trim_eq]; exact isArray_ofInt _), scalar_ofInt]
  | _, _, .str h, _, _ => h.parseElement
  | _, _, .list h, hv, hsize => by
    cases hv with
    | list hitems =>
      have hcount := length_le_of_spellsElements h
      rw [List.length_map] at hcount
      have hreads := forall₂_reads h (spellable_items hitems) (hsize.mono (Nat.le_of_lt (length_lt_wrap '[' ']' _)))
      rw [parseElement_wrap, parseElements_of_reads hreads, Except.map,
        arrayOf_items (hsize.mono (Nat.le_trans hcount (length_lt_wrap '[' ']' _)))]
  | _, _, .map h, hv, hsize => by
    cases hv with
    | map hne hdistinct hkeys hvalues =>
      have hreads := forall₂_reads h (spellable_entries hkeys hvalues)
        (hsize.mono (Nat.le_of_lt (length_lt_wrap '[' ']' _)))
      rw [parseElement_wrap, parseElements_of_reads hreads, Except.map, arrayOf_entries hne hdistinct]

theorem reads_of_spellsElement : ∀ {e : Element} {t : List Char}, SpellsElement e t → e.Spellable →
    Fits t.length → Reads e t
  | _, _, .item h, hv, hsize =>
    reads_item (level_of_spells h hv (Int.le_refl 0)) (parseElement_of_spells h hv hsize)
  | _, _, .entry hkey hw hw' h, ⟨hk, hv⟩, hsize => by
    exact reads_entry hkey hk hw hw' (level_of_spells h hv (Int.le_refl 0))
      (parseElement_of_spells h hv (hsize.mono (by simp only [List.length_append]; omega)))

/-- the pieces between the commas of a spelled list are read as its elements, one by one -/
theorem forall₂_reads : ∀ {es : List Element} {t : List Char}, SpellsElements es t → (∀ e ∈ es, e.Spellable) →
    Fits t.length → List.Forall₂ Reads es (splitTop ',' t)
  | _, _, .none hw, _, _ => by
    rw [splitTop_blank (by decide) hw]
    exact .nil
  | _, _, .one hw h hw', hes, hsize => by
    have he := hes _ List.mem_cons_self
    have hlevel := ((level_pad hw 0).mono (by decide)).append (comma_level_of_spellsElement h he)
    have hpiece := hlevel.append ((level_pad hw' 0).mono (by decide))
    have htrim := h.tight.trim_padded hw hw'
    rw [splitTop_silent List.mem_cons_self hpiece.silent (by rw [htrim]; exact h.tight.nonempty), htrim]
    exact .cons (reads_of_spellsElement h he (hsize.mono (by simp only [List.length_append]; omega))) .nil
  | _, _, .more hw h hw' hrest, hes, hsize => by
    have he := hes _ List.mem_cons_self
    have hlevel := ((level_pad hw 0).mono (by decide)).append (comma_level_of_spellsElement h he)
    have hpiece := hlevel.append ((level_pad hw' 0).mono (by decide))
    rw [splitTop_append_cons List.mem_cons_self (by decide) hpiece, h.tight.trim_padded hw hw']
    refine .cons (reads_of_spellsElement h he (hsize.mono ?_))
      (forall₂_reads hrest (fun e' he' => hes e' (List.mem_cons_of_mem _ he')) (hsize.mono ?_))
    all_goals simp only [List.length_append, List.length_cons]; omega

end

theorem length_le_utf8Size (s : List Char) : s.length ≤ utf8Size s := by
  induction s with
  | nil => exact Nat.le_refl 0
  | cons c s ih =>
    have := c.utf8Size_pos
    simp only [List.length_cons, utf8Size_cons]
    omega

/-- a spelling of a list of values is read element by element -/
theorem parse_of_spellsElements {values : List Value} {s : List Char} (hvalues : ∀ v ∈ values, Spellable v)
    (hs : SpellsElements (values.map .item) s) (hsize : Fits s.length) : parse s = .ok values :=
  mapM_of_reads (forall₂_reads hs (spellable_items hvalues) hsize)

/-- **Every spelling of an argument list reads back as that list.** No text in memory is above the bound. -/
theorem parse_spelling {values : List Value} {s : List Char} (hvalues : ∀ v ∈ values, Spellable v)
    (hs : SpellsElements (values.map .item) s) (hfits : (utf8Size s : Int) ≤ Int64.maxValue.toInt) :
    parse s = .ok values := by
  have hsize : Fits s.length := Fits.mono ⟨hfits⟩ (length_le_utf8Size s)
  exact parse_of_spellsElements hvalues hs hsize

theorem SpellsElements.of_eq {es : List Element} {s t : List Char} (h : SpellsElements es s) (hst : s = t) :
    SpellsElements es t := hst ▸ h

def nestedEntries : Entries := [(.str "k", .null), (.int 3, .list [])]

/-- a string, and a list that holds a map with an empty list in it -/
def nestedValues : List Value := [.str "it's", .list [.int (-5), .map nestedEntries]]

def nestedText : List Char := " 'it\\'s'\t,[-5, [\"\\k\"\u3000=> null , 3=>[ ]]]".toList

theorem spellable_nested : ∀ v ∈ nestedValues, Spellable v := by
  have hkey : SpellableKey (.str "k") := by
    refine ⟨by decide, ?_⟩
    intro i hi
    have hmem : 'k' ∈ Numeral.ofInt i.toInt := by rw [← hi]; decide
    exact Numeral.ne_of_mem_ofInt hmem (d := 'k') (by decide) (by decide) rfl
  have hmap : Spellable (.map nestedEntries) := by
    refine .map (by decide) (by decide) ?_ ?_
    · simp only [nestedEntries, List.forall_mem_cons]
      exact ⟨hkey, trivial, by simp⟩
    · simp only [nestedEntries, List.forall_mem_cons]
      exact ⟨.null, .list (by simp), by simp⟩
  simp only [nestedValues, List.forall_mem_cons]
  refine ⟨.str (by decide), .list ?_, by simp⟩
  simp only [List.forall_mem_cons]
  exact ⟨.int _, hmap, by simp⟩

theorem spells_nested : SpellsElements (nestedValues.map .item) nestedText := by
  have hno : Blank [] := by decide
  have hspace : Blank [' '] := by decide
  have htab : Blank ['\t'] := by decide
  have hwide : Blank ['\u3000'] := by decide
  have hbody : SpellsBody '\x27' ['i', 't', '\x27', 's'] ['i', 't', '\\', '\x27', 's'] :=
    .plain (by decide) (by decide) (.plain (by decide) (by decide) (.escaped (.plain (by decide) (by decide) .nil)))
  have hstring : SpellsString "it's" ('\x27' :: ['i', 't', '\\', '\x27', 's'] ++ ['\x27']) := .quoted rfl hbody
  have hescaped : SpellsBody '"' ['k'] ['\\', 'k'] := .escaped .nil
  have hkey : SpellsString "k" ('"' :: ['\\', 'k'] ++ ['"']) := .quoted rfl hescaped
  have hnone : SpellsElements (([] : List Value).map .item) [' '] := .none hspace
  have hnull := SpellsElement.entry (.str hkey) hwide hspace .null
  have hthree := SpellsElement.entry (.int 3) hno hno (.list hnone)
  have hentries : SpellsElements (nestedEntries.map fun entry => .entry entry.1 entry.2) _ :=
    .more hno hnull hspace (.one hspace hthree hno)
  have hitems : SpellsElements ([.int (-5), .map nestedEntries].map .item) _ :=
    .more hno (.item (.int (-5))) hno (.one hspace (.item (.map hentries)) hno)
  have hvalues : SpellsElements (nestedValues.map .item) _ :=
    .more hspace (.item (.str hstring)) htab (.one hno (.item (.list hitems)) hno)
  exact hvalues.of_eq (by decide +kernel)

theorem parse_spelling_nested : parse nestedText = .ok nestedValues :=
  parse_spelling spellable_nested spells_nested (by decide)

end StubTemplate.Argument
