/-
The keys of the maps that are read.

A key written as text and one written as a number may stand for the same entry: a text that is the plain numeral of a
64-bit integer becomes that integer (`Key.Canonical`). Keys of which this is true are told apart by what they are
written as (`Key.Canonical.eq_of_text_eq`).

Main result: `parse_keys_distinct`. In every map of what is read, at any depth, the keys are written differently, and
so are the names of every object when it is printed as JSON.

Step and run: adding an element keeps an array in the making `Sound`, so an array made of sound elements is sound; what
is read is sound by induction on the reader.
-/
import Mathlib.Data.List.Nodup
import StubTemplate.Json.Printer
import StubTemplate.Json.Token
import StubTemplate.Proofs.Spelling

namespace StubTemplate

/-! ## Keys and their texts -/

namespace Key

/-- the key is no text that spells an integer of 64 bits -/
def Canonical : Key → Prop
  | .str text => ∀ i : Int64, text ≠ (Key.int i).text
  | .int _ => True

theorem canonicalInt?_text (i : Int64) : Numeral.canonicalInt? (Key.int i).text.toList = some i := by
  rw [text, String.toList_ofList, Numeral.canonicalInt?_eq_some_iff]

theorem canonical_ofText (text : String) : (ofText text).Canonical := by
  unfold ofText
  split
  · trivial
  · rename_i hnone
    intro i hi
    rw [hi, canonicalInt?_text] at hnone
    cases hnone

theorem eq_of_text_int_eq {i j : Int64} (h : (Key.int i).text = (Key.int j).text) : i = j := by
  have hi := canonicalInt?_text i
  rw [h, canonicalInt?_text j] at hi
  exact (Option.some.inj hi).symm

/-- different keys are written differently -/
theorem Canonical.eq_of_text_eq {a b : Key} (ha : a.Canonical) (hb : b.Canonical) (h : a.text = b.text) : a = b := by
  cases a with
  | str s =>
    cases b with
    | str t => exact congrArg Key.str h
    | int j => exact absurd h (ha j)
  | int i =>
    cases b with
    | str t => exact absurd h.symm (hb i)
    | int j => exact congrArg Key.int (eq_of_text_int_eq h)

end Key

/-! ## Entries -/

namespace Entries

theorem mem_keys_put {k key : Key} {value : Value} {entries : Entries} (h : k ∈ (entries.put key value).keys) :
    k ∈ entries.keys ∨ k = key := by
  rw [keys_put] at h
  split at h
  · exact .inl h
  · simpa using h

theorem nodup_keys_put {entries : Entries} (h : entries.keys.Nodup) (key : Key) (value : Value) :
    (entries.put key value).keys.Nodup := by
  rw [keys_put]
  split
  · exact h
  · rename_i hnew
    rw [← List.concat_eq_append]
    exact h.concat hnew

theorem put_ne_nil (key : Key) (value : Value) (entries : Entries) : entries.put key value ≠ [] := by
  cases entries with
  | nil => exact List.cons_ne_nil _ _
  | cons entry rest =>
    rw [put]
    split <;> exact List.cons_ne_nil _ _

theorem mem_values_put {v value : Value} {key : Key} {entries : Entries} (h : v ∈ (entries.put key value).values) :
    v ∈ entries.values ∨ v = value := by
  induction entries with
  | nil => exact .inr (List.mem_singleton.1 h)
  | cons entry rest ih =>
    obtain ⟨k, w⟩ := entry
    simp only [put] at h
    split at h
    · rcases List.mem_cons.1 h with h | h
      · exact .inr h
      · exact .inl (List.mem_cons_of_mem w h)
    · rcases List.mem_cons.1 h with rfl | h
      · exact .inl List.mem_cons_self
      · exact (ih h).imp_left (List.mem_cons_of_mem w)

/-- entries of a map that is read -/
structure Sound (entries : Entries) : Prop where
  nonempty : entries ≠ []
  canonical : ∀ k ∈ entries.keys, k.Canonical
  distinct : entries.keys.Nodup

theorem Sound.nodup_texts {entries : Entries} (h : entries.Sound) : (entries.keys.map Key.text).Nodup := by
  refine List.Nodup.map_on ?_ h.distinct
  intro a ha b hb
  exact (h.canonical a ha).eq_of_text_eq (h.canonical b hb)

end Entries

/-! ## Values and what stands in them -/

namespace Value

/-- `part` is the value, or stands in it at any depth -/
inductive Within (part : Value) : Value → Prop where
  | self : Within part part
  | item {v : Value} {items : List Value} (hv : v ∈ items) (h : Within part v) : Within part (.list items)
  | entry {v : Value} {entries : Entries} (hv : v ∈ entries.values) (h : Within part v) : Within part (.map entries)

/-- every map in the value is sound -/
def Sound (v : Value) : Prop := ∀ entries : Entries, Within (.map entries) v → entries.Sound

theorem sound_list {items : List Value} (h : ∀ v ∈ items, v.Sound) : Sound (.list items) := by
  intro entries hwithin
  cases hwithin with
  | item hv hin => exact h _ hv entries hin

theorem sound_map {entries : Entries} (hentries : entries.Sound) (h : ∀ v ∈ entries.values, v.Sound) :
    Sound (.map entries) := by
  intro inner hwithin
  cases hwithin with
  | self => exact hentries
  | entry hv hin => exact h _ hv inner hin

theorem sound_of_elements? {v : Value} (h : v.elements? = none) : v.Sound := by
  intro entries hwithin
  cases hwithin with
  | self => cases h
  | item => cases h
  | entry => cases h

end Value

namespace Argument

open Text Value

theorem elements?_scalar (s : List Char) : (scalar s).elements? = none := by
  unfold scalar
  dsimp only
  split_ifs
  · rfl
  · rfl
  · rfl
  · split
    · split_ifs <;> rfl
    · split <;> rfl

/-! ## Arrays in the making -/

/-- the value is sound and the key, if there is one, spells no integer as text -/
def Element.Sound : Element → Prop
  | .item value => value.Sound
  | .entry key value => key.Canonical ∧ value.Sound

/-- what is kept while elements are added -/
structure Building.Sound (b : Building) : Prop where
  canonical : ∀ k ∈ b.entries.keys, k.Canonical
  distinct : b.entries.keys.Nodup
  values : ∀ v ∈ b.entries.values, v.Sound
  nonempty : b.keyed = true → b.entries ≠ []

theorem Building.Sound.add {b : Building} (hb : b.Sound) {e : Element} (he : e.Sound) : (b.add e).Sound := by
  have hput : ∀ {key : Key} {value : Value} {keyed : Bool} {next : Int64}, key.Canonical → value.Sound →
      Building.Sound ⟨b.entries.put key value, keyed, next⟩ := by
    intro key value keyed next hkey hvalue
    refine ⟨?_, Entries.nodup_keys_put hb.distinct key value, ?_, fun _ => Entries.put_ne_nil key value b.entries⟩
    · intro k hk
      rcases Entries.mem_keys_put hk with hk | rfl
      · exact hb.canonical k hk
      · exact hkey
    · intro v hv
      rcases Entries.mem_values_put hv with hv | rfl
      · exact hb.values v hv
      · exact hvalue
  cases e with
  | item value => exact hput trivial he
  | entry key value => exact hput he.1 he.2

theorem Building.Sound.foldl {b : Building} (hb : b.Sound) {es : List Element} (hes : ∀ e ∈ es, e.Sound) :
    (es.foldl Building.add b).Sound := by
  induction es generalizing b with
  | nil => exact hb
  | cons e es ih =>
    exact ih (hb.add (hes e List.mem_cons_self)) fun e' he' => hes e' (List.mem_cons_of_mem e he')

theorem Building.Sound.value {b : Building} (hb : b.Sound) : b.value.Sound := by
  unfold Building.value
  split
  · rename_i hkeyed
    exact sound_map ⟨hb.nonempty hkeyed, hb.canonical, hb.distinct⟩ hb.values
  · exact sound_list hb.values

theorem sound_arrayOf {es : List Element} (hes : ∀ e ∈ es, e.Sound) : (arrayOf es).Sound := by
  have hempty : Building.empty.Sound :=
    ⟨fun _ hk => absurd hk List.not_mem_nil, .nil, fun _ hv => absurd hv List.not_mem_nil, nofun⟩
  exact (hempty.foldl hes).value

/-! ## What is read -/

theorem canonical_of_parseKey {s : List Char} {key : Key} (h : parseKey s = .ok key) : key.Canonical := by
  unfold parseKey key? at h
  split at h
  · cases h
  · cases hs : scalar s with
    | str text =>
      rw [hs] at h
      cases h
      exact Key.canonical_ofText text
    | int number =>
      rw [hs] at h
      cases h
      trivial
    | _ =>
      rw [hs] at h
      cases h

/-- every map in what is read is sound, by induction along the reader -/
theorem sound_of_parseElement (s : List Char) : ∀ v, parseElement s = .ok v → v.Sound := by
  refine (parseElement.mutual_induct (fun s => ∀ v, parseElement s = .ok v → v.Sound)
    (fun texts => ∀ es, List.Forall₂ Reads es texts → ∀ e ∈ es, e.Sound) ?array ?scalar ?nil ?refused ?entry ?item).1 s
  case array =>
    intro s hs ih v h
    obtain ⟨es, hes, rfl⟩ := exists_of_parseElement hs h
    exact sound_arrayOf (ih es (reads_of_parseElements hes))
  case scalar =>
    intro s hs v h
    rw [parseElement_scalar (Bool.not_eq_true _ ▸ hs)] at h
    cases h
    exact sound_of_elements? (elements?_scalar s)
  case nil =>
    rintro _ ⟨⟩ e he
    cases he
  case refused =>
    intro text rest hequals es h
    obtain ⟨e, es', hreads, -, -⟩ := List.forall₂_cons_right_iff.1 h
    rw [hreads.1] at hequals
    cases hequals
  case entry =>
    intro text rest _ cut hcut ihvalue ihrest es h
    obtain ⟨e, es', hreads, hrest, rfl⟩ := List.forall₂_cons_right_iff.1 h
    refine List.forall_mem_cons.2 ⟨?_, ihrest es' hrest⟩
    cases e with
    | item v =>
      rw [hreads.2.1] at hcut
      cases hcut
    | entry key v =>
      obtain ⟨-, cut', hcut', hkey, hv⟩ := hreads
      rw [hcut] at hcut'
      cases hcut'
      exact ⟨canonical_of_parseKey hkey, ihvalue v hv⟩
  case item =>
    intro text rest _ hcut ihvalue ihrest es h
    obtain ⟨e, es', hreads, hrest, rfl⟩ := List.forall₂_cons_right_iff.1 h
    refine List.forall_mem_cons.2 ⟨?_, ihrest es' hrest⟩
    cases e with
    | item v => exact ihvalue v hreads.2.2
    | entry key v =>
      obtain ⟨-, cut', hcut', -⟩ := hreads
      rw [hcut] at hcut'
      cases hcut'

end Argument

/-! ## Names in JSON -/

namespace Json

/-- `part` is the JSON value, or stands in it at any depth -/
inductive Within (part : Json) : Json → Prop where
  | self : Within part part
  | item {json : Json} {items : List Json} (hjson : json ∈ items) (h : Within part json) : Within part (.array items)
  | field {json : Json} {fields : List (String × Json)} (hjson : json ∈ fields.map Prod.snd) (h : Within part json) :
    Within part (.object fields)

theorem number?_escape : ∀ n < 32,
    Hex.number? ['0', '0', Nat.digitChar (n / 16), Nat.digitChar (n % 16)] = some n := by decide

/-- a short escape is read back as the character that it stands for -/
theorem readString_short {c d : Char} (hd : unescape? c = some d) (hc : c ≠ 'u') (s : List Char) :
    readString ('\\' :: c :: s) = (readString s).map fun read => (d.toNat :: read.1, read.2) := by
  rw [readString]
  · rw [hd]
    cases readString s <;> rfl
  · intro a b c' e rest h
    exact absurd h hc

theorem readString_long {c : Char} (hc : c.toNat < 32) (s : List Char) :
    readString (['\\', 'u', '0', '0', Nat.digitChar (c.toNat / 16), Nat.digitChar (c.toNat % 16)] ++ s)
      = (readString s).map fun read => (c.toNat :: read.1, read.2) := by
  simp only [List.cons_append, List.nil_append, readString, number?_escape c.toNat hc]
  cases readString s <;> rfl

/-- a character inside of a string literal is read back -/
theorem readString_escape (c : Char) (s : List Char) :
    readString (escape c ++ s) = (readString s).map fun read => (c.toNat :: read.1, read.2) := by
  unfold escape
  split_ifs with hquote hback h₃ h₄ h₅ h₆ h₇ hlow
  · rw [hquote]
    exact readString_short rfl (by decide) s
  · rw [hback]
    exact readString_short rfl (by decide) s
  · rw [h₃]
    exact readString_short rfl (by decide) s
  · rw [h₄]
    exact readString_short rfl (by decide) s
  · rw [h₅]
    exact readString_short rfl (by decide) s
  · rw [h₆]
    exact readString_short rfl (by decide) s
  · rw [h₇]
    exact readString_short rfl (by decide) s
  · exact readString_long hlow s
  · rw [List.singleton_append, readString]
    · rw [if_neg (not_or.2 ⟨hback, hlow⟩)]
    · exact hquote
    · intro _ _ _ _ _ h
      exact absurd h hback
    · intro _ _ h
      exact absurd h hback

theorem readString_quote (text : List Char) (rest : List Char) :
    readString (text.flatMap escape ++ '"' :: rest) = some (text.map Char.toNat, rest) := by
  induction text with
  | nil => rfl
  | cons c text ih => rw [List.flatMap_cons, List.append_assoc, readString_escape, ih]; rfl

/-- different names are printed differently -/
theorem quote_injective : Function.Injective quote := by
  intro a b h
  have hbody : a.toList.flatMap escape ++ ['"'] = b.toList.flatMap escape ++ ['"'] := (List.cons.inj h).2
  have hread := readString_quote a.toList []
  rw [hbody, readString_quote b.toList []] at hread
  have hpoints : b.toList.map Char.toNat = a.toList.map Char.toNat := (Prod.mk.inj (Option.some.inj hread)).1
  exact (String.toList_injective (List.map_injective_iff.2 (fun _ _ => Char.toNat_inj.1) hpoints)).symm

end Json

namespace Value

theorem itemsToJson_eq_map (items : List Value) : itemsToJson items = items.map toJson := by
  induction items with
  | nil => rfl
  | cons item rest ih => rw [itemsToJson, ih, List.map_cons]

theorem entriesToJson_eq_map (entries : Entries) :
    entriesToJson entries = entries.map fun entry => (entry.1.text, entry.2.toJson) := by
  induction entries with
  | nil => rfl
  | cons entry rest ih => rw [entriesToJson, ih, List.map_cons]

theorem map_fst_entriesToJson (entries : Entries) :
    (entriesToJson entries).map Prod.fst = entries.keys.map Key.text := by
  rw [entriesToJson_eq_map, Entries.keys, List.map_map, List.map_map]
  rfl

theorem map_snd_entriesToJson (entries : Entries) :
    (entriesToJson entries).map Prod.snd = entries.values.map toJson := by
  rw [entriesToJson_eq_map, Entries.values, List.map_map, List.map_map]
  rfl

/-- an object in the JSON form of a value is that of a map in it -/
theorem exists_of_within_toJson {fields : List (String × Json)} {v : Value}
    (h : Json.Within (.object fields) v.toJson) :
    ∃ entries : Entries, Within (.map entries) v ∧ fields = entriesToJson entries := by
  generalize hjson : v.toJson = json at h
  induction h generalizing v with
  | self =>
    cases v with
    | map entries =>
      cases hjson
      exact ⟨entries, .self, rfl⟩
    | _ => cases hjson
  | item hitem _ ih =>
    cases v with
    | list items =>
      cases hjson
      rw [itemsToJson_eq_map] at hitem
      obtain ⟨v, hv, hvjson⟩ := List.mem_map.1 hitem
      obtain ⟨entries, hwithin, hfields⟩ := ih hvjson
      exact ⟨entries, .item hv hwithin, hfields⟩
    | _ => cases hjson
  | field hfield _ ih =>
    cases v with
    | map entries =>
      cases hjson
      rw [map_snd_entriesToJson] at hfield
      obtain ⟨v, hv, hvjson⟩ := List.mem_map.1 hfield
      obtain ⟨inner, hwithin, hfields⟩ := ih hvjson
      exact ⟨inner, .entry hv hwithin, hfields⟩
    | _ => cases hjson

/-- where every map is sound, the names of an object are printed differently -/
theorem nodup_quote {values : List Value} (h : ∀ v ∈ values, v.Sound) {fields : List (String × Json)}
    (hfields : Json.Within (.object fields) (.array (itemsToJson values))) :
    (fields.map fun field => Json.quote field.1).Nodup := by
  obtain ⟨entries, hwithin, rfl⟩ := exists_of_within_toJson (v := .list values) hfields
  have hnames := (sound_list h entries hwithin).nodup_texts.map Json.quote_injective
  rw [← map_fst_entriesToJson, List.map_map] at hnames
  exact hnames

end Value

namespace Argument

/--
**No two entries of a map that is read are written alike.** In what an argument text spells, every map at any depth has
an entry; none of its keys is a text that spells an integer of 64 bits; and the texts of its keys are all different. So
are the names of every object when the values are printed as JSON.
-/
theorem parse_keys_distinct {s : List Char} {values : List Value} (h : parse s = .ok values) :
    (∀ v ∈ values, ∀ entries : Entries, Value.Within (.map entries) v →
      entries ≠ [] ∧ (∀ text, Key.str text ∈ entries.keys → ∀ i : Int64, text ≠ (Key.int i).text) ∧
        (entries.keys.map Key.text).Nodup) ∧
    ∀ fields, Json.Within (.object fields) (.array (Value.itemsToJson values)) →
      (fields.map fun field => Json.quote field.1).Nodup := by
  have hsound : ∀ v ∈ values, v.Sound := by
    have hreads := (mapM_eq_ok_iff.1 h).flip.imp fun v s' hv => And.intro (sound_of_parseElement s' v hv) hv
    exact ((List.forall₂_and_left _ _).1 hreads).1
  refine ⟨?_, fun fields => Value.nodup_quote hsound⟩
  intro v hv entries hwithin
  have hentries := hsound v hv entries hwithin
  exact ⟨hentries.nonempty, fun text htext => hentries.canonical (.str text) htext, hentries.nodup_texts⟩

/-- entries in which a text takes the key that an integer takes after it -/
def sameKeyText : List Char := "'0' => 1, 0 => null, 2".toList

def sameKeyEntries : Entries := [(.int 0, .null), (.int 1, .int 2)]

theorem parse_sameKey : parse ('[' :: sameKeyText ++ [']']) = .ok [.map sameKeyEntries] := by
  have hquoted : Reads (.entry (.int 0) (.int 1)) "'0' => 1".toList :=
    ⟨by decide +kernel, ("'0' ".toList, " 1".toList), by decide +kernel, rfl, parseElement_scalar (by decide)⟩
  have hinteger : Reads (.entry (.int 0) .null) "0 => null".toList :=
    ⟨by decide +kernel, ("0 ".toList, " null".toList), by decide +kernel, rfl, parseElement_scalar (by decide)⟩
  have hitem : Reads (.item (.int 2)) "2".toList :=
    ⟨by decide +kernel, by decide +kernel, parseElement_scalar (by decide)⟩
  have hsplit : splitTop ',' sameKeyText = ["'0' => 1".toList, "0 => null".toList, "2".toList] := by decide +kernel
  have hvalue : parseElement ('[' :: sameKeyText ++ [']']) = .ok (.map sameKeyEntries) := by
    rw [parseElement_wrap, hsplit, parseElements_of_reads (.cons hquoted (.cons hinteger (.cons hitem .nil)))]
    rfl
  have hone : splitTop ',' ('[' :: sameKeyText ++ [']']) = ['[' :: sameKeyText ++ [']']] := by decide +kernel
  rw [parse, hone, mapM_eq_ok_iff]
  exact .cons hvalue .nil

theorem parse_keys_distinct_sameKey : sameKeyEntries ≠ [] ∧
    (∀ text, Key.str text ∈ sameKeyEntries.keys → ∀ i : Int64, text ≠ (Key.int i).text) ∧
    (sameKeyEntries.keys.map Key.text).Nodup :=
  (parse_keys_distinct parse_sameKey).1 _ List.mem_cons_self sameKeyEntries .self

end Argument

end StubTemplate
