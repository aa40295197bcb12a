/-
What an array holds, element by element.

Each element of an array is put in under a key: its own, or else the next index (`assignments`). The entries are what
writing these values under their keys makes, one after the other (`Entries.putAll`), so a key stands where it was first
written and holds what was written last. Whether the array is a list or a map is decided at the end, by whether any
element had a key.

Step and run: `Building.entries_add` for one element, `Building.entries_foldl` for all. Main result:
`parseArray_elements`.
-/
import Mathlib.Data.List.Induction
import StubTemplate.Proofs.Indices

namespace StubTemplate

/-! ## Writing one value after the other -/

namespace Entries

/-- the entries with values written under keys, one after the other -/
def putAll (entries : Entries) (written : List (Key × Value)) : Entries :=
  written.foldl (fun entries w => entries.put w.1 w.2) entries

theorem putAll_concat (entries : Entries) (written : List (Key × Value)) (w : Key × Value) :
    entries.putAll (written ++ [w]) = (entries.putAll written).put w.1 w.2 := List.foldl_concat _ _ _ _

/-- the keys stand in the order in which they were first written -/
theorem keys_putAll (written : List (Key × Value)) :
    (putAll [] written).keys = (written.map Prod.fst).eraseDups := by
  induction written using List.reverseRecOn with
  | nil => rfl
  | append_singleton written w ih =>
    rw [putAll_concat, keys_put, ih, List.map_append, List.map_singleton, List.eraseDups_append]
    by_cases hw : w.1 ∈ written.map Prod.fst
    · simp [hw, List.removeAll]
    · have hone : [w.1].eraseDups = [w.1] := rfl
      simp [hw, List.removeAll, hone]

/-- each key holds what was written last under it -/
theorem get?_putAll (written : List (Key × Value)) (key : Key) :
    (putAll [] written).get? key = written.reverse.lookup key := by
  induction written using List.reverseRecOn with
  | nil => rfl
  | append_singleton written w ih =>
    rw [putAll_concat, get?_put, ih, List.reverse_concat, List.lookup_cons]
    by_cases hw : w.1 = key
    · simp [hw]
    · rw [if_neg hw, beq_eq_false_iff_ne.2 (Ne.symm hw)]

end Entries

namespace Argument

open Text

/-! ## What the elements write -/

/-- whether an element has a key of its own -/
def Element.isEntry : Element → Bool
  | .item _ => false
  | .entry _ _ => true

/-- the key that an element is put in under after those in `taken`: its own, or the next index that 64 bits hold -/
def keyAfter (taken : List Key) : Element → Key
  | .item _ => .int (Numeral.clamp (indexAfter taken))
  | .entry key _ => key

/-- what elements write after those before them have taken their keys: a key and a value each -/
def assignmentsFrom (taken : List Key) : List Element → List (Key × Value)
  | [] => []
  | e :: es => (keyAfter taken e, e.value) :: assignmentsFrom (taken ++ [keyAfter taken e]) es

/-- what the elements of an array write, in order -/
def assignments (es : List Element) : List (Key × Value) := assignmentsFrom [] es

namespace Building

/-- elements are written under their keys, one after the other -/
theorem entries_foldl {b : Building} {taken : List Key} (h : b.next = Numeral.clamp (indexAfter taken))
    (es : List Element) : (es.foldl add b).entries = b.entries.putAll (assignmentsFrom taken es) := by
  induction es generalizing b taken with
  | nil => rfl
  | cons e es ih =>
    have hkey : b.keyOf e = keyAfter taken e := by
      cases e with
      | item value => rw [keyOf, keyAfter, h]
      | entry key value => rfl
    have hnext := next_add h e
    rw [hkey] at hnext
    rw [List.foldl_cons, ih hnext, entries_add, hkey]
    rfl

theorem keyed_add (b : Building) (e : Element) : (b.add e).keyed = (b.keyed || e.isEntry) := by
  cases e with
  | item value => exact (Bool.or_false _).symm
  | entry key value => exact (Bool.or_true _).symm

theorem keyed_foldl (b : Building) (es : List Element) :
    (es.foldl add b).keyed = (b.keyed || es.any Element.isEntry) := by
  induction es generalizing b with
  | nil => exact (Bool.or_false _).symm
  | cons e es ih => rw [List.foldl_cons, ih, keyed_add, List.any_cons, Bool.or_assoc]

end Building

/-- one element with a key, at any place, makes a map of what all elements write -/
theorem arrayOf_of_any_isEntry {es : List Element} (h : es.any Element.isEntry = true) :
    arrayOf es = .map (Entries.putAll [] (assignments es)) := by
  have hkeyed : (es.foldl Building.add .empty).keyed = true := by rw [Building.keyed_foldl, h, Bool.or_true]
  have hentries : (es.foldl Building.add .empty).entries = Entries.putAll [] (assignmentsFrom [] es) :=
    Building.entries_foldl rfl es
  rw [arrayOf, Building.value, if_pos hkeyed, hentries, assignments]

/-- elements without keys make the list of their values -/
theorem arrayOf_of_any_eq_false {es : List Element} (hfits : Fits es.length) (h : es.any Element.isEntry = false) :
    arrayOf es = .list (es.map Element.value) := by
  have hitems : (es.map Element.value).map Element.item = es := by
    have hself : ∀ e ∈ es, Element.item e.value = id e := by
      intro e he
      cases e with
      | item value => rfl
      | entry key value => exact absurd rfl (List.any_eq_false.1 h _ he)
    rw [List.map_map]
    exact (List.map_congr_left hself).trans (List.map_id es)
  have hlist : arrayOf ((es.map Element.value).map Element.item) = .list (es.map Element.value) :=
    arrayOf_items (by rwa [List.length_map])
  rwa [hitems] at hlist

/-! ## What is read -/

/-- whether a text has `=>` at the top level -/
def hasArrow (text : List Char) : Bool := (cutTop ['=', '>'] (fun _ => true) text).isSome

theorem Reads.isEntry_eq {e : Element} {text : List Char} (h : Reads e text) : e.isEntry = hasArrow text := by
  obtain ⟨-, h⟩ := h
  cases e with
  | item value => rw [hasArrow, h.1]; rfl
  | entry key value =>
    obtain ⟨cut, hcut, -⟩ := h
    rw [hasArrow, hcut]
    rfl

theorem any_isEntry_eq {es : List Element} {texts : List (List Char)} (h : List.Forall₂ Reads es texts) :
    es.any Element.isEntry = texts.any hasArrow := by
  induction h with
  | nil => rfl
  | cons he _ ih => rw [List.any_cons, List.any_cons, he.isEntry_eq, ih]

theorem Reads.parseElement_value {e : Element} {text : List Char} (h : Reads e text) (harrow : hasArrow text = false) :
    parseElement text = .ok e.value := by
  rw [← h.isEntry_eq] at harrow
  cases e with
  | item value => exact h.2.2
  | entry key value => cases harrow

/--
**An array keeps every element in its place, and the last value of a key.** The elements of an array that is read are
what its texts read as, one by one. If no text has `=>` at the top level, the array is the list of their values. If one
has, wherever it stands, the array is a map: its keys are those that the elements take, each where it is first taken, and
each key holds the value of the last element that takes it.
-/
theorem parseArray_elements {literal : List Char} {v : Value} (h : parseArray literal = .ok v)
    (hfits : Fits (elementTexts (trim literal)).length) :
    ∃ es, List.Forall₂ Reads es (elementTexts (trim literal)) ∧
      ((∀ text ∈ elementTexts (trim literal), hasArrow text = false) →
        ∃ items, v = .list items ∧
          List.Forall₂ (fun item text => parseElement text = .ok item) items (elementTexts (trim literal))) ∧
      ((∃ text ∈ elementTexts (trim literal), hasArrow text = true) →
        ∃ entries : Entries, v = .map entries ∧ entries.keys = ((assignments es).map Prod.fst).eraseDups ∧
          ∀ key, entries.get? key = (assignments es).reverse.lookup key) := by
  obtain ⟨es, hes, rfl⟩ := exists_of_parseArray h
  have hreads := reads_of_parseElements hes
  refine ⟨es, hreads, ?_, ?_⟩
  · intro hnone
    have hitems : es.any Element.isEntry = false := by
      rw [any_isEntry_eq hreads, List.any_eq_false]
      intro text htext
      rw [hnone text htext]
      exact Bool.false_ne_true
    refine ⟨es.map Element.value, arrayOf_of_any_eq_false (hreads.length_eq ▸ hfits) hitems, ?_⟩
    have hboth := (List.forall₂_and_left _ _).2 ⟨hnone, hreads.flip⟩
    rw [List.forall₂_map_left_iff]
    exact hboth.flip.imp fun e text he => Reads.parseElement_value he.2 he.1
  · intro harrow
    have hentry : es.any Element.isEntry = true := by rw [any_isEntry_eq hreads, List.any_eq_true.2 harrow]
    exact ⟨_, arrayOf_of_any_isEntry hentry, Entries.keys_putAll _, Entries.get?_putAll _⟩

/-- an index that a later key takes again, first as a text and then as a number -/
def takenTwice : List Element :=
  [.item (.bool true), .entry (.int (-9)) .null, .entry (.int 0) (.int 1), .item (.int 2), .entry (.int 0) (.int 3)]

def takenTwiceText : List Char := "[true, -9 => null, '0' => 1, 2, 0 => 3]".toList

theorem parseElements_takenTwice : parseElements (elementTexts (trim takenTwiceText)) = .ok takenTwice := by
  have htrue : Reads (.item (.bool true)) "true".toList :=
    ⟨by decide +kernel, by decide +kernel, parseElement_scalar (by decide)⟩
  have hnegative : Reads (.entry (.int (-9)) .null) "-9 => null".toList :=
    ⟨by decide +kernel, ("-9 ".toList, " null".toList), by decide +kernel, rfl, parseElement_scalar (by decide)⟩
  have hquoted : Reads (.entry (.int 0) (.int 1)) "'0' => 1".toList :=
    ⟨by decide +kernel, ("'0' ".toList, " 1".toList), by decide +kernel, rfl, parseElement_scalar (by decide)⟩
  have hitem : Reads (.item (.int 2)) "2".toList :=
    ⟨by decide +kernel, by decide +kernel, parseElement_scalar (by decide)⟩
  have hinteger : Reads (.entry (.int 0) (.int 3)) "0 => 3".toList :=
    ⟨by decide +kernel, ("0 ".toList, " 3".toList), by decide +kernel, rfl, parseElement_scalar (by decide)⟩
  have htexts : elementTexts (trim takenTwiceText)
      = ["true".toList, "-9 => null".toList, "'0' => 1".toList, "2".toList, "0 => 3".toList] := by decide +kernel
  rw [htexts]
  exact parseElements_of_reads
    (.cons htrue (.cons hnegative (.cons hquoted (.cons hitem (.cons hinteger .nil)))))

theorem parseArray_elements_takenTwice :
    ∃ entries : Entries, parseArray takenTwiceText = .ok (.map entries) ∧ entries.keys = [.int 0, .int (-9), .int 1] ∧
      entries.get? (.int 0) = some (.int 3) ∧ entries.get? (.int 1) = some (.int 2) := by
  have hread : parseArray takenTwiceText = .ok (arrayOf takenTwice) := by
    rw [parseArray, parseElements_takenTwice]
    rfl
  have hfits : Fits (elementTexts (trim takenTwiceText)).length := ⟨by decide +kernel⟩
  obtain ⟨es, hes, -, hmap⟩ := parseArray_elements hread hfits
  obtain rfl : takenTwice = es :=
    Except.ok.inj (parseElements_takenTwice.symm.trans (parseElements_of_reads hes))
  obtain ⟨entries, hentries, hkeys, hvalues⟩ := hmap ⟨"0 => 3".toList, by decide +kernel, by decide +kernel⟩
  rw [hentries] at hread
  exact ⟨entries, hread, hkeys, hvalues (.int 0), hvalues (.int 1)⟩

end Argument

end StubTemplate
