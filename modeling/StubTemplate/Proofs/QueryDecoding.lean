/-
Reading a query string back.

`decode?` cuts a query string at every `&` and each piece at its first `=`, and takes both halves for percent-encoded
UTF-8. `decode?_intercalate` says that it reads what `writePair` writes: an encoded text holds none of the two
separators (`notMem_encode`), and percent decoding gives its bytes back (`percentDecode?_encode`).

Main result: `decode?_ofJson`. The query string of an object or an array reads back as its fields in order, without
those that are `null`: names and indices as they are in the JSON value, and values as `SentAs` says.
-/
import Mathlib.Data.List.Forall2
import StubTemplate.Proofs.Bytes
import StubTemplate.QueryString

namespace StubTemplate

/-! ## Decoding -/

namespace QueryString

/-- the bytes that a percent-encoded text stands for; every `%` must have two hexadecimal digits after it -/
def percentDecode? : List Char → Option (List UInt8)
  | [] => some []
  | '%' :: high :: low :: rest => do
    let byte ← Hex.number? [high, low]
    let bytes ← percentDecode? rest
    return UInt8.ofNat byte :: bytes
  | c :: rest => if c = '%' then none else (percentDecode? rest).map (String.utf8EncodeChar c ++ ·)

/-- the text that a percent-encoded text stands for, if its bytes are UTF-8 -/
def decodeText? (s : List Char) : Option (List Char) := do
  let bytes ← percentDecode? s
  let text ← String.fromUTF8? bytes.toByteArray
  return text.toList

/-- a pair, cut at the first `=` -/
def decodePair? (piece : List Char) : Option (List Char × List Char) :=
  match piece.dropWhile (· != '=') with
  | [] => none
  | _ :: value => do
    let key ← decodeText? (piece.takeWhile (· != '='))
    let value ← decodeText? value
    return (key, value)

/-- the pairs of a query string; the empty one has none -/
def decode? (query : List Char) : Option (List (List Char × List Char)) :=
  if query = [] then some [] else (query.splitOn '&').mapM decodePair?

/-! ## Percent decoding undoes encoding -/

theorem ne_percent_of_isUnreserved {c : Char} (h : isUnreserved c = true) : c ≠ '%' := by
  rintro rfl
  exact absurd h (by decide)

theorem percentDecode?_cons {c : Char} (hc : c ≠ '%') (rest : List Char) :
    percentDecode? (c :: rest) = (percentDecode? rest).map (String.utf8EncodeChar c ++ ·) := by
  rw [percentDecode?, if_neg hc]
  intro _ _ _ h
  exact absurd h hc

theorem number?_digits (b : UInt8) :
    Hex.number? [Hex.upperDigit (b.toNat / 16), Hex.upperDigit (b.toNat % 16)] = some b.toNat := by
  have hb := b.toNat_lt
  have hhigh := Hex.value?_upperDigit (b.toNat / 16) (by omega)
  have hlow := Hex.value?_upperDigit (b.toNat % 16) (by omega)
  simp [Hex.number?, hhigh, hlow, Nat.div_add_mod]

theorem percentDecode?_encodeByte (b : UInt8) (rest : List Char) :
    percentDecode? (encodeByte b ++ rest) = (percentDecode? rest).map (b :: ·) := by
  rw [encodeByte, List.cons_append, List.cons_append, List.cons_append, List.nil_append, percentDecode?,
    number?_digits]
  cases percentDecode? rest with
  | none => rfl
  | some bytes => simp

theorem percentDecode?_encodeBytes (bytes : List UInt8) (rest : List Char) :
    percentDecode? (bytes.flatMap encodeByte ++ rest) = (percentDecode? rest).map (bytes ++ ·) := by
  induction bytes with
  | nil => simp
  | cons b bytes ih =>
    rw [List.flatMap_cons, List.append_assoc, percentDecode?_encodeByte, ih, Option.map_map]
    rfl

/-- an encoded character stands for its bytes, encoded or not -/
theorem percentDecode?_encodeChar (c : Char) (rest : List Char) :
    percentDecode? (encodeChar c ++ rest) = (percentDecode? rest).map (String.utf8EncodeChar c ++ ·) := by
  unfold encodeChar
  split
  · rename_i hc
    exact percentDecode?_cons (ne_percent_of_isUnreserved hc) rest
  · exact percentDecode?_encodeBytes _ rest

theorem percentDecode?_encode_append (s rest : List Char) :
    percentDecode? (encode s ++ rest) = (percentDecode? rest).map (Text.utf8 s ++ ·) := by
  induction s with
  | nil => simp [encode, Text.utf8]
  | cons c s ih =>
    rw [encode, List.flatMap_cons, List.append_assoc, percentDecode?_encodeChar, ← encode, ih, Option.map_map,
      Text.utf8_cons]
    simp [Function.comp_def]

theorem percentDecode?_encode (s : List Char) : percentDecode? (encode s) = some (Text.utf8 s) := by
  have h := percentDecode?_encode_append s []
  rwa [List.append_nil, percentDecode?, Option.map_some, List.append_nil] at h

theorem decodeText?_encode (s : List Char) : decodeText? (encode s) = some s := by
  rw [decodeText?, percentDecode?_encode]
  simp [Text.fromUTF8?_utf8]

/-! ## Separators -/

theorem isUnreserved_upperDigit : ∀ n < 16, isUnreserved (Hex.upperDigit n) = true := by decide

/-- an encoded text is made of characters that stand for themselves and of percent signs -/
theorem isUnreserved_of_mem_encode {s : List Char} {c : Char} (hc : c ∈ encode s) (hpercent : c ≠ '%') :
    isUnreserved c = true := by
  obtain ⟨d, -, hd⟩ := List.mem_flatMap.1 hc
  unfold encodeChar at hd
  split at hd
  · rename_i hunreserved
    rw [List.mem_singleton.1 hd]
    exact hunreserved
  · obtain ⟨b, -, hb⟩ := List.mem_flatMap.1 hd
    have hlt := b.toNat_lt
    simp only [encodeByte, List.mem_cons, List.not_mem_nil, or_false] at hb
    rcases hb with rfl | rfl | rfl
    · exact absurd rfl hpercent
    · exact isUnreserved_upperDigit _ (by omega)
    · exact isUnreserved_upperDigit _ (by omega)

theorem notMem_encode {c : Char} (hc : isUnreserved c = false) (hpercent : c ≠ '%') (s : List Char) :
    c ∉ encode s := by
  intro hmem
  rw [isUnreserved_of_mem_encode hmem hpercent] at hc
  cases hc

theorem decodePair?_writePair (pair : List Char × List Char) : decodePair? (writePair pair) = some pair := by
  have hkey : ∀ c ∈ encode pair.1, (c != '=') = true := by
    intro c hc
    rw [bne_iff_ne]
    rintro rfl
    exact notMem_encode (by decide) (by decide) pair.1 hc
  have htake : (writePair pair).takeWhile (· != '=') = encode pair.1 := by
    rw [writePair, List.takeWhile_append_of_pos hkey]
    simp
  have hdrop : (writePair pair).dropWhile (· != '=') = '=' :: encode pair.2 := by
    rw [writePair, List.dropWhile_append_of_pos hkey]
    simp
  rw [decodePair?, hdrop, htake]
  simp only [decodeText?_encode]
  rfl

theorem ampersand_notMem_writePair (pair : List Char × List Char) : '&' ∉ writePair pair := by
  have hencode : ∀ s, '&' ∉ encode s := notMem_encode (by decide) (by decide)
  simp [writePair, hencode]

/-- pairs that are written and joined read back -/
theorem decode?_intercalate (pairs : List (List Char × List Char)) :
    decode? (['&'].intercalate (pairs.map writePair)) = some pairs := by
  have hread : (pairs.map writePair).mapM decodePair? = some pairs := by
    induction pairs with
    | nil => rfl
    | cons pair pairs ih =>
      rw [List.map_cons, List.mapM_cons, decodePair?_writePair, ih]
      rfl
  cases pairs with
  | nil => rfl
  | cons pair rest =>
    have hne : ['&'].intercalate ((pair :: rest).map writePair) ≠ [] := by
      have hequals : '=' ∈ ['&'].intercalate ((pair :: rest).map writePair) := by
        cases rest <;> simp [List.intercalate_cons_cons, writePair]
      exact List.ne_nil_of_mem hequals
    have hsplit : (['&'].intercalate ((pair :: rest).map writePair)).splitOn '&' = (pair :: rest).map writePair := by
      apply List.splitOn_intercalate '&'
      · rw [List.forall_mem_map]
        intro pair _
        exact ampersand_notMem_writePair pair
      · exact List.cons_ne_nil _ _
    rw [decode?, if_neg hne, hsplit, hread]

end QueryString

/-! ## The fields of a JSON value -/

def Json.isNull : Json → Bool
  | .null => true
  | _ => false

namespace QueryString

/-- the text that stands for a value of a field in the query string; there is none for `null` -/
inductive SentAs : Json → List Char → Prop
  | yes : SentAs (.bool true) ['1']
  | no : SentAs (.bool false) ['0']
  | integer (number : Int) : SentAs (.integer number) (Numeral.ofInt number)
  | float (number : Binary64) : SentAs (.float number) (floatLayout.write number)
  | str (text : String) : SentAs (.str text) text.toList
  | array (items : List Json) : SentAs (.array items) (Json.array items).compact
  | object (fields : List (String × Json)) : SentAs (.object fields) (Json.object fields).compact

theorem valueText_eq_none_iff {json : Json} : valueText json = none ↔ json.isNull = true := by
  cases json <;> simp [valueText, Json.isNull]

theorem SentAs.of_valueText {json : Json} {text : List Char} (h : valueText json = some text) : SentAs json text := by
  cases json with
  | null => cases h
  | bool flag =>
    cases h
    cases flag with
    | true => exact .yes
    | false => exact .no
  | integer number => cases h; exact .integer number
  | float number => cases h; exact .float number
  | str text => cases h; exact .str text
  | array items => cases h; exact .array items
  | object fields => cases h; exact .object fields

/-- the pairs that are sent stand for the fields that are not `null`, one for one -/
theorem forall₂_pairs {α : Type} (key : α → List Char) (value : α → Json) (fields : List α) :
    List.Forall₂ (fun field pair => pair.1 = key field ∧ SentAs (value field) pair.2)
      (fields.filter fun field => !(value field).isNull)
      ((fields.map fun field => (key field, value field)).filterMap fun field =>
        (valueText field.2).map (field.1, ·)) := by
  induction fields with
  | nil => exact .nil
  | cons field fields ih =>
    cases htext : valueText (value field) with
    | none =>
      have hnull := valueText_eq_none_iff.1 htext
      simpa [htext, hnull] using ih
    | some text =>
      have hnull : (value field).isNull = false := by
        rw [Bool.eq_false_iff]
        intro h
        rw [valueText_eq_none_iff.2 h] at htext
        cases htext
      simp only [List.filter_cons, hnull, Bool.not_false, if_true, List.map_cons, List.filterMap_cons, htext,
        Option.map_some]
      exact .cons ⟨rfl, .of_valueText htext⟩ ih

/--
**The query string reads back.** Cut at each `&` and each piece at its first `=`, both halves decoded, the query
string of an object gives the names and texts of its fields in order, and that of an array the indices and texts of
its items, without those that are `null`.
-/
theorem decode?_ofJson :
    (∀ fields : List (String × Json), ∃ decoded, (ofJson (.object fields)).bind decode? = some decoded ∧
      List.Forall₂ (fun field pair => pair.1 = field.1.toList ∧ SentAs field.2 pair.2)
        (fields.filter fun field => !field.2.isNull) decoded) ∧
    (∀ items : List Json, ∃ decoded, (ofJson (.array items)).bind decode? = some decoded ∧
      List.Forall₂ (fun item pair => pair.1 = Nat.toDigits 10 item.2 ∧ SentAs item.1 pair.2)
        (items.zipIdx.filter fun item => !item.1.isNull) decoded) := by
  constructor
  · intro fields
    exact ⟨_, decode?_intercalate _, forall₂_pairs (·.1.toList) (·.2) fields⟩
  · intro items
    exact ⟨_, decode?_intercalate _, forall₂_pairs (Nat.toDigits 10 ·.2) (·.1) items.zipIdx⟩

/-- separators, percent signs and blanks inside names and values are told from those of the query string -/
example : (ofJson (.object [("a&b", .str "1=2"), ("", .null), ("%26", .str "é +")])).bind decode?
    = some [("a&b".toList, "1=2".toList), ("%26".toList, "é +".toList)] := by decide +kernel

end QueryString

end StubTemplate
