/-
The keys under which the elements of an array are stored.

An element without a key is stored under an index: one more than the largest integer key so far, at least `0`, as long as
64 bits hold it (`indexAfter`). `Building.stored` lists the keys of a run of elements, one for each, and `Indexed` is what
is true of an array in the making after such a run.

Step and run: `Indexed.add` for one element, `Indexed.foldl` for all of them.

Main result: `add_item_of_parseArray`. An element without a key gets a key of its own in every array, unless the largest
index of all has been taken before it. Then it is stored under that index as well, and the value that was there is lost:
`item_replaces_last` is such an array.
-/
import StubTemplate.Proofs.Spelling

namespace StubTemplate.Argument

open Text

/-! ## Indices -/

/-- one more than the largest integer among the keys, and at least `0` -/
def indexAfter : List Key → Int
  | [] => 0
  | .str _ :: keys => indexAfter keys
  | .int i :: keys => max (i.toInt + 1) (indexAfter keys)

theorem indexAfter_nonneg (keys : List Key) : 0 ≤ indexAfter keys := by
  induction keys with
  | nil => exact Int.le_refl 0
  | cons key keys ih =>
    cases key with
    | str text => exact ih
    | int i => exact Int.le_trans ih (Int.le_max_right _ _)

theorem lt_indexAfter {i : Int64} {keys : List Key} (h : .int i ∈ keys) : i.toInt < indexAfter keys := by
  induction keys with
  | nil => cases h
  | cons key keys ih =>
    cases key with
    | str text => exact ih ((List.mem_cons.1 h).resolve_left nofun)
    | int j =>
      rw [indexAfter]
      rcases List.mem_cons.1 h with h | h
      · cases h
        omega
      · have := ih h
        omega

/-- the next index is `0`, or it comes right after a key -/
theorem indexAfter_eq_zero_or (keys : List Key) :
    indexAfter keys = 0 ∨ ∃ i, .int i ∈ keys ∧ indexAfter keys = i.toInt + 1 := by
  induction keys with
  | nil => exact .inl rfl
  | cons key keys ih =>
    have hrest : ∀ i : Int64, .int i ∈ keys → .int i ∈ key :: keys := fun i => List.mem_cons_of_mem key
    cases key with
    | str text => exact ih.imp_right fun ⟨i, hi, he⟩ => ⟨i, hrest i hi, he⟩
    | int j =>
      rcases Int.le_total (j.toInt + 1) (indexAfter keys) with hle | hle
      · rw [indexAfter, Int.max_eq_right hle]
        exact ih.imp_right fun ⟨i, hi, he⟩ => ⟨i, hrest i hi, he⟩
      · exact .inr ⟨j, List.mem_cons_self, Int.max_eq_left hle⟩

theorem indexAfter_append_str (keys : List Key) (text : String) :
    indexAfter (keys ++ [.str text]) = indexAfter keys := by
  induction keys with
  | nil => rfl
  | cons key keys ih => cases key <;> simp [indexAfter, ih]

theorem indexAfter_append_int (keys : List Key) (i : Int64) :
    indexAfter (keys ++ [.int i]) = max (i.toInt + 1) (indexAfter keys) := by
  induction keys with
  | nil => rfl
  | cons key keys ih =>
    cases key with
    | str text => exact ih
    | int j =>
      rw [List.cons_append, indexAfter, ih, indexAfter]
      omega

/-! ## Arrays in the making -/

theorem toInt_clamp (i : Int) :
    (Numeral.clamp i).toInt = max Int64.minValue.toInt (min i Int64.maxValue.toInt) := by
  have hmin : Int64.minValue.toInt = -9223372036854775808 := rfl
  have hmax : Int64.maxValue.toInt = 9223372036854775807 := rfl
  rw [Numeral.clamp, Int64.toInt_ofInt_of_le]
  all_goals omega

def Element.value : Element → Value
  | .item value => value
  | .entry _ value => value

namespace Building

/-- the key under which an element is put in -/
def keyOf (b : Building) : Element → Key
  | .item _ => .int b.next
  | .entry key _ => key

/-- the keys under which elements are put in, one for each -/
def stored (b : Building) : List Element → List Key
  | [] => []
  | e :: es => b.keyOf e :: stored (b.add e) es

theorem entries_add (b : Building) (e : Element) : (b.add e).entries = b.entries.put (b.keyOf e) e.value := by
  cases e <;> rfl

/-- what is true of an array in the making whose elements have been put in under `keys` -/
structure Indexed (b : Building) (keys : List Key) : Prop where
  mem_keys_iff : ∀ key, key ∈ b.entries.keys ↔ key ∈ keys
  next_eq : b.next = Numeral.clamp (indexAfter keys)

theorem indexed_empty : Indexed empty [] := ⟨fun _ => Iff.rfl, rfl⟩

theorem toInt_following (i : Int64) :
    (following i).toInt = max Int64.minValue.toInt (min (i.toInt + 1) Int64.maxValue.toInt) := toInt_clamp _

theorem toInt_nextAfter_int (next i : Int64) :
    (nextAfter next (.int i)).toInt = max next.toInt (following i).toInt := by
  rw [nextAfter]
  split
  · rename_i hle
    rw [Int64.le_iff_toInt_le] at hle
    omega
  · rename_i hle
    rw [Int64.le_iff_toInt_le] at hle
    omega

/-- the next index stays what it is by the keys so far, as near as 64 bits come to it -/
theorem next_add {b : Building} {keys : List Key} (h : b.next = Numeral.clamp (indexAfter keys)) (e : Element) :
    (b.add e).next = Numeral.clamp (indexAfter (keys ++ [b.keyOf e])) := by
  have hmin : Int64.minValue.toInt = -9223372036854775808 := rfl
  have hmax : Int64.maxValue.toInt = 9223372036854775807 := rfl
  have hnonneg := indexAfter_nonneg keys
  have hnext : b.next.toInt = max Int64.minValue.toInt (min (indexAfter keys) Int64.maxValue.toInt) := by
    rw [h, toInt_clamp]
  rw [← Int64.toInt_inj, toInt_clamp]
  cases e with
  | item value =>
    have hitem : (b.add (.item value)).next.toInt = (following b.next).toInt := rfl
    rw [hitem, toInt_following, keyOf, indexAfter_append_int]
    omega
  | entry key value =>
    cases key with
    | str text =>
      rw [keyOf, indexAfter_append_str]
      exact hnext
    | int i =>
      have hentry : (b.add (.entry (.int i) value)).next.toInt = (nextAfter b.next (.int i)).toInt := rfl
      rw [hentry, toInt_nextAfter_int, toInt_following, keyOf, indexAfter_append_int]
      omega

theorem Indexed.add {b : Building} {keys : List Key} (h : b.Indexed keys) (e : Element) :
    (b.add e).Indexed (keys ++ [b.keyOf e]) := by
  refine ⟨fun key => ?_, next_add h.next_eq e⟩
  rw [entries_add, Entries.keys_put, List.mem_append, List.mem_singleton, ← h.mem_keys_iff]
  split
  · rename_i hmem
    refine ⟨.inl, ?_⟩
    rintro (hkey | rfl)
    exacts [hkey, hmem]
  · rw [List.mem_append, List.mem_singleton]

theorem Indexed.foldl {b : Building} {keys : List Key} (h : b.Indexed keys) (es : List Element) :
    (es.foldl Building.add b).Indexed (keys ++ b.stored es) := by
  induction es generalizing b keys with
  | nil => rwa [stored, List.append_nil]
  | cons e es ih =>
    have hrest := ih (h.add e)
    rwa [List.append_assoc] at hrest

theorem Indexed.toInt_next {b : Building} {keys : List Key} (h : b.Indexed keys) :
    b.next.toInt = min (indexAfter keys) Int64.maxValue.toInt := by
  have hmin : Int64.minValue.toInt = -9223372036854775808 := rfl
  have hmax : Int64.maxValue.toInt = 9223372036854775807 := rfl
  have hnonneg := indexAfter_nonneg keys
  rw [h.next_eq, toInt_clamp]
  omega

/-- no index comes after the largest of all, and one does after any other -/
theorem indexAfter_le_iff {keys : List Key} :
    indexAfter keys ≤ Int64.maxValue.toInt ↔ Key.int Int64.maxValue ∉ keys := by
  constructor
  · intro hle hmem
    exact absurd (lt_indexAfter hmem) (Int.not_lt.2 hle)
  · intro hmem
    rcases indexAfter_eq_zero_or keys with hzero | ⟨i, hi, he⟩
    · rw [hzero]
      decide
    · have hne : i.toInt ≠ Int64.maxValue.toInt := fun h => hmem (Int64.toInt_inj.1 h ▸ hi)
      have hle := i.toInt_le
      omega

/-- an element without a key is put in at the end, under the index after all keys, if there is such an index -/
theorem Indexed.add_item {b : Building} {keys : List Key} (h : b.Indexed keys)
    (hkeys : Key.int Int64.maxValue ∉ keys) (value : Value) :
    b.next.toInt = indexAfter keys ∧ .int b.next ∉ keys ∧
      (b.add (.item value)).entries = b.entries ++ [(.int b.next, value)] := by
  have hnext : b.next.toInt = indexAfter keys := by
    rw [h.toInt_next, Int.min_eq_left (indexAfter_le_iff.2 hkeys)]
  have hnew : .int b.next ∉ keys := fun hmem => absurd (lt_indexAfter hmem) (by omega)
  refine ⟨hnext, hnew, ?_⟩
  rw [entries_add, keyOf, Entries.put_of_notMem]
  · rfl
  · rwa [h.mem_keys_iff]

/-- after the largest index, an element without a key is put in under that index as well -/
theorem Indexed.next_of_last {b : Building} {keys : List Key} (h : b.Indexed keys)
    (hkeys : Key.int Int64.maxValue ∈ keys) : b.next = Int64.maxValue := by
  have hlt := lt_indexAfter hkeys
  rw [← Int64.toInt_inj, h.toInt_next, Int.min_eq_right (Int.le_of_lt hlt)]

end Building

open Building

/--
**An element without a key takes no key from another, but for the largest index of all.** In every array that is read,
such an element is put in behind all others, under an index that none of the elements before it has been put in under:
one more than the largest integer key so far, and at least `0`. The exception is an element after one that was put in
under the largest index of 64 bits. It is put in under this index too, and its value stands for the earlier one.
-/
theorem add_item_of_parseArray {literal : List Char} {v : Value} (h : parseArray literal = .ok v) :
    ∃ es, parseElements (elementTexts (trim literal)) = .ok es ∧ v = arrayOf es ∧
      ∀ before value after, es = before ++ .item value :: after →
        (.int Int64.maxValue ∉ stored .empty before → ∃ i : Int64,
          i.toInt = indexAfter (stored .empty before) ∧ .int i ∉ stored .empty before ∧
          ((before.foldl add .empty).add (.item value)).entries
            = (before.foldl add .empty).entries ++ [(.int i, value)]) ∧
        (.int Int64.maxValue ∈ stored .empty before →
          ((before.foldl add .empty).add (.item value)).entries
            = (before.foldl add .empty).entries.put (.int Int64.maxValue) value) := by
  obtain ⟨es, hes, rfl⟩ := exists_of_parseArray h
  refine ⟨es, hes, rfl, ?_⟩
  intro before value after _
  have hindexed : (before.foldl add .empty).Indexed (stored .empty before) := indexed_empty.foldl before
  refine ⟨fun hlast => ⟨_, hindexed.add_item hlast value⟩, ?_⟩
  intro hlast
  rw [entries_add, keyOf, hindexed.next_of_last hlast]
  rfl

/-- a negative key, a text that is the numeral of an index, and an element without a key -/
def mixedElements : List Element := [.entry (.int (-9)) (.int 1), .entry (.int 3) .null, .item (.bool true)]

theorem parseElements_mixed :
    parseElements (elementTexts (trim "[-9 => 1, '3' => null, true]".toList)) = .ok mixedElements := by
  have hnegative : Reads (.entry (.int (-9)) (.int 1)) "-9 => 1".toList :=
    ⟨by decide +kernel, ("-9 ".toList, " 1".toList), by decide +kernel, rfl, parseElement_scalar (by decide)⟩
  have hnumeral : Reads (.entry (.int 3) .null) "'3' => null".toList :=
    ⟨by decide +kernel, ("'3' ".toList, " null".toList), by decide +kernel, rfl, parseElement_scalar (by decide)⟩
  have hitem : Reads (.item (.bool true)) "true".toList :=
    ⟨by decide +kernel, by decide +kernel, parseElement_scalar (by decide)⟩
  have htexts : elementTexts (trim "[-9 => 1, '3' => null, true]".toList)
      = ["-9 => 1".toList, "'3' => null".toList, "true".toList] := by decide +kernel
  rw [htexts]
  exact parseElements_of_reads (.cons hnegative (.cons hnumeral (.cons hitem .nil)))

theorem add_item_of_parseArray_mixed : ∃ i : Int64, i.toInt = 4 ∧
    (mixedElements.foldl add .empty).entries = [(.int (-9), .int 1), (.int 3, .null), (.int i, .bool true)] := by
  have hread : parseArray "[-9 => 1, '3' => null, true]".toList = .ok (arrayOf mixedElements) := by
    rw [parseArray, parseElements_mixed]
    rfl
  obtain ⟨es, hes, -, hitems⟩ := add_item_of_parseArray hread
  obtain rfl : mixedElements = es := Except.ok.inj (parseElements_mixed.symm.trans hes)
  obtain ⟨i, hi, -, hentries⟩ := (hitems (mixedElements.take 2) (.bool true) [] rfl).1 (by decide)
  exact ⟨i, hi, hentries⟩

/-- an element without a key after the largest index -/
def lastElements : List Element := [.entry (.int Int64.maxValue) (.int 1), .item (.int 2)]

/-- **After the largest index, an element without a key takes the key of another**, whose value is lost -/
theorem item_replaces_last :
    parseElements (elementTexts (trim "[9223372036854775807 => 1, 2]".toList)) = .ok lastElements ∧
    stored .empty lastElements = [.int Int64.maxValue, .int Int64.maxValue] ∧
    parseArray "[9223372036854775807 => 1, 2]".toList = .ok (.map [(.int Int64.maxValue, .int 2)]) := by
  have hlargest : Reads (.entry (.int Int64.maxValue) (.int 1)) "9223372036854775807 => 1".toList :=
    ⟨by decide +kernel, ("9223372036854775807 ".toList, " 1".toList), by decide +kernel, by rfl,
      parseElement_scalar (by decide)⟩
  have hitem : Reads (.item (.int 2)) "2".toList :=
    ⟨by decide +kernel, by decide +kernel, parseElement_scalar (by decide)⟩
  have htexts : elementTexts (trim "[9223372036854775807 => 1, 2]".toList)
      = ["9223372036854775807 => 1".toList, "2".toList] := by decide +kernel
  have hread : parseElements (elementTexts (trim "[9223372036854775807 => 1, 2]".toList)) = .ok lastElements := by
    rw [htexts]
    exact parseElements_of_reads (.cons hlargest (.cons hitem .nil))
  refine ⟨hread, by decide, ?_⟩
  rw [parseArray, hread]
  rfl

end StubTemplate.Argument
