/-
What single literals read as: plain numerals, quoted strings, and arrays made of elements that are already read.

- `scalar_ofInt`: the plain numeral of a 64-bit integer reads as that integer.
- `scalar_quoted`: a text between two equal quotes reads as the string that its body spells.
- `arrayOf_items`, `arrayOf_entries`: elements without keys make the list of their values, elements with different
  keys the map of exactly these entries.
What an element reads as does not depend on the blanks around it (`scalar_trim`, `parseElement_trim`).
-/
import StubTemplate.Argument.Parse
import StubTemplate.Proofs.Bytes
import StubTemplate.Proofs.TopLevel

namespace StubTemplate

/-! ## Plain numerals -/

theorem Text.tight_of_forall {s : List Char} (hne : s ≠ []) (h : ∀ c ∈ s, isBlank c = false) : Tight s := by
  refine ⟨hne, ?_, ?_⟩
  · intro c hc
    exact h c (List.mem_of_mem_head? hc)
  · intro c hc
    exact h c (List.mem_of_mem_getLast? hc)

namespace Numeral

theorem ne_of_isDigit {c d : Char} (hc : c.isDigit = true) (hd : d.isDigit = false) : c ≠ d := by
  rintro rfl
  rw [hc] at hd
  exact absurd hd (by decide)

theorem isBlank_of_isDigit {c : Char} (h : c.isDigit = true) : Text.isBlank c = false := by
  obtain ⟨hlow, hhigh⟩ := Text.isDigit_iff.1 h
  rw [Text.isBlank, List.any_eq_false]
  simp only [Text.blankRanges, List.forall_mem_cons, decide_eq_true_eq]
  refine ⟨?_, ?_, ?_, ?_, ?_, ?_, ?_, ?_, ?_, ?_, by simp⟩
  all_goals omega

theorem isAlpha_of_isDigit {c : Char} (h : c.isDigit = true) : c.isAlpha = false := by
  obtain ⟨hlow, hhigh⟩ := Text.isDigit_iff.1 h
  rw [← Bool.not_eq_true, Text.isAlpha_iff]
  omega

theorem isDigit_toDigits {n : Nat} : ∀ c ∈ Nat.toDigits 10 n, c.isDigit = true := by
  intro c hc
  exact Nat.isDigit_of_mem_toDigits (by decide) (by decide) hc

/-- a plain numeral is made of digits and, at most, a minus -/
theorem isDigit_or_minus {i : Int} : ∀ c ∈ ofInt i, c.isDigit = true ∨ c = '-' := by
  intro c hc
  rcases List.mem_append.1 hc with h | h
  · right
    split at h
    · simpa using h
    · cases h
  · exact Or.inl (isDigit_toDigits c h)

theorem ofInt_ne_nil (i : Int) : ofInt i ≠ [] := by simp [ofInt, Nat.toDigits_ne_nil]

theorem tight_ofInt (i : Int) : Text.Tight (ofInt i) := by
  apply Text.tight_of_forall (ofInt_ne_nil i)
  intro c hc
  rcases isDigit_or_minus c hc with h | rfl
  · exact isBlank_of_isDigit h
  · decide

/-- what a numeral is not made of -/
theorem ne_of_mem_ofInt {i : Int} {c d : Char} (hc : c ∈ ofInt i) (hd : d.isDigit = false) (hm : d ≠ '-') : c ≠ d := by
  rcases isDigit_or_minus c hc with h | rfl
  · exact ne_of_isDigit h hd
  · exact hm.symm

theorem isPlain_of_mem_ofInt {i : Int} : ∀ c ∈ ofInt i, Nesting.isPlain c = true := by
  intro c hc
  have hquote : Nesting.isQuote c = false := by
    simp [Nesting.isQuote, ne_of_mem_ofInt hc (d := '\x27') (by decide) (by decide),
      ne_of_mem_ofInt hc (d := '"') (by decide) (by decide)]
  simp [Nesting.isPlain, hquote, ne_of_mem_ofInt hc (d := '[') (by decide) (by decide),
    ne_of_mem_ofInt hc (d := ']') (by decide) (by decide), ne_of_mem_ofInt hc (d := '\\') (by decide) (by decide)]

theorem readSign_digits {s : List Char} (h : ∀ c ∈ s, c.isDigit = true) : readSign s = (false, s) := by
  unfold readSign
  split
  · exact absurd (h '+' List.mem_cons_self) (by decide)
  · exact absurd (h '-' List.mem_cons_self) (by decide)
  · rfl

theorem readSign_ofInt (i : Int) : readSign (ofInt i) = (decide (i < 0), Nat.toDigits 10 i.natAbs) := by
  unfold ofInt
  split
  · rename_i h
    simp [readSign, h]
  · rename_i h
    rw [List.nil_append, readSign_digits isDigit_toDigits, decide_eq_false h]

theorem read?_ofInt (i : Int) : read? (ofInt i) = some ⟨decide (i < 0), Nat.toDigits 10 i.natAbs, none, none⟩ := by
  have htake : (Nat.toDigits 10 i.natAbs).takeWhile Char.isDigit = Nat.toDigits 10 i.natAbs :=
    List.takeWhile_eq_self_iff.2 isDigit_toDigits
  have hdrop : (Nat.toDigits 10 i.natAbs).dropWhile Char.isDigit = [] :=
    List.dropWhile_eq_nil_iff.2 isDigit_toDigits
  simp [read?, readSign_ofInt, htake, hdrop, readFraction, readExponent, Nat.toDigits_ne_nil]

theorem clamp_of_fits {i : Int} (hlow : Int64.minValue.toInt ≤ i) (hhigh : i ≤ Int64.maxValue.toInt) :
    clamp i = Int64.ofInt i := by
  rw [clamp, Int.min_eq_left hhigh, Int.max_eq_right hlow]

theorem clamp_toInt (i : Int64) : clamp i.toInt = i := by
  rw [clamp_of_fits i.minValue_le_toInt i.toInt_le, Int64.ofInt_toInt]

theorem toInt64_ofInt (i : Int) :
    toInt64 ⟨decide (i < 0), Nat.toDigits 10 i.natAbs, none, none⟩ = clamp i := by
  simp only [toInt64, digitsValue, Nat.ofDigitChars_ten_toDigits, decide_eq_true_eq]
  congr 1
  split <;> omega

theorem digitChar_sub {c : Char} (h : c.isDigit = true) : Nat.digitChar (c.toNat - '0'.toNat) = c := by
  have hzero : '0'.toNat = 48 := by decide
  obtain ⟨hlow, hhigh⟩ := Text.isDigit_iff.1 h
  rw [hzero, ← Char.toNat_inj, Nat.toNat_digitChar_of_lt_ten (by omega)]
  omega

/-- digits that come after a number that is not zero are written after its own -/
theorem toDigits_ofDigitChars {n : Nat} (hn : 0 < n) {s : List Char} (h : ∀ c ∈ s, c.isDigit = true) :
    Nat.toDigits 10 (Nat.ofDigitChars 10 s n) = Nat.toDigits 10 n ++ s := by
  induction s generalizing n with
  | nil => rw [Nat.ofDigitChars_nil, List.append_nil]
  | cons c s ih =>
    have hdigit := h c List.mem_cons_self
    have hc : c.toNat - '0'.toNat < 10 := by
      have hzero : '0'.toNat = 48 := by decide
      have hrange := Text.isDigit_iff.1 hdigit
      omega
    have hone : Nat.toDigits 10 n ++ [c] = Nat.toDigits 10 (10 * n + (c.toNat - '0'.toNat)) := by
      rw [← Nat.toDigits_append_toDigits (by decide) hn hc, Nat.toDigits_of_lt_base hc, digitChar_sub hdigit]
    rw [Nat.ofDigitChars_cons, ih (by omega) fun d hd => h d (List.mem_cons_of_mem c hd), ← hone, List.append_assoc,
      List.singleton_append]

theorem head?_toDigits_ne {n : Nat} (hn : 0 < n) : (Nat.toDigits 10 n).head? ≠ some '0' := by
  induction n using Nat.strongRecOn with
  | _ n ih =>
    rw [Nat.toDigits_eq_if (by decide)]
    split
    · rw [List.head?_singleton, ne_eq, Option.some.injEq, Nat.digitChar_eq_zero]
      omega
    · have hhead := ih (n / 10) (by omega) (by omega)
      cases hs : Nat.toDigits 10 (n / 10) with
      | nil => exact absurd hs Nat.toDigits_ne_nil
      | cons c s =>
        rw [hs] at hhead
        exact hhead

/-- digits that start with no zero, or are a zero without a minus, are written as they stand -/
theorem toDigits_of_isPlain {negative : Bool} {s : List Char} (h : isPlain negative s = true) :
    Nat.toDigits 10 (digitsValue s) = s ∧ (negative = true → 0 < digitsValue s) := by
  unfold isPlain at h
  split at h
  · cases h
  · refine ⟨by decide, ?_⟩
    rintro rfl
    cases h
  · rename_i first rest hnot
    simp only [Bool.and_eq_true, bne_iff_ne, List.all_eq_true, List.forall_mem_cons] at h
    obtain ⟨hfirst, hdigit, hrest⟩ := h
    have hzero : '0'.toNat = 48 := by decide
    have hrange := Text.isDigit_iff.1 hdigit
    have hpos : 0 < first.toNat - '0'.toNat := by
      have hne : first.toNat ≠ '0'.toNat := fun he => hfirst (Char.toNat_inj.1 he)
      omega
    have hdigits : Nat.toDigits 10 (digitsValue (first :: rest)) = first :: rest := by
      rw [digitsValue, Nat.ofDigitChars_cons, Nat.mul_zero, Nat.zero_add, toDigits_ofDigitChars hpos hrest,
        Nat.toDigits_of_lt_base (by omega), digitChar_sub hdigit, List.singleton_append]
    refine ⟨hdigits, fun _ => Nat.pos_of_ne_zero ?_⟩
    intro hvalue
    rw [hvalue, Nat.toDigits_zero] at hdigits
    exact hfirst (List.cons.inj hdigits).1.symm

theorem isPlain_toDigits {negative : Bool} {n : Nat} (h : negative = true → 0 < n) :
    isPlain negative (Nat.toDigits 10 n) = true := by
  rcases Nat.eq_zero_or_pos n with rfl | hn
  · cases negative with
    | false => decide
    | true => exact absurd (h rfl) (Nat.lt_irrefl 0)
  · have hhead := head?_toDigits_ne hn
    have hdigit := isDigit_toDigits (n := n)
    cases hs : Nat.toDigits 10 n with
    | nil => exact absurd hs Nat.toDigits_ne_nil
    | cons first rest =>
      rw [hs] at hhead hdigit
      have hfirst : first ≠ '0' := fun he => hhead (congrArg some he)
      rw [isPlain]
      · simpa [hfirst] using hdigit
      · intro he
        exact absurd he hfirst

theorem readMinus_ofInt (i : Int) : readMinus (ofInt i) = (decide (i < 0), Nat.toDigits 10 i.natAbs) := by
  unfold ofInt
  split
  · rename_i h
    simp [readMinus, h]
  · rename_i h
    have hminus : ∀ rest, Nat.toDigits 10 i.natAbs ≠ '-' :: rest := by
      intro rest hrest
      exact absurd (isDigit_toDigits '-' (hrest ▸ List.mem_cons_self)) (by decide)
    rw [List.nil_append, readMinus, decide_eq_false h]
    exact hminus

theorem ofInt_of_readMinus {s digits : List Char} {negative : Bool} (h : readMinus s = (negative, digits))
    (hplain : isPlain negative digits = true) :
    ofInt (if negative then -(digitsValue digits) else digitsValue digits) = s := by
  obtain ⟨hdigits, hpos⟩ := toDigits_of_isPlain hplain
  unfold readMinus at h
  split at h
  · cases h
    simp [ofInt, hpos rfl, hdigits]
  · cases h
    simp [ofInt, hdigits]

/-- a text is read as an integer of 64 bits exactly if it is its plain numeral -/
theorem canonicalInt?_eq_some_iff {s : List Char} {i : Int64} : canonicalInt? s = some i ↔ s = ofInt i.toInt := by
  constructor
  · intro h
    rcases hread : readMinus s with ⟨negative, digits⟩
    simp only [canonicalInt?, hread, Option.ite_none_right_eq_some, Option.some.injEq] at h
    obtain ⟨⟨hplain, hlow, hhigh⟩, hi⟩ := h
    rw [← hi, Int64.toInt_ofInt_of_le hlow (Int.lt_add_one_of_le hhigh), ofInt_of_readMinus hread hplain]
  · rintro rfl
    have hplain : isPlain (decide (i.toInt < 0)) (Nat.toDigits 10 i.toInt.natAbs) = true := by
      apply isPlain_toDigits
      intro hneg
      have := of_decide_eq_true hneg
      omega
    have hvalue : (if decide (i.toInt < 0) = true then -(i.toInt.natAbs : Int) else i.toInt.natAbs) = i.toInt := by
      simp only [decide_eq_true_eq]
      split <;> omega
    simp only [canonicalInt?, readMinus_ofInt, digitsValue, Nat.ofDigitChars_ten_toDigits, hvalue]
    rw [if_pos ⟨hplain, i.minValue_le_toInt, i.toInt_le⟩, Int64.ofInt_toInt]

theorem canonicalInt?_eq_none {s : List Char} (h : ∀ i : Int64, s ≠ ofInt i.toInt) : canonicalInt? s = none := by
  cases hs : canonicalInt? s with
  | none => rfl
  | some i => exact absurd (canonicalInt?_eq_some_iff.1 hs) (h i)

end Numeral

/-! ## Entries -/

theorem Entries.put_of_notMem {key : Key} {entries : Entries} (h : key ∉ entries.keys) (value : Value) :
    entries.put key value = entries ++ [(key, value)] := by
  induction entries with
  | nil => rfl
  | cons entry rest ih =>
    obtain ⟨k, v⟩ := entry
    simp only [keys, List.map_cons, List.mem_cons, not_or] at h
    rw [put, if_neg (Ne.symm h.1), ih h.2]
    rfl

namespace Argument

open Text Nesting

/-! ## Scalars -/

theorem scalar_trim (s : List Char) : scalar (trim s) = scalar s := by
  unfold scalar
  rw [trim_trim]

theorem parseKey_trim (s : List Char) : parseKey (trim s) = parseKey s := by
  unfold parseKey key?
  rw [trim_trim, scalar_trim]

theorem parseElement_trim (s : List Char) : parseElement (trim s) = parseElement s := by
  rw [parseElement, parseElement, trim_trim, scalar_trim]

theorem parseElement_scalar {s : List Char} (h : isArray (trim s) = false) : parseElement s = .ok (scalar s) := by
  rw [parseElement, dif_neg (by simp [h])]

/-- an element without `=>` is read as it stands -/
theorem parseElements_item {text : List Char} (hsingle : hasSingleEquals text = false)
    (hcut : cutTop ['=', '>'] (fun _ => true) text = none) (rest : List (List Char)) :
    parseElements (text :: rest) = (do
      let value ← parseElement text
      let elements ← parseElements rest
      return .item value :: elements) := by
  rw [parseElements, if_neg (by simp [hsingle])]
  split
  · rename_i hfound
    rw [hcut] at hfound
    cases hfound
  · rfl

/-- an element with `=>` is read as what stands behind it and before it -/
theorem parseElements_entry {text : List Char} {cut : List Char × List Char} (hsingle : hasSingleEquals text = false)
    (hcut : cutTop ['=', '>'] (fun _ => true) text = some cut) (rest : List (List Char)) :
    parseElements (text :: rest) = (do
      let value ← parseElement cut.2
      let key ← parseKey cut.1
      let elements ← parseElements rest
      return .entry key value :: elements) := by
  rw [parseElements, if_neg (by simp [hsingle])]
  split
  · rename_i hfound
    rw [hcut] at hfound
    cases hfound
    rfl
  · rename_i hfound
    rw [hcut] at hfound
    cases hfound

theorem parseKey_str {s : List Char} {text : String} (h : isArray (trim s) = false) (hs : scalar s = .str text)
    (htext : ∀ i : Int64, text.toList ≠ Numeral.ofInt i.toInt) : parseKey s = .ok (.str text) := by
  have hkey : Key.ofText text = .str text := by simp [Key.ofText, Numeral.canonicalInt?_eq_none htext]
  simp [parseKey, h, key?, hs, hkey]

theorem parseKey_int {s : List Char} {i : Int64} (h : isArray (trim s) = false) (hs : scalar s = .int i) :
    parseKey s = .ok (.int i) := by
  simp [parseKey, h, key?, hs]

/-- what starts with anything but a letter is no word -/
theorem isWord_eq_false (word : String) (hword : word.toList.all Char.isAlpha = true) {c : Char}
    (hc : c.isAlpha = false) (rest : List Char) : isWord word (c :: rest) = false := by
  have hlower : c.toLower = c := by
    have hupper : ¬ c.isUpper = true := by
      rw [← Bool.not_eq_true, isAlpha_iff, not_or, ← isUpper_iff] at hc
      exact hc.1
    exact dif_neg fun h => hupper (decide_eq_true h)
  simp only [isWord, beq_eq_false_iff_ne, ne_eq, List.map_cons, hlower]
  intro h
  rw [← h, List.all_cons, hc] at hword
  exact absurd hword (by simp)

/-- what is no word is a numeral, a quoted string or a bare one -/
theorem scalar_of_notAlpha {c : Char} {rest : List Char} (ht : trim (c :: rest) = c :: rest) (hc : c.isAlpha = false) :
    scalar (c :: rest) =
      match Numeral.read? (c :: rest) with
      | some n => if n.fraction.isSome then .float n.toBinary64 else .int n.toInt64
      | none =>
        match unquote? (c :: rest) with
        | some body => .str (String.ofList (unescape body))
        | none => .str (String.ofList (c :: rest)) := by
  have hnull := isWord_eq_false "null" (by decide) hc rest
  have htrue := isWord_eq_false "true" (by decide) hc rest
  have hfalse := isWord_eq_false "false" (by decide) hc rest
  unfold scalar
  rw [ht]
  dsimp only
  rw [hnull, htrue, hfalse]
  rfl

/-- the plain numeral of a 64-bit integer reads as that integer -/
theorem scalar_ofInt (i : Int64) : scalar (Numeral.ofInt i.toInt) = .int i := by
  obtain ⟨c, rest, hs⟩ := List.exists_cons_of_ne_nil (Numeral.ofInt_ne_nil i.toInt)
  have ht := Numeral.tight_ofInt i.toInt
  have hread := Numeral.read?_ofInt i.toInt
  have hc : c.isAlpha = false := by
    rcases Numeral.isDigit_or_minus c (hs ▸ List.mem_cons_self) with h | rfl
    · exact Numeral.isAlpha_of_isDigit h
    · decide
  rw [hs] at ht hread ⊢
  rw [scalar_of_notAlpha ht.trim_eq hc, hread]
  simp [Numeral.toInt64_ofInt, Numeral.clamp_toInt]

theorem getLast?_wrap (first last : Char) (s : List Char) : (first :: s ++ [last]).getLast? = some last :=
  List.getLast?_concat

theorem inside_wrap {first last : Char} (hfirst : first.utf8Size = 1) (hlast : last.utf8Size = 1) (s : List Char) :
    inside (first :: s ++ [last]) = s := by
  simp [inside, hfirst, hlast]

theorem read?_quote {q : Char} (hq : isQuote q = true) (rest : List Char) : Numeral.read? (q :: rest) = none := by
  rcases quote_cases hq with rfl | rfl <;> rfl

/-- what starts with a quote is quoted if it ends with the same one -/
theorem unquote?_quote {q : Char} (hq : isQuote q = true) (rest : List Char) :
    unquote? (q :: rest) = if (q :: rest).getLast? = some q then some (inside (q :: rest)) else none := by
  rcases quote_cases hq with rfl | rfl <;> simp [unquote?]

theorem isAlpha_quote {q : Char} (hq : isQuote q = true) : q.isAlpha = false := by
  rcases quote_cases hq with rfl | rfl <;> decide

/-- a text between two equal quotes reads as the string that its body spells -/
theorem scalar_quoted {q : Char} (hq : isQuote q = true) (body : List Char) :
    scalar (q :: body ++ [q]) = .str (String.ofList (unescape body)) := by
  have hsize : q.utf8Size = 1 := by rcases quote_cases hq with rfl | rfl <;> decide
  have hblank : isBlank q = false := by rcases quote_cases hq with rfl | rfl <;> decide
  have hlast := getLast?_wrap q q body
  have hinside := inside_wrap hsize hsize body
  have ht : Tight (q :: body ++ [q]) := ⟨by simp, by simpa using hblank, by rw [hlast]; simpa using hblank⟩
  rw [List.cons_append] at ht hlast hinside ⊢
  rw [scalar_of_notAlpha ht.trim_eq (isAlpha_quote hq), read?_quote hq, unquote?_quote hq, if_pos hlast, hinside]

/-- a text that starts with a quote and does not end with it reads as it stands -/
theorem scalar_unclosed {q : Char} (hq : isQuote q = true) {rest : List Char} (ht : trim (q :: rest) = q :: rest)
    (hlast : (q :: rest).getLast? ≠ some q) : scalar (q :: rest) = .str (String.ofList (q :: rest)) := by
  rw [scalar_of_notAlpha ht (isAlpha_quote hq), read?_quote hq, unquote?_quote hq, if_neg hlast]

/-! ## Arrays -/

/-- a number that is an index -/
structure Fits (n : Nat) : Prop where
  le : (n : Int) ≤ Int64.maxValue.toInt

theorem Fits.mono {m n : Nat} (h : Fits n) (hle : m ≤ n) : Fits m := ⟨Int.le_trans (Int.ofNat_le.2 hle) h.le⟩

theorem Fits.lt {n : Nat} (h : Fits n) : n < 9223372036854775808 := by
  have hmax : Int64.maxValue.toInt = 9223372036854775807 := rfl
  have hle := h.le
  omega

namespace Building

theorem following_ofNat {k : Nat} (h : Fits (k + 1)) : following (Int64.ofNat k) = Int64.ofNat (k + 1) := by
  unfold following
  have hlt := h.lt
  have hmin : Int64.minValue.toInt = -9223372036854775808 := rfl
  rw [Int64.toInt_ofNat_of_lt (by omega)]
  change Numeral.clamp ((k + 1 : Nat) : Int) = _
  rw [Numeral.clamp_of_fits (by omega) h.le]
  exact Int64.ofInt_eq_ofNat

/-- elements without keys take the indices from `k` on, as long as these fit -/
theorem foldl_items (items : List Value) {b : Building} {k : Nat} (hfits : Fits (k + items.length))
    (hnext : b.next = Int64.ofNat k) (hkeyed : b.keyed = false)
    (hkeys : ∀ key ∈ b.entries.keys, ∃ j, j < k ∧ key = .int (Int64.ofNat j)) :
    ((items.map Element.item).foldl add b).value = .list (b.entries.values ++ items) := by
  induction items generalizing b k with
  | nil => simp [value, hkeyed]
  | cons item items ih =>
    have hlt := hfits.lt
    rw [List.length_cons] at hlt
    have hnew : Key.int b.next ∉ b.entries.keys := by
      intro hmem
      obtain ⟨j, hj, he⟩ := hkeys _ hmem
      rw [hnext, Key.int.injEq, ← Int64.toInt_inj, Int64.toInt_ofNat_of_lt, Int64.toInt_ofNat_of_lt] at he
      all_goals omega
    have hlength : Fits (k + 1 + items.length) := hfits.mono (by rw [List.length_cons]; omega)
    simp only [List.map_cons, List.foldl_cons, add, Entries.put_of_notMem hnew]
    have hfollowing : following b.next = Int64.ofNat (k + 1) := by rw [hnext, following_ofNat (hlength.mono (by omega))]
    refine (ih (b := ⟨_, _, _⟩) hlength hfollowing hkeyed ?_).trans ?_
    · intro key hkey
      simp only [Entries.keys, List.map_append, List.mem_append] at hkey
      rcases hkey with hkey | hkey
      · obtain ⟨j, hj, he⟩ := hkeys key hkey
        exact ⟨j, by omega, he⟩
      · exact ⟨k, by omega, by simpa [hnext] using hkey⟩
    · simp [Entries.values]

/-- elements with keys that are new and different make exactly their entries -/
theorem foldl_entries (entries : Entries) {b : Building} (hkeys : (b.entries.keys ++ entries.keys).Nodup)
    (hkeyed : b.keyed = true ∨ entries ≠ []) :
    ((entries.map fun entry => Element.entry entry.1 entry.2).foldl add b).value = .map (b.entries ++ entries) := by
  induction entries generalizing b with
  | nil =>
    have h : b.keyed = true := hkeyed.resolve_right fun h => h rfl
    simp [value, h]
  | cons entry entries ih =>
    obtain ⟨key, v⟩ := entry
    have hnew : key ∉ b.entries.keys := by
      intro hmem
      exact (List.nodup_append.1 hkeys).2.2 key hmem key List.mem_cons_self rfl
    simp only [List.map_cons, List.foldl_cons, add, Entries.put_of_notMem hnew]
    rw [ih ?_ (Or.inl rfl)]
    · simp
    · simpa [Entries.keys] using hkeys

end Building

/-- elements without keys make the list of their values -/
theorem arrayOf_items {items : List Value} (h : Fits items.length) :
    arrayOf (items.map Element.item) = .list items := by
  rw [arrayOf, Building.foldl_items (k := 0) items (h.mono (by omega)) rfl rfl (by simp [Building.empty, Entries.keys])]
  rfl

/-- elements with different keys make the map of exactly these entries -/
theorem arrayOf_entries {entries : Entries} (hne : entries ≠ []) (h : entries.keys.Nodup) :
    arrayOf (entries.map fun entry => Element.entry entry.1 entry.2) = .map entries := by
  rw [arrayOf, Building.foldl_entries (b := .empty) entries h (Or.inr hne)]
  rfl

end Argument

end StubTemplate
