/-
What putting characters back does to the meaning of a query string: nothing.

The texts to put back may be of any length. The encoded form of one may then start inside of an escape of the query
string (`2A@` is written `2A%40`, which occurs in `%2A%40`), and it may be looked for among characters that are raw
already. `Reveals` says what a replacement does wherever it hits: every character of the text stays, or the escapes of
one character other than `%` become that character (`reveals_replaceAll`). Where every `%` starts an escape, this changes
no byte that the text stands for (`Reveals.percentDecode?_eq`).

Step and run: one text put back is `percentDecode?_restoreOne`, a list of them `percentDecode?_restore`.

Main result: `restore_meaning`. Percent decoding gives the same bytes before and after, and every `%` that is left starts
an escape.
-/
import StubTemplate.Proofs.QueryRestoring

namespace StubTemplate.QueryString

/-! ## Escapes that are made raw -/

/-- the second text is the first with the escapes of some characters other than `%` made raw -/
inductive Reveals : List Char → List Char → Prop
  | nil : Reveals [] []
  | kept (c : Char) {s s' : List Char} (h : Reveals s s') : Reveals (c :: s) (c :: s')
  | made {c : Char} {s s' : List Char} (hc : c ≠ '%') (h : Reveals s s') : Reveals (encodeChar c ++ s) (c :: s')

namespace Reveals

theorem append {s s' t t' : List Char} (hs : Reveals s s') (ht : Reveals t t') : Reveals (s ++ t) (s' ++ t') := by
  induction hs with
  | nil => exact ht
  | kept c _ ih => exact .kept c ih
  | made hc _ ih =>
    rw [List.append_assoc]
    exact .made hc ih

theorem of_encode {s : List Char} (h : '%' ∉ s) : Reveals (encode s) s := by
  induction s with
  | nil => exact .nil
  | cons c s ih =>
    rw [List.mem_cons, not_or] at h
    exact .made (Ne.symm h.1) (ih h.2)

end Reveals

/-- a replacement leaves characters or makes them raw if what it puts in for the pattern does so -/
theorem reveals_replaceAll {pattern filler : List Char} (h : Reveals pattern filler) (s : List Char) :
    Reveals s (Text.replaceAll pattern filler s) := by
  fun_induction Text.replaceAll pattern filler s with
  | case1 => exact .nil
  | case2 c rest hhit ih =>
    obtain ⟨t, ht⟩ := hhit.2
    rw [← ht, List.drop_left] at ih ⊢
    exact h.append ih
  | case3 c rest hmiss ih => exact .kept c ih

/-! ## Escapes that are complete -/

/-- a hexadecimal digit -/
def IsHex (c : Char) : Prop := (Hex.value? c).isSome = true

theorem IsHex.ne_percent {c : Char} (h : IsHex c) : c ≠ '%' := by
  rintro rfl
  cases h

theorem isHex_of_number? {a b : Char} {n : Nat} (h : Hex.number? [a, b] = some n) : IsHex a ∧ IsHex b := by
  unfold IsHex
  cases ha : Hex.value? a with
  | none => simp [Hex.number?, ha] at h
  | some i =>
    cases hb : Hex.value? b with
    | none => simp [Hex.number?, ha, hb] at h
    | some j => exact ⟨rfl, rfl⟩

/-- what follows a `%` in a text that decodes -/
theorem exists_of_percentDecode? {s : List Char} {bytes : List UInt8} (h : percentDecode? ('%' :: s) = some bytes) :
    ∃ a b rest n bytes', s = a :: b :: rest ∧ Hex.number? [a, b] = some n ∧ percentDecode? rest = some bytes' ∧
      bytes = UInt8.ofNat n :: bytes' := by
  cases s with
  | nil => simp [percentDecode?] at h
  | cons a s =>
    cases s with
    | nil => simp [percentDecode?] at h
    | cons b rest =>
      rw [percentDecode?] at h
      obtain ⟨n, hn, h⟩ := Option.bind_eq_some_iff.1 h
      obtain ⟨bytes', hbytes', h⟩ := Option.bind_eq_some_iff.1 h
      exact ⟨a, b, rest, n, bytes', rfl, hn, hbytes', (Option.some.inj h).symm⟩

/-- every `%` of a text that decodes starts an escape: it has two hexadecimal digits after it -/
theorem isHex_of_percentDecode? {x y : List Char} {bytes : List UInt8}
    (h : percentDecode? (x ++ '%' :: y) = some bytes) : ∃ a b rest, y = a :: b :: rest ∧ IsHex a ∧ IsHex b := by
  induction hn : x.length using Nat.strongRecOn generalizing x bytes with
  | _ n ih =>
    cases x with
    | nil =>
      obtain ⟨a, b, rest, n, -, rfl, hn, -⟩ := exists_of_percentDecode? h
      exact ⟨a, b, rest, rfl, isHex_of_number? hn⟩
    | cons c x =>
      rw [List.cons_append] at h
      by_cases hc : c = '%'
      · -- the two digits of an escape are no `%`, so the escape ends before this one
        rw [hc] at h
        obtain ⟨a, b, rest, k, bytes', hrest, hk, hbytes', -⟩ := exists_of_percentDecode? h
        obtain ⟨ha, hb⟩ := isHex_of_number? hk
        match x, hrest, hn with
        | [], hrest, _ => exact absurd (List.cons.inj hrest).1.symm ha.ne_percent
        | [_], hrest, _ => exact absurd (List.cons.inj (List.cons.inj hrest).2).1.symm hb.ne_percent
        | _ :: _ :: x, hrest, hn =>
          have hrest : x ++ '%' :: y = rest := (List.cons.inj (List.cons.inj hrest).2).2
          rw [← hrest] at hbytes'
          exact ih x.length (by simp only [List.length_cons] at hn; omega) hbytes' rfl
      · rw [percentDecode?_cons hc] at h
        obtain ⟨bytes', hbytes', -⟩ := Option.map_eq_some_iff.1 h
        exact ih x.length (by rw [← hn]; exact Nat.lt_succ_self _) hbytes' rfl

/-! ## The bytes stay -/

theorem length_encodeChar_pos (c : Char) : 0 < (encodeChar c).length := by
  cases hc : isUnreserved c with
  | true => simp [encodeChar, hc]
  | false =>
    obtain ⟨pattern, hpattern⟩ := exists_encodeChar_cons hc
    rw [hpattern]
    exact Nat.zero_lt_succ _

/-- nothing but an escape is made raw -/
theorem Reveals.exists_of_ne {c : Char} {s t : List Char} (h : Reveals (c :: s) t) (hc : c ≠ '%') :
    ∃ s', t = c :: s' ∧ Reveals s s' := by
  generalize hcs : c :: s = cs at h
  cases h with
  | nil => cases hcs
  | kept d h =>
    cases hcs
    exact ⟨_, rfl, h⟩
  | @made d s₀ s' hd h =>
    cases hunreserved : isUnreserved d with
    | true =>
      have hraw : encodeChar d = [d] := if_pos hunreserved
      rw [hraw] at hcs
      cases hcs
      exact ⟨s', rfl, h⟩
    | false =>
      obtain ⟨pattern, hpattern⟩ := exists_encodeChar_cons hunreserved
      rw [hpattern] at hcs
      exact absurd (List.cons.inj hcs).1 hc

/-- a text that decodes stands for the same bytes when escapes in it are made raw, wherever these start -/
theorem Reveals.percentDecode?_eq {s s' : List Char} {bytes : List UInt8} (h : Reveals s s')
    (hs : percentDecode? s = some bytes) : percentDecode? s' = some bytes := by
  induction hn : s.length using Nat.strongRecOn generalizing s s' bytes with
  | _ n ih =>
    cases h with
    | nil => exact hs
    | @kept c s s' h =>
      by_cases hc : c = '%'
      · -- its two digits are kept as well, so the escape is still there
        subst hc
        obtain ⟨a, b, rest, k, bytes', rfl, hk, hbytes', rfl⟩ := exists_of_percentDecode? hs
        obtain ⟨ha, hb⟩ := isHex_of_number? hk
        obtain ⟨_, rfl, hdigit⟩ := h.exists_of_ne ha.ne_percent
        obtain ⟨t, rfl, hdigits⟩ := hdigit.exists_of_ne hb.ne_percent
        have hrest := ih rest.length (by simp only [List.length_cons] at hn; omega) hdigits hbytes' rfl
        rw [percentDecode?, hk, hrest]
        rfl
      · rw [percentDecode?_cons hc] at hs ⊢
        obtain ⟨bytes', hbytes', rfl⟩ := Option.map_eq_some_iff.1 hs
        rw [ih s.length (by rw [← hn]; exact Nat.lt_succ_self _) h hbytes' rfl, Option.map_some]
    | @made c s s' hc h =>
      rw [percentDecode?_encodeChar] at hs
      obtain ⟨bytes', hbytes', rfl⟩ := Option.map_eq_some_iff.1 hs
      have hpos := length_encodeChar_pos c
      rw [percentDecode?_cons hc, ih s.length (by rw [← hn, List.length_append]; omega) h hbytes' rfl, Option.map_some]

theorem percentDecode?_restoreOne {query raw : List Char} {bytes : List UInt8}
    (h : percentDecode? query = some bytes) (hraw : '%' ∉ raw) :
    percentDecode? (restoreOne query raw) = some bytes := by
  unfold restoreOne
  split
  · exact h
  · exact (reveals_replaceAll (.of_encode hraw) query).percentDecode?_eq h

theorem percentDecode?_restore {query : List Char} {texts : List (List Char)} {bytes : List UInt8}
    (h : percentDecode? query = some bytes) (htexts : ∀ raw ∈ texts, '%' ∉ raw) :
    percentDecode? (restore query texts) = some bytes := by
  induction texts generalizing query with
  | nil => exact h
  | cons raw texts ih =>
    obtain ⟨hraw, hrest⟩ := List.forall_mem_cons.1 htexts
    exact ih (percentDecode?_restoreOne h hraw) hrest

/-! ## The bytes of a query string -/

/-- a pair without anything encoded -/
def plainPair (pair : List Char × List Char) : List Char := pair.1 ++ '=' :: pair.2

theorem percentDecode?_writePair_append (pair : List Char × List Char) (t : List Char) :
    percentDecode? (writePair pair ++ t) = (percentDecode? t).map (Text.utf8 (plainPair pair) ++ ·) := by
  rw [writePair, List.append_assoc, percentDecode?_encode_append, List.cons_append, percentDecode?_cons (by decide),
    percentDecode?_encode_append, Option.map_map, Option.map_map, plainPair, Text.utf8_append, Text.utf8_cons]
  simp [Function.comp_def]

/-- a query string stands for the bytes of its pairs, joined as they are -/
theorem percentDecode?_intercalate (pairs : List (List Char × List Char)) :
    percentDecode? (['&'].intercalate (pairs.map writePair))
      = some (Text.utf8 (['&'].intercalate (pairs.map plainPair))) := by
  induction pairs with
  | nil => rfl
  | cons pair pairs ih =>
    cases pairs with
    | nil =>
      have h := percentDecode?_writePair_append pair []
      rw [List.append_nil] at h
      simpa [percentDecode?] using h
    | cons next pairs =>
      simp only [List.map_cons, List.intercalate_cons_cons] at ih ⊢
      rw [List.append_assoc, percentDecode?_writePair_append, List.cons_append, List.nil_append,
        percentDecode?_cons (by decide), ih, List.append_assoc, Text.utf8_append, List.cons_append, Text.utf8_cons]
      rfl

/--
**Restoring does not change what a query string means.** For texts of any length without a `%`, the query string of an
object or an array with these texts put back decodes to the same bytes as without, and every `%` that is left in it has
two hexadecimal digits after it.
-/
theorem restore_meaning {json : Json} (hjson : (∃ fields, json = .object fields) ∨ ∃ items, json = .array items)
    {texts : List (List Char)} (htexts : ∀ raw ∈ texts, '%' ∉ raw) :
    ∃ query bytes, ofJson json = some query ∧ percentDecode? query = some bytes ∧
      percentDecode? (restore query texts) = some bytes ∧
      ∀ x y, restore query texts = x ++ '%' :: y → ∃ a b rest, y = a :: b :: rest ∧ IsHex a ∧ IsHex b := by
  obtain ⟨pairs, hpairs⟩ : ∃ sent, pairs json = some sent := by
    rcases hjson with ⟨fields, rfl⟩ | ⟨items, rfl⟩
    · exact ⟨_, rfl⟩
    · exact ⟨_, rfl⟩
  have hdecode := percentDecode?_intercalate pairs
  have hrestore := percentDecode?_restore hdecode htexts
  refine ⟨_, _, by rw [ofJson, hpairs]; rfl, hdecode, hrestore, ?_⟩
  intro x y hxy
  exact isHex_of_percentDecode? (hxy ▸ hrestore)

/-- a name whose second character is looked for together with the digits of the escape before it -/
def starAt : Json := .object [("*@", .str "@é"), ("k", .null), ("é", .str "=")]

theorem restore_meaning_starAt : ∃ bytes,
    ofJson starAt = some "%2A%40=%40%C3%A9&%C3%A9=%3D".toList ∧
    percentDecode? "%2A%40=%40%C3%A9&%C3%A9=%3D".toList = some bytes ∧
    percentDecode? "%2A@=%40é&é=%3D".toList = some bytes := by
  have htexts : ∀ raw ∈ ["2A@".toList, "é".toList, "@=".toList], '%' ∉ raw := by decide
  have hobject : (∃ fields, starAt = .object fields) ∨ ∃ items, starAt = .array items := .inl ⟨_, rfl⟩
  obtain ⟨query, bytes, hquery, hbytes, hrestored, -⟩ := restore_meaning hobject htexts
  have hwritten : ofJson starAt = some "%2A%40=%40%C3%A9&%C3%A9=%3D".toList := by decide +kernel
  obtain rfl : "%2A%40=%40%C3%A9&%C3%A9=%3D".toList = query := Option.some.inj (hwritten.symm.trans hquery)
  have hout : restore "%2A%40=%40%C3%A9&%C3%A9=%3D".toList ["2A@".toList, "é".toList, "@=".toList]
      = "%2A@=%40é&é=%3D".toList := by decide +kernel
  exact ⟨bytes, hquery, hbytes, hout ▸ hrestored⟩

end StubTemplate.QueryString
