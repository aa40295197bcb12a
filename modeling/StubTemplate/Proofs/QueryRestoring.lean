/-
Putting back single characters in a query string.

`restore` replaces text in the finished query string, after earlier replacements have already put raw characters
there. For single characters other than `%` this is what an encoder that leaves these characters raw writes in the
first place (`encodeCharKeeping`): every `%` still starts an escape, and the escapes of one character neither hold
those of another nor run into them (`becomes_encodeCharKeeping`). One replacement makes one more character raw
(`restoreOne_joinWith`), and a run of them all that are listed (`restore_joinWith`).

Main result: `restore_ignored`. For a list of single characters and numbers, what is put back depends only on which
characters are in the list.
-/
import StubTemplate.Proofs.Literals
import StubTemplate.Proofs.QueryDecoding
import StubTemplate.Proofs.Replacement

namespace StubTemplate.QueryString

/-! ## Escapes -/

theorem eq_of_prefix_encodeByte_append {b b' : UInt8} {s s' : List Char}
    (h : encodeByte b ++ s <+: encodeByte b' ++ s') : b = b' ∧ s <+: s' := by
  simp only [encodeByte, List.cons_append, List.nil_append, List.cons_prefix_cons, true_and] at h
  obtain ⟨hhigh, hlow, hrest⟩ := h
  have hdigits := number?_digits b
  rw [hhigh, hlow, number?_digits b'] at hdigits
  exact ⟨UInt8.toNat_inj.1 (Option.some.inj hdigits).symm, hrest⟩

theorem prefix_of_flatMap_encodeByte {bytes bytes' : List UInt8}
    (h : bytes.flatMap encodeByte <+: bytes'.flatMap encodeByte) : bytes <+: bytes' := by
  induction bytes generalizing bytes' with
  | nil => exact List.nil_prefix
  | cons b bytes ih =>
    cases bytes' with
    | nil => exact absurd h (by simp [encodeByte])
    | cons b' bytes' =>
      obtain ⟨rfl, hrest⟩ := eq_of_prefix_encodeByte_append h
      exact List.cons_prefix_cons.2 ⟨rfl, ih hrest⟩

theorem encodeChar_of_reserved {c : Char} (hc : isUnreserved c = false) :
    encodeChar c = (String.utf8EncodeChar c).flatMap encodeByte := by
  rw [encodeChar, if_neg]
  simp [hc]

/-- the escapes of a character are not the start of those of another, whatever follows -/
theorem eq_of_prefix_encodeChar {c d : Char} (hc : isUnreserved c = false) (hd : isUnreserved d = false)
    {rest : List Char} (h : encodeChar c <+: encodeChar d ++ rest) : c = d := by
  rw [encodeChar_of_reserved hc, encodeChar_of_reserved hd] at h
  rcases List.prefix_or_prefix_of_prefix h (List.prefix_append _ _) with h | h
  · exact Text.eq_of_prefix_utf8EncodeChar (prefix_of_flatMap_encodeByte h)
  · exact (Text.eq_of_prefix_utf8EncodeChar (prefix_of_flatMap_encodeByte h)).symm

/-- an escape at which the pattern does not start stays: inside of it there is no other `%` -/
theorem replaceAll_encodeByte {pattern filler : List Char} {b : UInt8} {t : List Char}
    (h : ¬ '%' :: pattern <+: encodeByte b ++ t) :
    Text.replaceAll ('%' :: pattern) filler (encodeByte b ++ t)
      = encodeByte b ++ Text.replaceAll ('%' :: pattern) filler t := by
  have hdigit : ∀ n < 16, Text.Becomes ('%' :: pattern) filler [Hex.upperDigit n] [Hex.upperDigit n] :=
    fun n hn => .of_ne (ne_percent_of_isUnreserved (isUnreserved_upperDigit n hn))
  have hlt := b.toNat_lt
  have hdigits := (hdigit (b.toNat / 16) (by omega)).append (hdigit (b.toNat % 16) (by omega)) t
  exact (Text.replaceAll_cons h).trans (congrArg ('%' :: ·) hdigits)

section Character

variable {c : Char} (hc : isUnreserved c = false)
include hc

theorem exists_encodeChar_cons : ∃ pattern, encodeChar c = '%' :: pattern := by
  obtain ⟨b, bytes, hbytes, -, -⟩ := Text.exists_utf8EncodeChar_cons c
  exact ⟨_, by rw [encodeChar_of_reserved hc, hbytes]; rfl⟩

theorem becomes_raw {filler : List Char} {d : Char} (hd : d ≠ '%') : Text.Becomes (encodeChar c) filler [d] [d] := by
  obtain ⟨pattern, hpattern⟩ := exists_encodeChar_cons hc
  rw [hpattern]
  exact .of_ne hd

/-- the escapes of another character stay -/
theorem becomes_escapes {filler : List Char} {d : Char} (hd : isUnreserved d = false) (hcd : c ≠ d) :
    Text.Becomes (encodeChar c) filler (encodeChar d) (encodeChar d) := by
  obtain ⟨pattern, hpattern⟩ := exists_encodeChar_cons hc
  obtain ⟨first, others, hbytes, hfirst, -⟩ := Text.exists_utf8EncodeChar_cons c
  obtain ⟨b, bytes, hdbytes, -, hbytesd⟩ := Text.exists_utf8EncodeChar_cons d
  -- the pattern starts with the escape of a first byte, and the bytes after the first are none
  have hothers : Text.Becomes (encodeChar c) filler (bytes.flatMap encodeByte) (bytes.flatMap encodeByte) := by
    refine .flatMap bytes fun b' hb' t => ?_
    rw [hpattern]
    refine replaceAll_encodeByte fun h => ?_
    rw [← hpattern, encodeChar_of_reserved hc, hbytes, List.flatMap_cons] at h
    obtain ⟨rfl, -⟩ := eq_of_prefix_encodeByte_append h
    exact hbytesd _ hb' hfirst
  intro t
  have hstart : ¬ encodeChar c <+: encodeChar d ++ t := fun h => hcd (eq_of_prefix_encodeChar hc hd h)
  rw [encodeChar_of_reserved hd, hdbytes, List.flatMap_cons, List.append_assoc] at hstart ⊢
  rw [hpattern] at hstart hothers ⊢
  rw [replaceAll_encodeByte hstart, hothers, List.append_assoc]

end Character

/-! ## Encoders that leave characters raw -/

/-- a pair with both halves written by an encoder -/
def writePairWith (encoder : Char → List Char) (pair : List Char × List Char) : List Char :=
  pair.1.flatMap encoder ++ '=' :: pair.2.flatMap encoder

def joinWith (encoder : Char → List Char) (pairs : List (List Char × List Char)) : List Char :=
  ['&'].intercalate (pairs.map (writePairWith encoder))

/-- the query string of an object or an array, written by an encoder -/
def ofJsonWith (encoder : Char → List Char) (json : Json) : Option (List Char) :=
  (pairs json).map (joinWith encoder)

theorem ofJsonWith_encodeChar : ofJsonWith encodeChar = ofJson := rfl

/-- a character, raw if it is to be kept -/
def encodeCharKeeping (kept : List Char) (c : Char) : List Char :=
  if c ∈ kept then [c] else encodeChar c

theorem encodeCharKeeping_nil : encodeCharKeeping [] = encodeChar := by
  funext c
  simp [encodeCharKeeping]

/-- what is kept matters only for characters that do not stand for themselves anyway -/
theorem encodeCharKeeping_congr {kept kept' : List Char}
    (h : ∀ c, isUnreserved c = false → (c ∈ kept ↔ c ∈ kept')) : encodeCharKeeping kept = encodeCharKeeping kept' := by
  funext c
  cases hc : isUnreserved c with
  | true => simp [encodeCharKeeping, encodeChar, hc]
  | false => simp only [encodeCharKeeping, h c hc]

/-! ## One character -/

theorem becomes_encodeCharKeeping {c : Char} (hc : isUnreserved c = false) {kept : List Char} (hkept : '%' ∉ kept)
    (d : Char) :
    Text.Becomes (encodeChar c) [c] (encodeCharKeeping kept d) (encodeCharKeeping (kept ++ [c]) d) := by
  simp only [encodeCharKeeping, List.mem_append, List.mem_singleton]
  by_cases hd : d ∈ kept
  · rw [if_pos hd, if_pos (.inl hd)]
    exact becomes_raw hc (ne_of_mem_of_not_mem hd hkept)
  · rw [if_neg hd]
    by_cases hdc : d = c
    · rw [if_pos (.inr hdc), hdc]
      obtain ⟨pattern, hpattern⟩ := exists_encodeChar_cons hc
      exact .hit (List.ne_nil_of_mem (hpattern ▸ List.mem_cons_self))
    · rw [if_neg (not_or.2 ⟨hd, hdc⟩)]
      cases hunreserved : isUnreserved d with
      | true =>
        have hraw : encodeChar d = [d] := if_pos hunreserved
        rw [hraw]
        exact becomes_raw hc (ne_percent_of_isUnreserved hunreserved)
      | false => exact becomes_escapes hc hunreserved (Ne.symm hdc)

/-- replacing the escapes of a character makes it raw -/
theorem replaceAll_joinWith {c : Char} (hc : isUnreserved c = false) {kept : List Char} (hkept : '%' ∉ kept)
    (pairs : List (List Char × List Char)) :
    Text.replaceAll (encodeChar c) [c] (joinWith (encodeCharKeeping kept) pairs)
      = joinWith (encodeCharKeeping (kept ++ [c])) pairs := by
  have htext : ∀ s : List Char, Text.Becomes (encodeChar c) [c] (s.flatMap (encodeCharKeeping kept))
      (s.flatMap (encodeCharKeeping (kept ++ [c]))) :=
    fun s => .flatMap s fun d _ => becomes_encodeCharKeeping hc hkept d
  have hmark : ∀ d, d ≠ '%' → Text.Becomes (encodeChar c) [c] [d] [d] := fun d => becomes_raw hc
  apply Text.Becomes.eq
  refine .intercalate (hmark '&' (by decide)) pairs fun pair => ?_
  exact (htext pair.1).append ((hmark '=' (by decide)).append (htext pair.2))

/-! ## A list of characters -/

/-- a text that makes nothing raw but whole characters: a single one other than `%`, or none that is ever escaped -/
def Restorable (raw : List Char) : Prop :=
  (∀ c ∈ raw, isUnreserved c = true) ∨ ∃ c, raw = [c] ∧ c ≠ '%'

theorem encode_of_unreserved {raw : List Char} (h : ∀ c ∈ raw, isUnreserved c = true) : encode raw = raw := by
  induction raw with
  | nil => rfl
  | cons c raw ih =>
    obtain ⟨hc, hraw⟩ := List.forall_mem_cons.1 h
    rw [encode, List.flatMap_cons, ← encode, ih hraw, encodeChar, if_pos hc]
    rfl

theorem notMem_of_unreserved {raw : List Char} (h : ∀ c ∈ raw, isUnreserved c = true) {c : Char}
    (hc : isUnreserved c = false) : c ∉ raw := by
  intro hmem
  rw [h c hmem] at hc
  cases hc

theorem percent_notMem_of_restorable {raw : List Char} (h : Restorable raw) : '%' ∉ raw := by
  rcases h with h | ⟨c, rfl, hc⟩
  · exact notMem_of_unreserved h (by decide)
  · simpa using Ne.symm hc

theorem restoreOne_joinWith {raw : List Char} (hraw : Restorable raw) {kept : List Char} (hkept : '%' ∉ kept)
    (pairs : List (List Char × List Char)) :
    restoreOne (joinWith (encodeCharKeeping kept) pairs) raw = joinWith (encodeCharKeeping (kept ++ raw)) pairs := by
  by_cases hunreserved : ∀ c ∈ raw, isUnreserved c = true
  · rw [restoreOne, if_pos (.inr (encode_of_unreserved hunreserved))]
    have hsame : encodeCharKeeping (kept ++ raw) = encodeCharKeeping kept := by
      refine encodeCharKeeping_congr fun c hc => ?_
      simp [notMem_of_unreserved hunreserved hc]
    rw [hsame]
  · obtain ⟨c, rfl, hpercent⟩ := hraw.resolve_left hunreserved
    have hc : isUnreserved c = false := by simpa using hunreserved
    obtain ⟨pattern, hpattern⟩ := exists_encodeChar_cons hc
    have hencode : encode [c] = encodeChar c := List.flatMap_singleton _ _
    have hchanges : ¬ ([c] = [] ∨ encode [c] = [c]) := by
      rw [hencode, hpattern]
      simp [Ne.symm hpercent]
    rw [restoreOne, if_neg hchanges, hencode]
    exact replaceAll_joinWith hc hkept pairs

theorem restore_joinWith {texts : List (List Char)} (htexts : ∀ raw ∈ texts, Restorable raw) {kept : List Char}
    (hkept : '%' ∉ kept) (pairs : List (List Char × List Char)) :
    restore (joinWith (encodeCharKeeping kept) pairs) texts
      = joinWith (encodeCharKeeping (kept ++ texts.flatten)) pairs := by
  induction texts generalizing kept with
  | nil => simp [restore]
  | cons raw texts ih =>
    obtain ⟨hraw, hrest⟩ := List.forall_mem_cons.1 htexts
    have hmore : '%' ∉ kept ++ raw := by simp [hkept, percent_notMem_of_restorable hraw]
    rw [restore, List.foldl_cons, restoreOne_joinWith hraw hkept, ← restore, ih hrest hmore, List.append_assoc,
      List.flatten_cons]

/-- a query string with texts put back is the one of the encoder that leaves their characters raw -/
theorem restore_join {texts : List (List Char)} (htexts : ∀ raw ∈ texts, Restorable raw)
    (pairs : List (List Char × List Char)) :
    restore (joinWith encodeChar pairs) texts = joinWith (encodeCharKeeping texts.flatten) pairs := by
  rw [← encodeCharKeeping_nil, restore_joinWith htexts List.not_mem_nil, List.nil_append]

/-! ## The texts of numbers -/

theorem isUnreserved_of_isDigit {c : Char} (h : c.isDigit = true) : isUnreserved c = true := by
  simp [isUnreserved, Char.isAlphanum, h]

theorem isUnreserved_ofInt (i : Int) : ∀ c ∈ Numeral.ofInt i, isUnreserved c = true := by
  intro c hc
  rcases Numeral.isDigit_or_minus c hc with h | rfl
  · exact isUnreserved_of_isDigit h
  · decide

theorem isUnreserved_writePositional (d : Decimal) : ∀ c ∈ Layout.plain.writePositional d, isUnreserved c = true := by
  have hdigits : ∀ c ∈ d.digitChars, isUnreserved c = true := fun c hc =>
    isUnreserved_of_isDigit (Numeral.isDigit_toDigits c hc)
  have hzeros : ∀ n, ∀ c ∈ List.replicate n '0', isUnreserved c = true := by
    intro n c hc
    rw [List.eq_of_mem_replicate hc]
    decide
  have hpoint : isUnreserved '.' = true := by decide
  have hzero : isUnreserved '0' = true := by decide
  intro c
  simp only [Layout.writePositional]
  split
  · simp only [Layout.plain, Bool.false_eq_true, if_false, List.append_nil, List.mem_append]
    rintro (h | h)
    exacts [hdigits c h, hzeros _ c h]
  · split
    · simp only [List.mem_append, List.mem_cons]
      rintro (h | rfl | h)
      exacts [hdigits c (List.mem_of_mem_take h), hpoint, hdigits c (List.mem_of_mem_drop h)]
    · simp only [List.mem_append, List.mem_cons]
      rintro ((rfl | rfl | h) | h)
      exacts [hzero, hpoint, hzeros _ c h, hdigits c h]

theorem isUnreserved_floatText (x : Binary64) : ∀ c ∈ Value.floatText x, isUnreserved c = true := by
  unfold Value.floatText
  split
  · intro c hc
    rcases List.mem_append.1 hc with h | h
    · split at h
      · rw [List.mem_singleton.1 h]
        decide
      · cases h
    · exact isUnreserved_writePositional _ c h
  · split
    · decide
    · split
      · decide
      · decide

/-! ## Lists of single characters -/

/-- an entry that stands for one character other than `%`, for a number or for no text -/
inductive Single : Value → Prop
  | empty : Single (.str "")
  | character {c : Char} (h : c ≠ '%') : Single (.str (String.singleton c))
  | null : Single .null
  | bool (flag : Bool) : Single (.bool flag)
  | int (number : Int64) : Single (.int number)
  | float (number : Binary64) : Single (.float number)

/-- the characters of the strings in a list -/
def listed (entries : List Value) : List Char :=
  entries.flatMap fun
    | .str text => text.toList
    | _ => []

/-- an entry has a text, and what is put back for it are the characters that it lists -/
def PutsBack (entry : Value) : Prop :=
  ∃ text, entry.text? = some text ∧ Restorable text.toList ∧
    ∀ c, isUnreserved c = false → (c ∈ text.toList ↔ c ∈ listed [entry])

/-- an entry that lists nothing puts nothing back if its text is never escaped -/
theorem putsBack_of_unreserved {entry : Value} {s : List Char} (hlisted : listed [entry] = [])
    (htext : entry.text? = some (String.ofList s)) (hs : ∀ c ∈ s, isUnreserved c = true) : PutsBack entry := by
  refine ⟨_, htext, ?_, ?_⟩
  · rw [String.toList_ofList]
    exact .inl hs
  · intro c hc
    rw [String.toList_ofList, hlisted]
    exact iff_of_false (notMem_of_unreserved hs hc) List.not_mem_nil

theorem Single.putsBack {entry : Value} (h : Single entry) : PutsBack entry := by
  cases h with
  | empty => exact ⟨"", rfl, .inl (by simp), fun c _ => by simp [listed]⟩
  | @character c h => exact ⟨_, rfl, .inr ⟨c, by simp, h⟩, fun d _ => by simp [listed]⟩
  | null => exact putsBack_of_unreserved (s := []) rfl rfl (by simp)
  | bool flag =>
    cases flag with
    | true => exact putsBack_of_unreserved (s := ['1']) rfl rfl (by decide)
    | false => exact putsBack_of_unreserved (s := []) rfl rfl (by simp)
  | int number => exact putsBack_of_unreserved rfl rfl (isUnreserved_ofInt _)
  | float number => exact putsBack_of_unreserved rfl rfl (isUnreserved_floatText _)

theorem listed_cons (entry : Value) (entries : List Value) :
    listed (entry :: entries) = listed [entry] ++ listed entries := by
  simp [listed]

theorem ignored_of_elements {characters : Value} {entries : List Value} (h : characters.elements? = some entries)
    (file : Value) (rest : List Value) :
    ignored (file :: characters :: rest) = entries.mapM fun entry =>
      match entry.text? with
      | some text => .ok text.toList
      | none => .error .ignoredNotScalar := by
  cases characters with
  | list items => cases h; rfl
  | map entries => cases h; rfl
  | null | bool | int | float | str => cases h

theorem ignored_of_single {characters : Value} {entries : List Value} (hentries : characters.elements? = some entries)
    (hsingle : ∀ entry ∈ entries, Single entry) (file : Value) (rest : List Value) :
    ∃ texts, ignored (file :: characters :: rest) = .ok texts ∧ (∀ raw ∈ texts, Restorable raw) ∧
      ∀ c, isUnreserved c = false → (c ∈ texts.flatten ↔ c ∈ listed entries) := by
  rw [ignored_of_elements hentries]
  clear hentries
  induction entries with
  | nil => exact ⟨[], rfl, by simp, fun c _ => by simp [listed]⟩
  | cons entry entries ih =>
    obtain ⟨hentry, hrest⟩ := List.forall_mem_cons.1 hsingle
    obtain ⟨text, htext, hraw, hchars⟩ := hentry.putsBack
    obtain ⟨texts, htexts, hraws, hmem⟩ := ih hrest
    refine ⟨text.toList :: texts, ?_, List.forall_mem_cons.2 ⟨hraw, hraws⟩, ?_⟩
    · rw [List.mapM_cons, htexts, htext]
      rfl
    · intro c hc
      rw [List.flatten_cons, listed_cons, List.mem_append, List.mem_append, hchars c hc, hmem c hc]

/--
**Restoring is encoding.** For a list of single characters other than `%`, empty strings and numbers or other scalars,
the query string of an object or an array with the list's texts put back is the one of the encoder that leaves the
listed characters raw. The same list in another order gives the same.
-/
theorem restore_ignored {json : Json} (hjson : (∃ fields, json = .object fields) ∨ ∃ items, json = .array items)
    {characters : Value} {entries : List Value} (hentries : characters.elements? = some entries)
    (hsingle : ∀ entry ∈ entries, Single entry) (file : Value) (rest : List Value) :
    ∃ query texts, ofJson json = some query ∧ ignored (file :: characters :: rest) = .ok texts ∧
      ofJsonWith (encodeCharKeeping (listed entries)) json = some (restore query texts) ∧
      ∀ characters' entries', characters'.elements? = some entries' → entries'.Perm entries →
        ∃ texts', ignored (file :: characters' :: rest) = .ok texts' ∧ restore query texts' = restore query texts := by
  obtain ⟨pairs, hpairs⟩ : ∃ sent, pairs json = some sent := by
    rcases hjson with ⟨fields, rfl⟩ | ⟨items, rfl⟩
    · exact ⟨_, rfl⟩
    · exact ⟨_, rfl⟩
  obtain ⟨texts, htexts, hraws, hmem⟩ := ignored_of_single hentries hsingle file rest
  refine ⟨joinWith encodeChar pairs, texts, ?_, htexts, ?_, ?_⟩
  · rw [← ofJsonWith_encodeChar, ofJsonWith, hpairs]
    rfl
  · rw [ofJsonWith, hpairs, restore_join hraws, encodeCharKeeping_congr hmem]
    rfl
  · intro characters' entries' hentries' hperm
    obtain ⟨texts', htexts', hraws', hmem'⟩ :=
      ignored_of_single hentries' (fun entry h => hsingle entry (hperm.subset h)) file rest
    have hsame : encodeCharKeeping texts'.flatten = encodeCharKeeping texts.flatten := by
      refine encodeCharKeeping_congr fun c hc => ?_
      rw [hmem c hc, hmem' c hc]
      exact (hperm.flatMap_right _).mem_iff
    refine ⟨texts', htexts', ?_⟩
    rw [restore_join hraws, restore_join hraws', hsame]

/-- a percent sign in front of an escape's digits, and characters of two bytes that share one -/
def sharedBytes : Json :=
  .object [("%40", .str "©é@"), ("n", .null), ("é", .array [.bool true])]

/-- numbers, the empty text and a repeated character beside others -/
def mixedEntries : List Value :=
  [.str "@", .str "é", .int 40, .str "", .float ⟨true, 1⟩, .str "@"]

theorem restore_ignored_mixedEntries :
    ∃ query texts, ofJson sharedBytes = some query ∧ ignored [.str "data.json", .list mixedEntries] = .ok texts ∧
      restore query texts = "%2540=%C2%A9é@&é=%5Btrue%5D".toList := by
  have hsingle : ∀ entry ∈ mixedEntries, Single entry := by
    simp only [mixedEntries, List.forall_mem_cons]
    exact ⟨.character (c := '@') (by decide), .character (c := 'é') (by decide), .int 40, .empty, .float _,
      .character (c := '@') (by decide), by simp⟩
  have hobject : (∃ fields, sharedBytes = .object fields) ∨ ∃ items, sharedBytes = .array items := .inl ⟨_, rfl⟩
  have helements : (Value.list mixedEntries).elements? = some mixedEntries := rfl
  obtain ⟨query, texts, hquery, htexts, hkept, -⟩ := restore_ignored hobject helements hsingle (.str "data.json") []
  have hwritten : ofJsonWith (encodeCharKeeping (listed mixedEntries)) sharedBytes
      = some "%2540=%C2%A9é@&é=%5Btrue%5D".toList := by decide +kernel
  exact ⟨query, texts, hquery, htexts, Option.some.inj (hkept.symm.trans hwritten)⟩

end StubTemplate.QueryString
