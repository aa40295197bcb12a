/-
Finding placeholders by byte offsets.

Here the search goes through the bytes of a template one by one, also through those inside of characters, and takes the
parts of a placeholder out of the template by slices. It looks for ASCII bytes only, which are characters of their own,
so it stops where the search by characters stops:
- `placeholderAt_append`: at a boundary it reads the placeholder that `read?` reads there;
- `placeholderAt_of_not_isBoundary`: inside of a character it reads none;
- `placeholders_eq`: it finds what `Template.located` lists.
So every slice that it asks for is there.
-/
import StubTemplate.Proofs.Grammar
import StubTemplate.Proofs.Slices

namespace StubTemplate

/-! ## What ASCII bytes tell of a text -/

namespace Text

theorem utf8Size_eq_one {c : Char} (hc : c.toNat < 128) : c.utf8Size = 1 := by
  rw [← String.length_utf8EncodeChar, utf8EncodeChar_ascii hc]
  rfl

/-- no byte of a longer character is an ASCII one -/
theorem le_of_mem_utf8EncodeChar {c : Char} (hc : ¬ c.toNat < 128) : ∀ b ∈ String.utf8EncodeChar c, ¬ b.toNat < 128 := by
  intro b hb hsmall
  exact hc (eq_of_mem_utf8EncodeChar hb hsmall).1

/-- the first byte of a text is an ASCII character exactly if the text starts with that character -/
theorem head?_utf8_eq_some_iff {c : Char} (hc : c.toNat < 128) {s : List Char} :
    (utf8 s)[0]? = some c.toUInt8 ↔ s.head? = some c := by
  constructor
  · intro h
    rw [← List.head?_eq_getElem?, List.head?_eq_some_iff] at h
    obtain ⟨rest, hrest⟩ := h
    obtain ⟨x, y, rfl, hx, -⟩ := exists_of_utf8_cons (x := []) hc hrest
    rw [utf8_eq_nil_iff.1 hx]
    rfl
  · intro h
    obtain ⟨rest, rfl⟩ := List.head?_eq_some_iff.1 h
    rw [utf8_cons_ascii hc]
    rfl

/-- an ASCII byte stands where its character does -/
theorem exists_of_getElem?_utf8 {c : Char} (hc : c.toNat < 128) {s : List Char} {n : Nat}
    (h : (utf8 s)[n]? = some c.toUInt8) : ∃ x y, s = x ++ c :: y ∧ n = utf8Size x := by
  obtain ⟨hn, hget⟩ := List.getElem?_eq_some_iff.1 h
  have hsplit : utf8 s = (utf8 s).take n ++ c.toUInt8 :: (utf8 s).drop (n + 1) := by
    rw [← hget, ← List.drop_eq_getElem_cons hn, List.take_append_drop]
  obtain ⟨x, y, hs, hx, -⟩ := exists_of_utf8_cons hc hsplit
  refine ⟨x, y, hs, ?_⟩
  rw [← length_utf8, hx, List.length_take, Nat.min_eq_left hn.le]

end Text

namespace Placeholder

open Text

theorem isNameByte_eq_false {b : UInt8} (h : ¬ b.toNat < 128) : isNameByte b = false := by
  rw [← Bool.not_eq_true]
  exact fun hname => h (toNat_lt_of_isNameByte hname)

theorem isNameChar_eq_false {c : Char} (h : ¬ c.toNat < 128) : isNameChar c = false := by
  rw [← Bool.not_eq_true]
  exact fun hname => h (toNat_lt_of_isNameChar hname)

/-- a name may start with the first byte of a text exactly if it may with the first character -/
theorem any_getElem?_utf8 (s : List Char) : (utf8 s)[0]?.any isNameStartByte = s.head?.any isNameStart := by
  cases s with
  | nil => rfl
  | cons c s =>
    by_cases hc : c.toNat < 128
    · rw [utf8_cons_ascii hc]
      exact isNameStartByte_toUInt8 hc
    · obtain ⟨b, bytes, hbytes⟩ := List.exists_cons_of_ne_nil (String.utf8EncodeChar_ne_nil (c := c))
      have hb : ¬ b.toNat < 128 := le_of_mem_utf8EncodeChar hc b (by simp [hbytes])
      have hbyte : isNameStartByte b = false := by
        have := isNameByte_eq_false hb
        simp only [isNameByte, Bool.or_eq_false_iff] at this
        exact this.1
      have hchar : isNameStart c = false := by
        rw [← Bool.not_eq_true]
        intro hstart
        exact hc (toNat_lt_of_isNameChar (isNameChar_of_isNameStart hstart))
      simp [utf8_cons, hbytes, hbyte, hchar]

/-- the bytes of a name are the characters of a name -/
theorem takeWhile_utf8 (s : List Char) : (utf8 s).takeWhile isNameByte = utf8 (s.takeWhile isNameChar) := by
  induction s with
  | nil => rfl
  | cons c s ih =>
    by_cases hc : c.toNat < 128
    · rw [utf8_cons_ascii hc, List.takeWhile_cons, List.takeWhile_cons, isNameByte_toUInt8 hc]
      split
      · rw [utf8_cons_ascii hc, ih]
      · rfl
    · obtain ⟨b, bytes, hbytes⟩ := List.exists_cons_of_ne_nil (String.utf8EncodeChar_ne_nil (c := c))
      have hb : ¬ b.toNat < 128 := le_of_mem_utf8EncodeChar hc b (by simp [hbytes])
      simp [hbytes, isNameByte_eq_false hb, isNameChar_eq_false hc, utf8]

end Placeholder

namespace ByOffset

open Text Placeholder

/-! ## One placeholder -/

/-- a placeholder found in a template: its parts, all of it, and where it starts -/
structure Invocation where
  name : List Char
  arguments : List Char
  matched : List Char
  offset : Nat
  deriving DecidableEq

/-- a placeholder, found at an offset -/
def Invocation.ofLocated (f : Placeholder × Nat) : Invocation := ⟨f.1.name, f.1.arguments, f.1.text, f.2⟩

/-- where the arguments end when byte `n` comes next; nowhere if the bytes end or a name starts behind a `%` -/
def closeFrom (n : Nat) : List UInt8 → Option Nat
  | [] => none
  | b :: rest =>
    if b = ')'.toUInt8 ∧ rest[0]? = some '%'.toUInt8 then some n
    else if b = '%'.toUInt8 ∧ rest[0]?.any isNameStartByte = true then none
    else closeFrom (n + 1) rest

/-- the placeholder that starts at a byte -/
def placeholderAt (s : List Char) (start : Nat) : Except Failure (Option Invocation) :=
  let bytes := utf8 s
  if bytes[start]? = some '%'.toUInt8 ∧ bytes[start + 1]?.any isNameStartByte = true then
    let nameEnd := start + 2 + ((bytes.drop (start + 2)).takeWhile isNameByte).length
    if bytes[nameEnd]? = some '('.toUInt8 then
      match closeFrom (nameEnd + 1) (bytes.drop (nameEnd + 1)) with
      | none => .ok none
      | some close => do
        let name ← slice s (start + 1) nameEnd
        let arguments ← slice s (nameEnd + 1) close
        let matched ← slice s start (close + 2)
        return some ⟨name, arguments, matched, start⟩
    else .ok none
  else .ok none

/-- bytes of longer characters do not end the arguments -/
theorem closeFrom_append {bytes : List UInt8} (h : ∀ b ∈ bytes, ¬ b.toNat < 128) (n : Nat) (rest : List UInt8) :
    closeFrom n (bytes ++ rest) = closeFrom (n + bytes.length) rest := by
  induction bytes generalizing n with
  | nil => rfl
  | cons b bytes ih =>
    obtain ⟨hb, hbytes⟩ := List.forall_mem_cons.1 h
    have hclose : b ≠ ')'.toUInt8 := by
      rintro rfl
      exact hb (by decide)
    have hpercent : b ≠ '%'.toUInt8 := by
      rintro rfl
      exact hb (by decide)
    rw [List.cons_append, closeFrom, if_neg fun hand => hclose hand.1, if_neg fun hand => hpercent hand.1, ih hbytes,
      List.length_cons, Nat.add_assoc, Nat.add_comm 1]

theorem closeFrom_utf8 (n : Nat) (s : List Char) :
    closeFrom n (utf8 s) = (readArguments s).map fun read => n + utf8Size read.1 := by
  induction s using readArguments.induct generalizing n with
  | case1 => rfl
  | case2 rest =>
    rw [utf8_cons_ascii (by decide), utf8_cons_ascii (by decide), closeFrom, if_pos ⟨rfl, rfl⟩, readArguments]
    rfl
  | case3 c rest hnot hstop =>
    obtain ⟨rfl, hstart⟩ := hstop
    have hclose : ¬ ('%'.toUInt8 = ')'.toUInt8 ∧ (utf8 rest)[0]? = some '%'.toUInt8) := fun hand =>
      absurd hand.1 (by decide)
    rw [utf8_cons_ascii (by decide), closeFrom, if_neg hclose, if_pos ⟨rfl, by rw [any_getElem?_utf8, hstart]⟩,
      readArguments, if_pos ⟨rfl, hstart⟩]
    · rfl
    · exact hnot
  | case4 c rest hnot hgo ih =>
    have hread : readArguments (c :: rest) = (readArguments rest).map fun read => (c :: read.1, read.2) := by
      rw [readArguments, if_neg hgo]
      exact hnot
    have hsize : ∀ m, ((readArguments rest).map fun read => m + c.utf8Size + utf8Size read.1)
        = (readArguments (c :: rest)).map fun read => m + utf8Size read.1 := by
      intro m
      rw [hread, Option.map_map]
      simp [Function.comp_def, Nat.add_assoc]
    by_cases hc : c.toNat < 128
    · have hclose : ¬ (c.toUInt8 = ')'.toUInt8 ∧ (utf8 rest)[0]? = some '%'.toUInt8) := by
        rintro ⟨hparen, hpercent⟩
        obtain ⟨after, hafter⟩ := List.head?_eq_some_iff.1 ((head?_utf8_eq_some_iff (by decide)).1 hpercent)
        exact hnot after (eq_of_toUInt8_eq hc (by decide) hparen) hafter
      have hopen : ¬ (c.toUInt8 = '%'.toUInt8 ∧ (utf8 rest)[0]?.any isNameStartByte = true) := by
        rintro ⟨hpercent, hstart⟩
        rw [any_getElem?_utf8] at hstart
        exact hgo ⟨eq_of_toUInt8_eq hc (by decide) hpercent, hstart⟩
      rw [utf8_cons_ascii hc, closeFrom, if_neg hclose, if_neg hopen, ih, ← hsize, utf8Size_eq_one hc]
    · rw [utf8_cons, closeFrom_append (le_of_mem_utf8EncodeChar hc), ih, String.length_utf8EncodeChar, hsize]

section

variable {c : Char} {w d : List Char}

theorem span_name (hc : isNameStart c = true) (hw : ∀ e ∈ w, isNameChar e = true)
    (hd : ∀ e ∈ d.head?, isNameChar e = false) :
    (c :: (w ++ d)).takeWhile isNameChar = c :: w ∧ (c :: (w ++ d)).dropWhile isNameChar = d := by
  have hname : ∀ e ∈ c :: w, isNameChar e = true := List.forall_mem_cons.2 ⟨isNameChar_of_isNameStart hc, hw⟩
  rw [← List.cons_append, List.takeWhile_append_of_pos hname, List.dropWhile_append_of_pos hname]
  cases d with
  | nil => simp
  | cons e d =>
    have he : isNameChar e = false := hd e rfl
    simp [he]

/-- behind its name and `(`, a placeholder goes on with its arguments -/
theorem read?_of_paren (hc : isNameStart c = true) (hw : ∀ e ∈ w, isNameChar e = true) (a : List Char) :
    read? ('%' :: c :: (w ++ '(' :: a)) = (readArguments a).map fun read => (⟨c :: w, read.1⟩, read.2) := by
  obtain ⟨htake, hdrop⟩ := span_name (d := '(' :: a) hc hw (by simp [isNameChar])
  rw [read?, if_pos (by simpa using hc), hdrop, htake]
  rfl

/-- without a `(` behind the name there is no placeholder -/
theorem read?_of_ne_paren (hc : isNameStart c = true) (hw : ∀ e ∈ w, isNameChar e = true)
    (hd : ∀ e ∈ d.head?, isNameChar e = false) (hparen : d.head? ≠ some '(') :
    read? ('%' :: c :: (w ++ d)) = none := by
  obtain ⟨-, hdrop⟩ := span_name hc hw hd
  rw [read?, if_pos (by simpa using hc), hdrop]
  split
  · exact absurd rfl hparen
  · rfl

end

/-- a placeholder may start at a boundary exactly if the template has a `%` and the start of a name there -/
theorem opens_iff (x y : List Char) :
    ((utf8 (x ++ y))[utf8Size x]? = some '%'.toUInt8 ∧ (utf8 (x ++ y))[utf8Size x + 1]?.any isNameStartByte = true) ↔
      ∃ c rest, isNameStart c = true ∧ y = '%' :: c :: rest := by
  have hfirst := getElem?_utf8_append x y 0
  rw [Nat.add_zero] at hfirst
  rw [hfirst, getElem?_utf8_append, head?_utf8_eq_some_iff (by decide)]
  cases y with
  | nil => simp
  | cons d y =>
    have hsecond : d = '%' → (utf8 (d :: y))[1]?.any isNameStartByte = y.head?.any isNameStart := by
      rintro rfl
      rw [utf8_cons_ascii (by decide), ← any_getElem?_utf8]
      rfl
    constructor
    · rintro ⟨hd, hstart⟩
      obtain rfl : d = '%' := Option.some.inj hd
      rw [hsecond rfl] at hstart
      obtain ⟨c, hc, hstart⟩ := (Option.any_eq_true _ _).1 hstart
      obtain ⟨rest, rfl⟩ := List.head?_eq_some_iff.1 hc
      exact ⟨c, rest, hstart, rfl⟩
    · rintro ⟨c, rest, hc, hy⟩
      obtain ⟨rfl, rfl⟩ := List.cons.inj hy
      exact ⟨rfl, by rw [hsecond rfl]; simpa using hc⟩

theorem utf8Size_text (p : Placeholder) : utf8Size p.text = utf8Size p.name + utf8Size p.arguments + 4 := by
  have hpercent : ('%' : Char).utf8Size = 1 := utf8Size_eq_one (by decide)
  have hparen : ('(' : Char).utf8Size = 1 := utf8Size_eq_one (by decide)
  have hclose : (')' : Char).utf8Size = 1 := utf8Size_eq_one (by decide)
  simp only [Placeholder.text, List.cons_append, utf8Size_append, utf8Size_cons, utf8Size_nil, hpercent, hparen, hclose]
  omega

/-- the parts of a placeholder are slices of whatever it stands in -/
theorem slice_parts (p : Placeholder) (x z : List Char) {nameEnd close : Nat}
    (hname : nameEnd = utf8Size x + 1 + utf8Size p.name) (hclose : close = nameEnd + 1 + utf8Size p.arguments) :
    slice (x ++ (p.text ++ z)) (utf8Size x + 1) nameEnd = .ok p.name ∧
    slice (x ++ (p.text ++ z)) (nameEnd + 1) close = .ok p.arguments ∧
    slice (x ++ (p.text ++ z)) (utf8Size x) (close + 2) = .ok p.text := by
  have hpercent : ('%' : Char).utf8Size = 1 := utf8Size_eq_one (by decide)
  have hparen : ('(' : Char).utf8Size = 1 := utf8Size_eq_one (by decide)
  refine ⟨?_, ?_, ?_⟩
  · refine slice_eq_ok_iff.2 ⟨x ++ ['%'], '(' :: (p.arguments ++ ')' :: '%' :: z), ?_, ?_, ?_⟩
    · simp [Placeholder.text]
    · simp [hpercent]
    · simp [hname, hpercent]
  · refine slice_eq_ok_iff.2 ⟨x ++ '%' :: p.name ++ ['('], ')' :: '%' :: z, by simp [Placeholder.text], ?_, ?_⟩
    · simp only [hname, utf8Size_append, utf8Size_cons, utf8Size_nil, hpercent, hparen]
      omega
    · simp only [hclose, hname, utf8Size_append, utf8Size_cons, utf8Size_nil, hpercent, hparen]
      omega
  · have hsize : close + 2 = utf8Size x + utf8Size p.text := by
      rw [hclose, hname, utf8Size_text]
      omega
    rw [hsize, slice_middle]

section

variable {c : Char} {w d : List Char}

/-- the bytes of a name, and the byte behind it -/
theorem bytes_name (x : List Char) (hc : isNameStart c = true) (hw : ∀ e ∈ w, isNameChar e = true)
    (hd : ∀ e ∈ d.head?, isNameChar e = false) :
    ((utf8 (x ++ '%' :: c :: (w ++ d))).drop (utf8Size x + 2)).takeWhile isNameByte = utf8 w ∧
    ∀ n, (utf8 (x ++ '%' :: c :: (w ++ d))).drop (utf8Size x + 2 + utf8Size w + n) = (utf8 d).drop n := by
  have hsmall := toNat_lt_of_isNameChar (isNameChar_of_isNameStart hc)
  constructor
  · obtain ⟨htake, -⟩ := span_name hc hw hd
    rw [List.takeWhile_cons, if_pos (isNameChar_of_isNameStart hc)] at htake
    rw [drop_utf8_append, utf8_cons_ascii (by decide), utf8_cons_ascii hsmall, List.drop_succ_cons, List.drop_succ_cons,
      List.drop_zero, takeWhile_utf8, (List.cons.inj htake).2]
  · intro n
    have hsplit : x ++ '%' :: c :: (w ++ d) = (x ++ '%' :: c :: w) ++ d := by simp
    have hsize : utf8Size (x ++ '%' :: c :: w) = utf8Size x + 2 + utf8Size w := by
      simp only [utf8Size_append, utf8Size_cons, utf8Size_eq_one hsmall, utf8Size_eq_one (c := '%') (by decide)]
      omega
    rw [hsplit, ← hsize, drop_utf8_append]

/-- behind a `%` the search reads the name on, then `(`, then the arguments -/
theorem placeholderAt_of_start (x : List Char) (hc : isNameStart c = true) (hw : ∀ e ∈ w, isNameChar e = true)
    (hd : ∀ e ∈ d.head?, isNameChar e = false) :
    placeholderAt (x ++ '%' :: c :: (w ++ d)) (utf8Size x)
      = .ok ((read? ('%' :: c :: (w ++ d))).map fun read => Invocation.ofLocated (read.1, utf8Size x)) := by
  have hopens := (opens_iff x ('%' :: c :: (w ++ d))).2 ⟨c, w ++ d, hc, rfl⟩
  obtain ⟨hname, hrest⟩ := bytes_name x hc hw hd
  have hnext : (utf8 (x ++ '%' :: c :: (w ++ d)))[utf8Size x + 2 + utf8Size w]? = (utf8 d)[0]? := by
    have hdrop := hrest 0
    rw [List.drop_zero] at hdrop
    rw [← hdrop, List.getElem?_drop]
    rfl
  unfold placeholderAt
  dsimp only
  rw [if_pos hopens, hname, length_utf8, hnext]
  by_cases hopen : d.head? = some '('
  · obtain ⟨a, rfl⟩ := List.head?_eq_some_iff.1 hopen
    have harguments : (utf8 ('(' :: a)).drop 1 = utf8 a := by
      rw [utf8_cons_ascii (by decide)]
      rfl
    rw [if_pos ((head?_utf8_eq_some_iff (by decide)).2 hopen), hrest 1, harguments, closeFrom_utf8, read?_of_paren hc hw]
    cases hread : readArguments a with
    | none => rfl
    | some read =>
      let p : Placeholder := ⟨c :: w, read.1⟩
      have htext : x ++ '%' :: c :: (w ++ '(' :: a) = x ++ (p.text ++ read.2) := by
        simp [p, Placeholder.text, eq_append_of_readArguments hread]
      have hnameEnd : utf8Size x + 2 + utf8Size w = utf8Size x + 1 + utf8Size p.name := by
        have hsmall := toNat_lt_of_isNameChar (isNameChar_of_isNameStart hc)
        simp only [p, utf8Size_cons, utf8Size_eq_one hsmall]
        omega
      obtain ⟨hnameSlice, hargumentsSlice, hmatchedSlice⟩ := slice_parts p x read.2 hnameEnd rfl
      dsimp only [Option.map_some]
      rw [htext, hnameSlice, hargumentsSlice, hmatchedSlice]
      rfl
  · rw [if_neg fun hbyte => hopen ((head?_utf8_eq_some_iff (by decide)).1 hbyte), read?_of_ne_paren hc hw hd hopen]
    rfl

end

/-- at a boundary, the placeholder that the rest of the template starts with -/
theorem placeholderAt_append (x y : List Char) :
    placeholderAt (x ++ y) (utf8Size x)
      = .ok ((read? y).map fun read => Invocation.ofLocated (read.1, utf8Size x)) := by
  by_cases hopen : ∃ c rest, isNameStart c = true ∧ y = '%' :: c :: rest
  · obtain ⟨c, rest, hc, rfl⟩ := hopen
    have hend : ∀ e ∈ (rest.dropWhile isNameChar).head?, isNameChar e = false := by
      intro e he
      have hnot := List.head?_dropWhile_not isNameChar rest
      rwa [he] at hnot
    rw [← List.takeWhile_append_dropWhile (p := isNameChar) (l := rest)]
    exact placeholderAt_of_start x hc (fun e he => List.mem_takeWhile_imp he) hend
  · have hread : read? y = none := by
      rw [Option.eq_none_iff_forall_ne_some]
      rintro ⟨p, rest⟩ hread
      obtain ⟨hp, rfl⟩ := read?_eq_some_iff.1 hread
      obtain ⟨c, body, hc, htext⟩ := hp.exists_text_eq
      exact hopen ⟨c, body ++ rest, hc, by rw [htext]; rfl⟩
    unfold placeholderAt
    rw [if_neg fun hbytes => hopen ((opens_iff x y).1 hbytes), hread]
    rfl

/-- inside of a character there is no placeholder -/
theorem placeholderAt_of_not_isBoundary {s : List Char} {n : Nat} (h : ¬ IsBoundary s n) :
    placeholderAt s n = .ok none := by
  have hpercent : (utf8 s)[n]? ≠ some '%'.toUInt8 := by
    intro hbyte
    obtain ⟨x, y, hs, hn⟩ := exists_of_getElem?_utf8 (by decide) hbyte
    exact h ⟨x, '%' :: y, hs, hn⟩
  unfold placeholderAt
  rw [if_neg fun hand => hpercent hand.1]

/-- there is an answer at every byte -/
theorem exists_placeholderAt (s : List Char) (n : Nat) : ∃ found, placeholderAt s n = .ok found := by
  by_cases h : IsBoundary s n
  · obtain ⟨x, y, rfl, rfl⟩ := h
    exact ⟨_, placeholderAt_append x y⟩
  · exact ⟨none, placeholderAt_of_not_isBoundary h⟩

/-! ## All placeholders -/

/-- a placeholder is found where it was looked for, and takes up room -/
theorem offset_of_placeholderAt {s : List Char} {n : Nat} {found : Invocation}
    (h : placeholderAt s n = .ok (some found)) : found.offset = n ∧ 0 < utf8Size found.matched := by
  by_cases hn : IsBoundary s n
  · obtain ⟨x, y, rfl, rfl⟩ := hn
    rw [placeholderAt_append, Except.ok.injEq, Option.map_eq_some_iff] at h
    obtain ⟨read, -, rfl⟩ := h
    exact ⟨rfl, Template.utf8Size_text_pos read.1⟩
  · rw [placeholderAt_of_not_isBoundary hn] at h
    cases h

/-- the placeholders from a byte on, each searched for behind the one before -/
def placeholdersFrom (s : List Char) (cursor : Nat) : Except Failure (List Invocation) :=
  if cursor < utf8Size s then
    match _h : placeholderAt s cursor with
    | .error failure => .error failure
    | .ok none => placeholdersFrom s (cursor + 1)
    | .ok (some found) => do
      let rest ← placeholdersFrom s (found.offset + utf8Size found.matched)
      return found :: rest
  else .ok []
termination_by utf8Size s - cursor
decreasing_by
  · omega
  · have := offset_of_placeholderAt _h
    omega

/-- all placeholders of a template -/
def placeholders (s : List Char) : Except Failure (List Invocation) := placeholdersFrom s 0

theorem placeholdersFrom_of_none {s : List Char} {n : Nat} (hn : n < utf8Size s) (h : placeholderAt s n = .ok none) :
    placeholdersFrom s n = placeholdersFrom s (n + 1) := by
  conv => lhs; rw [placeholdersFrom, if_pos hn]
  split <;> simp_all

theorem placeholdersFrom_of_some {s : List Char} {n : Nat} {found : Invocation} (hn : n < utf8Size s)
    (h : placeholderAt s n = .ok (some found)) :
    placeholdersFrom s n
      = (placeholdersFrom s (found.offset + utf8Size found.matched)).map fun rest => found :: rest := by
  conv => lhs; rw [placeholdersFrom, if_pos hn]
  split <;> simp_all
  rfl

/-- no boundary lies inside of a character -/
theorem not_isBoundary (x : List Char) {c : Char} (y : List Char) {k : Nat} (hpos : 0 < k) (hk : k < c.utf8Size) :
    ¬ IsBoundary (x ++ c :: y) (utf8Size x + k) := by
  rintro ⟨x', y', hs, hsize⟩
  rcases List.append_eq_append_iff.1 hs with ⟨z, rfl, hz⟩ | ⟨z, rfl, -⟩
  · cases z with
    | nil => simp at hsize; omega
    | cons d z =>
      obtain ⟨rfl, -⟩ := List.cons.inj hz
      simp only [utf8Size_append, utf8Size_cons] at hsize
      omega
  · rw [utf8Size_append] at hsize
    omega

/-- the search goes through the bytes of a character without finding anything inside of it -/
theorem placeholdersFrom_inside (x : List Char) (c : Char) (y : List Char) {k : Nat} (hpos : 0 < k)
    (hk : k ≤ c.utf8Size) :
    placeholdersFrom (x ++ c :: y) (utf8Size x + k) = placeholdersFrom (x ++ c :: y) (utf8Size x + c.utf8Size) := by
  induction hm : c.utf8Size - k generalizing k with
  | zero =>
    have hend : k = c.utf8Size := by omega
    rw [hend]
  | succ m ih =>
    have hlt : k < c.utf8Size := by omega
    have hroom : utf8Size x + k < utf8Size (x ++ c :: y) := by
      simp only [utf8Size_append, utf8Size_cons]
      omega
    rw [placeholdersFrom_of_none hroom (placeholderAt_of_not_isBoundary (not_isBoundary x y hpos hlt)), Nat.add_assoc]
    exact ih (Nat.succ_pos k) hlt (by omega)

/-- from a boundary on, what is found is what the rest of the template is cut at -/
theorem placeholdersFrom_append (x y : List Char) :
    placeholdersFrom (x ++ y) (utf8Size x)
      = .ok (((Template.ofText y).locatedFrom (utf8Size x)).map Invocation.ofLocated) := by
  fun_induction Template.ofText y generalizing x with
  | case1 =>
    rw [List.append_nil, placeholdersFrom, if_neg (Nat.lt_irrefl _)]
    rfl
  | case2 c rest p after h ih =>
    have hroom : utf8Size x < utf8Size (x ++ c :: rest) := by
      have := c.utf8Size_pos
      simp only [utf8Size_append, utf8Size_cons]
      omega
    have hfound := placeholderAt_append x (c :: rest)
    rw [h] at hfound
    have hnext := ih (x ++ p.text)
    rw [List.append_assoc, ← eq_text_append_of_read? h, utf8Size_append] at hnext
    rw [placeholdersFrom_of_some hroom hfound]
    dsimp only [Invocation.ofLocated]
    rw [hnext]
    rfl
  | case3 c rest h ih =>
    have hc := c.utf8Size_pos
    have hroom : utf8Size x < utf8Size (x ++ c :: rest) := by
      simp only [utf8Size_append, utf8Size_cons]
      omega
    have hfound := placeholderAt_append x (c :: rest)
    rw [h] at hfound
    have hnext := ih (x ++ [c])
    simp only [List.append_assoc, List.singleton_append, utf8Size_append, utf8Size_cons, utf8Size_nil,
      Nat.add_zero] at hnext
    rw [placeholdersFrom_of_none hroom hfound, placeholdersFrom_inside x c rest Nat.one_pos hc, hnext]
    rfl

/-- what is found by offsets is what is found by characters -/
theorem placeholders_eq (s : List Char) :
    placeholders s = .ok ((Template.ofText s).located.map Invocation.ofLocated) := placeholdersFrom_append [] s

end ByOffset

end StubTemplate
