/-
Reading arguments by byte offsets.

The brackets of an array, and the key and the value of an entry, are taken out of the text by slices here, at every depth
of nesting. How the nesting goes on with a character is again a parameter, `scan`.

`Follows` compares work on offsets with work on characters: it never ends for want of a slice, and does the same if the
scan is that of the characters. It goes through sequences (`Follows.bind`, `Follows.mapM`). What one element does is
`follows_parseElements_cons`, and from there an induction on the length of the texts goes through all depths. Main
results: `follows_parseArray` and `follows_parse`.
-/
import StubTemplate.Proofs.Literals
import StubTemplate.Proofs.NumeralOffsets
import StubTemplate.Proofs.TopLevelOffsets

namespace StubTemplate.ByOffset

open Text
open Argument (Element room arrayOf isArray)

/-! ## Following work on characters -/

/-- whether work on offsets never ends for want of a slice -/
def AllSlices {α : Type} (x : Except Failure α) : Prop := ∀ start stop, x ≠ .error (.slice start stop)

theorem allSlices_of_eq_ok {α : Type} {x : Except Failure α} {a : α} (h : x = .ok a) : AllSlices x := by
  rw [h]
  exact fun _ _ => nofun

/-- whether `x` gives a result or reports a cause, which are those of `y` if `P` holds -/
def Follows {α : Type} (P : Prop) (x : Except Failure α) (y : Except Error α) : Prop :=
  ∃ outcome : Except Error α, x = outcome.mapError .reported ∧ (P → outcome = y)

namespace Follows

variable {α β : Type} {P : Prop}

theorem allSlices {x : Except Failure α} {y : Except Error α} (h : Follows P x y) : AllSlices x := by
  obtain ⟨outcome, rfl, -⟩ := h
  cases outcome <;> simp [AllSlices, Except.mapError]

theorem eq {x : Except Failure α} {y : Except Error α} (h : Follows P x y) (hP : P) : x = y.mapError .reported := by
  obtain ⟨outcome, rfl, heq⟩ := h
  rw [heq hP]

theorem refl (y : Except Error α) : Follows P (y.mapError .reported) y := ⟨y, rfl, fun _ => rfl⟩

theorem ok {a b : α} (h : P → a = b) : Follows P (.ok a) (.ok b) :=
  ⟨.ok a, rfl, fun hP => congrArg Except.ok (h hP)⟩

/-- what is followed only matters if `P` holds -/
theorem congr {x : Except Failure α} {y z : Except Error α} (h : Follows P x y) (heq : P → y = z) : Follows P x z := by
  obtain ⟨outcome, hx, hy⟩ := h
  exact ⟨outcome, hx, fun hP => (hy hP).trans (heq hP)⟩

theorem bind {x : Except Failure α} {y : Except Error α} {f : α → Except Failure β} {g : α → Except Error β}
    (h : Follows P x y) (hf : ∀ a, Follows P (f a) (g a)) : Follows P (x >>= f) (y >>= g) := by
  obtain ⟨outcome, rfl, heq⟩ := h
  cases outcome with
  | error e => exact ⟨.error e, rfl, fun hP => by rw [← heq hP]; rfl⟩
  | ok a => exact (hf a).congr fun hP => by rw [← heq hP]; rfl

theorem mapM {f : β → Except Failure α} {g : β → Except Error α} (h : ∀ b, Follows P (f b) (g b)) (bs : List β) :
    Follows P (bs.mapM f) (bs.mapM g) := by
  induction bs with
  | nil => exact ok fun _ => rfl
  | cons b bs ih =>
    rw [List.mapM_cons, List.mapM_cons]
    exact (h b).bind fun a => ih.bind fun as => ok fun _ => rfl

end Follows

/-! ## Keys -/

/-- the key that a text without blanks around it spells -/
def parseKey (s : List Char) : Except Failure Key :=
  if isArray s then .error (.reported .keyNotAllowed)
  else do
    match ← scalar s with
    | .str text => return Key.ofText text
    | .int number => return .int number
    | _ => .error (.reported .keyNotAllowed)

theorem parseKey_trim (s : List Char) : parseKey (trim s) = (Argument.parseKey s).mapError .reported := by
  rw [parseKey, Argument.parseKey, Argument.key?, scalar_eq, Argument.scalar_trim]
  cases isArray (trim s) with
  | true => rfl
  | false => cases Argument.scalar s <;> rfl

variable (scan : Nesting → Char → Nesting)

/-! ## Elements -/

/-- the texts of an array's elements -/
def elementTexts (literal : List Char) : Except Failure (List (List Char)) :=
  let token := trim literal
  splitTop scan ',' (trim ((get? 1 (utf8Size token - 1) token).getD []))

theorem exists_elementTexts (literal : List Char) : ∃ texts, elementTexts scan literal = .ok texts ∧
    (isArray (trim literal) = true → room texts < (trim literal).length) ∧
    (scan = Nesting.advance → texts = Argument.elementTexts (trim literal)) := by
  obtain ⟨texts, htexts, hroom, hmodel⟩ := exists_splitTop scan ',' (trim (Argument.inside (trim literal)))
  refine ⟨texts, by rw [elementTexts, ← Argument.inside_eq_get?, htexts], ?_, hmodel⟩
  intro harray
  have htrim := length_trim_le (Argument.inside (trim literal))
  have hinside := Argument.length_inside harray
  omega

theorem room_elementTexts_lt {s : List Char} {texts : List (List Char)} (harray : isArray (trim s) = true)
    (htexts : elementTexts scan (trim s) = .ok texts) : room texts < s.length := by
  obtain ⟨texts', htexts', hroom, -⟩ := exists_elementTexts scan (trim s)
  rw [trim_trim] at hroom
  obtain rfl : texts = texts' := Except.ok.inj (htexts.symm.trans htexts')
  exact (hroom harray).trans_le (length_trim_le s)

theorem length_slice_le {s t : List Char} {start stop : Nat} (h : slice s start stop = .ok t) :
    t.length ≤ s.length := by
  obtain ⟨x, y, rfl, -, -⟩ := slice_eq_ok_iff.1 h
  simp only [List.length_append]
  omega

mutual

/-- the value of one element -/
def parseElement (s : List Char) : Except Failure Value :=
  if _h : isArray (trim s) = true then
    match _htexts : elementTexts scan (trim s) with
    | .error failure => .error failure
    | .ok texts => do
      let elements ← parseElements texts
      return arrayOf elements
  else scalar s
termination_by s.length
decreasing_by exact room_elementTexts_lt scan _h _htexts

/-- the elements of an array; of an entry the value is read before the key -/
def parseElements (texts : List (List Char)) : Except Failure (List Element) :=
  match texts with
  | [] => .ok []
  | text :: rest => do
    if ← hasSingleEquals scan text then .error (.reported .singleEquals)
    else
      match ← findTop scan ['=', '>'] (fun _ _ => true) text with
      | some arrow =>
        let keyText ← slice text 0 arrow
        match _h : slice text (arrow + 2) (utf8Size text) with
        | .error failure => .error failure
        | .ok valueText =>
          let value ← parseElement valueText
          let key ← parseKey (trim keyText)
          let elements ← parseElements rest
          return .entry key value :: elements
      | none =>
        let value ← parseElement text
        let elements ← parseElements rest
        return .item value :: elements
termination_by room texts
decreasing_by
  · have := length_slice_le _h
    simp only [room]
    omega
  all_goals
    simp only [room]
    omega

end

/-- the array that a literal spells -/
def parseArray (literal : List Char) : Except Failure Value := do
  let texts ← elementTexts scan literal
  let elements ← parseElements scan texts
  return arrayOf elements

/-- the values of an argument text, in order -/
def parse (s : List Char) : Except Failure (List Value) := do
  let texts ← splitTop scan ',' s
  texts.mapM (parseElement scan)

/-! ## The whole reading -/

theorem parseElement_of_isArray {s : List Char} {texts : List (List Char)} (harray : isArray (trim s) = true)
    (htexts : elementTexts scan (trim s) = .ok texts) : parseElement scan s = (do
      let elements ← parseElements scan texts
      return arrayOf elements) := by
  rw [parseElement, dif_pos harray]
  split
  · rename_i hfailure
    rw [htexts] at hfailure
    cases hfailure
  · rename_i htexts'
    rw [htexts] at htexts'
    cases htexts'
    rfl

/-- the slices of an entry are there: what stands before `=>`, and what stands behind it -/
theorem parseElements_of_entry {keyText valueText : List Char}
    (hsingle : hasSingleEquals scan (keyText ++ ['=', '>'] ++ valueText) = .ok false)
    (hfind : findTop scan ['=', '>'] (fun _ _ => true) (keyText ++ ['=', '>'] ++ valueText)
      = .ok (some (utf8Size keyText))) (rest : List (List Char)) :
    parseElements scan ((keyText ++ ['=', '>'] ++ valueText) :: rest) = (do
      let value ← parseElement scan valueText
      let key ← parseKey (trim keyText)
      let elements ← parseElements scan rest
      return .entry key value :: elements) := by
  have hkey : slice (keyText ++ ['=', '>'] ++ valueText) 0 (utf8Size keyText) = .ok keyText := by
    rw [List.append_assoc, slice_before]
  have hsize : utf8Size keyText + 2 = utf8Size (keyText ++ ['=', '>']) := (utf8Size_append keyText ['=', '>']).symm
  have hvalue : slice (keyText ++ ['=', '>'] ++ valueText) (utf8Size keyText + 2)
      (utf8Size (keyText ++ ['=', '>'] ++ valueText)) = .ok valueText := by
    rw [hsize, slice_behind]
  rw [parseElements, hsingle, hfind]
  simp only [hkey, bind, Except.bind, Bool.false_eq_true, if_false]
  split
  · rename_i hfailure
    rw [hvalue] at hfailure
    cases hfailure
  · rename_i hvalue'
    rw [hvalue] at hvalue'
    cases hvalue'
    rfl

theorem parseElements_of_item {text : List Char} (hsingle : hasSingleEquals scan text = .ok false)
    (hfind : findTop scan ['=', '>'] (fun _ _ => true) text = .ok none) (rest : List (List Char)) :
    parseElements scan (text :: rest) = (do
      let value ← parseElement scan text
      let elements ← parseElements scan rest
      return .item value :: elements) := by
  rw [parseElements, hsingle, hfind]
  rfl

/-- one element of an array, when the texts that are no longer than it and the rest are read alike -/
theorem follows_parseElements_cons {text : List Char} {rest : List (List Char)}
    (hvalue : ∀ s, s.length ≤ text.length →
      Follows (scan = Nesting.advance) (parseElement scan s) (Argument.parseElement s))
    (hrest : Follows (scan = Nesting.advance) (parseElements scan rest) (Argument.parseElements rest)) :
    Follows (scan = Nesting.advance) (parseElements scan (text :: rest)) (Argument.parseElements (text :: rest)) := by
  obtain ⟨b, hb, hbmodel⟩ := exists_hasSingleEquals scan text
  obtain ⟨cut, hfind, hcut, hmodel⟩ := exists_findTop scan ['=', '>'] (fun _ _ => true) text
  cases b with
  | true =>
    refine ⟨.error .singleEquals, by rw [parseElements, hb]; rfl, fun hscan => ?_⟩
    rw [Argument.parseElements, if_pos (hbmodel hscan).symm]
  | false =>
    have hsingle : scan = Nesting.advance → Argument.hasSingleEquals text = false := fun hscan => (hbmodel hscan).symm
    cases cut with
    | none =>
      rw [parseElements_of_item scan hb hfind]
      refine ((hvalue text le_rfl).bind fun value => hrest.bind fun elements =>
        .ok (b := .item value :: elements) fun _ => rfl).congr fun hscan => ?_
      rw [Argument.parseElements_item (hsingle hscan) (hmodel hscan '=' rfl)]
      rfl
    | some cut =>
      obtain ⟨keyText, valueText⟩ := cut
      obtain rfl := hcut _ rfl
      have hkey : Follows (scan = Nesting.advance) (parseKey (trim keyText)) (Argument.parseKey keyText) := by
        rw [parseKey_trim]
        exact .refl _
      have hlength : valueText.length ≤ (keyText ++ ['=', '>'] ++ valueText).length := by
        rw [List.length_append]
        omega
      rw [parseElements_of_entry scan hb hfind]
      refine ((hvalue valueText hlength).bind fun value => hkey.bind fun key => hrest.bind fun elements =>
        .ok (b := .entry key value :: elements) fun _ => rfl).congr fun hscan => ?_
      rw [Argument.parseElements_entry (hsingle hscan) (hmodel hscan '=' rfl)]
      rfl

/-- the induction is on a bound for the texts: those inside of an array are shorter, and so are a key and a value -/
theorem follows_parseElement_and_parseElements (n : Nat) :
    (∀ s, s.length < n → Follows (scan = Nesting.advance) (parseElement scan s) (Argument.parseElement s)) ∧
    ∀ texts, room texts < n →
      Follows (scan = Nesting.advance) (parseElements scan texts) (Argument.parseElements texts) := by
  induction n with
  | zero => exact ⟨fun _ h => absurd h (Nat.not_lt_zero _), fun _ h => absurd h (Nat.not_lt_zero _)⟩
  | succ n ih =>
    obtain ⟨ihElement, ihElements⟩ := ih
    constructor
    · intro s hs
      by_cases harray : isArray (trim s) = true
      · obtain ⟨texts, htexts, -, hmodel⟩ := exists_elementTexts scan (trim s)
        have hroom := room_elementTexts_lt scan harray htexts
        have helements := (ihElements texts (by omega)).congr fun hscan => by rw [hmodel hscan, trim_trim]
        rw [parseElement_of_isArray scan harray htexts, Argument.parseElement, dif_pos harray]
        exact helements.bind fun elements => .ok fun _ => rfl
      · rw [parseElement, dif_neg harray, scalar_eq, Argument.parseElement, dif_neg harray]
        exact .ok fun _ => rfl
    · intro texts htexts
      cases texts with
      | nil =>
        rw [parseElements, Argument.parseElements]
        exact .ok fun _ => rfl
      | cons text rest =>
        have hroom : text.length + 1 + room rest < n + 1 := htexts
        exact follows_parseElements_cons scan (fun s hs => ihElement s (by omega)) (ihElements rest (by omega))

theorem follows_parseElement (s : List Char) :
    Follows (scan = Nesting.advance) (parseElement scan s) (Argument.parseElement s) :=
  (follows_parseElement_and_parseElements scan _).1 s (Nat.lt_succ_self _)

theorem follows_parseArray (literal : List Char) :
    Follows (scan = Nesting.advance) (parseArray scan literal) (Argument.parseArray literal) := by
  obtain ⟨texts, htexts, -, hmodel⟩ := exists_elementTexts scan literal
  have hopen : parseArray scan literal = (do
      let elements ← parseElements scan texts
      return arrayOf elements) := by
    rw [parseArray, htexts]
    rfl
  have helements := (follows_parseElement_and_parseElements scan _).2 texts (Nat.lt_succ_self _)
  rw [hopen, Argument.parseArray]
  exact (helements.congr fun hscan => by rw [hmodel hscan]).bind fun elements => .ok fun _ => rfl

theorem follows_parse (s : List Char) : Follows (scan = Nesting.advance) (parse scan s) (Argument.parse s) := by
  obtain ⟨texts, htexts, -, hmodel⟩ := exists_splitTop scan ',' s
  have hopen : parse scan s = texts.mapM (parseElement scan) := by
    rw [parse, htexts]
    rfl
  rw [hopen, Argument.parse]
  exact (Follows.mapM (follows_parseElement scan) texts).congr fun hscan => by rw [hmodel hscan]

end StubTemplate.ByOffset
