/-
Characters in the bytes of a text.

A byte below 128 is a whole character of its own: it occurs inside no longer character (`eq_of_mem_utf8EncodeChar`).
So where the bytes of a text have an ASCII byte, the text itself has the character, with the same bytes on both sides
(`exists_of_utf8_cons`), and what is found in the bytes by looking for ASCII is found in the text.

Nor do the bytes of any character start inside those of another (`exists_utf8EncodeChar_cons`), or start them
(`eq_of_prefix_utf8EncodeChar`).
-/
import StubTemplate.Text.Utf8

namespace StubTemplate.Text

/-! ## Letters and digits -/

theorem isUpper_iff {c : Char} : c.isUpper = true ↔ 65 ≤ c.toNat ∧ c.toNat ≤ 90 := decide_eq_true_iff

theorem isLower_iff {c : Char} : c.isLower = true ↔ 97 ≤ c.toNat ∧ c.toNat ≤ 122 :=
  (Bool.and_eq_true_iff).trans (and_congr decide_eq_true_iff decide_eq_true_iff)

theorem isDigit_iff {c : Char} : c.isDigit = true ↔ 48 ≤ c.toNat ∧ c.toNat ≤ 57 :=
  (Bool.and_eq_true_iff).trans (and_congr decide_eq_true_iff decide_eq_true_iff)

theorem isAlpha_iff {c : Char} :
    c.isAlpha = true ↔ (65 ≤ c.toNat ∧ c.toNat ≤ 90) ∨ (97 ≤ c.toNat ∧ c.toNat ≤ 122) :=
  (Bool.or_eq_true_iff).trans (or_congr isUpper_iff isLower_iff)

theorem isAlpha_of_isLower {c : Char} (h : c.isLower = true) : c.isAlpha = true := Bool.or_eq_true_iff.2 (.inr h)

/-! ## Characters and their bytes -/

theorem utf8_append (s t : List Char) : utf8 (s ++ t) = utf8 s ++ utf8 t := List.flatMap_append

theorem utf8_cons (c : Char) (s : List Char) : utf8 (c :: s) = String.utf8EncodeChar c ++ utf8 s := List.flatMap_cons

/-- an ASCII character is one byte -/
theorem utf8EncodeChar_ascii {c : Char} (h : c.toNat < 128) : String.utf8EncodeChar c = [c.toUInt8] := by
  have hc : c.utf8Size = 1 := by
    rw [Char.utf8Size_eq_one_iff, UInt32.le_iff_toNat_le]
    exact Nat.le_of_lt_succ h
  exact String.utf8EncodeChar_eq_singleton hc

theorem utf8_cons_ascii {c : Char} (h : c.toNat < 128) (s : List Char) : utf8 (c :: s) = c.toUInt8 :: utf8 s := by
  rw [utf8_cons, utf8EncodeChar_ascii h]
  rfl

theorem utf8_eq_nil_iff {s : List Char} : utf8 s = [] ↔ s = [] := by
  cases s with
  | nil => exact iff_of_true rfl rfl
  | cons c s =>
    have hpos := c.utf8Size_pos
    rw [← List.length_eq_zero_iff, length_utf8, utf8Size_cons]
    exact iff_of_false (by omega) (List.cons_ne_nil c s)

theorem toNat_toUInt8 {c : Char} (h : c.toNat < 128) : c.toUInt8.toNat = c.toNat :=
  Nat.mod_eq_of_lt (Nat.lt_of_lt_of_le h (by decide))

/-- a property of bytes is shown by going through all of them -/
theorem forall_byte {P : UInt8 → Prop} (h : ∀ n < 256, P (UInt8.ofNat n)) (b : UInt8) : P b := by
  have hnat := h b.toNat b.toNat_lt
  rwa [UInt8.ofNat_toNat] at hnat

/-- a property of ASCII characters and their bytes is shown by going through all of them -/
theorem forall_ascii {P : UInt8 → Char → Prop} (h : ∀ n < 128, P (UInt8.ofNat n) (Char.ofNat n)) {c : Char}
    (hc : c.toNat < 128) : P c.toUInt8 c := by
  have hnat := h c.toNat hc
  rw [Char.ofNat_toNat] at hnat
  exact hnat

theorem eq_of_toUInt8_eq {c d : Char} (hc : c.toNat < 128) (hd : d.toNat < 128) (h : c.toUInt8 = d.toUInt8) :
    c = d := by
  apply Char.toNat_inj.1
  rw [← toNat_toUInt8 hc, ← toNat_toUInt8 hd, h]

/-- an ASCII byte stands in no character but its own -/
theorem eq_of_mem_utf8EncodeChar {c : Char} {b : UInt8} (hmem : b ∈ String.utf8EncodeChar c) (hb : b.toNat < 128) :
    c.toNat < 128 ∧ b = c.toUInt8 := by
  by_cases hc : c.toNat < 128
  · rw [utf8EncodeChar_ascii hc] at hmem
    exact ⟨hc, List.mem_singleton.1 hmem⟩
  · -- every byte of a longer character is built up from 128
    exfalso
    have hlong : ¬ c.val.toNat ≤ 0x7f := by
      rw [Nat.not_le]
      exact Nat.not_lt.1 hc
    simp only [String.utf8EncodeChar, if_neg hlong] at hmem
    split at hmem
    · simp only [List.mem_cons, List.not_mem_nil, or_false] at hmem
      rcases hmem with rfl | rfl <;> simp only [UInt8.toNat_ofNat'] at hb <;> omega
    · split at hmem
      · simp only [List.mem_cons, List.not_mem_nil, or_false] at hmem
        rcases hmem with rfl | rfl | rfl <;> simp only [UInt8.toNat_ofNat'] at hb <;> omega
      · simp only [List.mem_cons, List.not_mem_nil, or_false] at hmem
        rcases hmem with rfl | rfl | rfl | rfl <;> simp only [UInt8.toNat_ofNat'] at hb <;> omega

/-- a text is of ASCII if its bytes are -/
theorem forall_toNat_lt_of_utf8 {s : List Char} (h : ∀ b ∈ utf8 s, b.toNat < 128) : ∀ c ∈ s, c.toNat < 128 := by
  intro c hc
  obtain ⟨b, hb⟩ := List.exists_mem_of_ne_nil _ (String.utf8EncodeChar_ne_nil (c := c))
  exact (eq_of_mem_utf8EncodeChar hb (h b (List.mem_flatMap.2 ⟨c, hc, hb⟩))).1

theorem utf8_eq_map {s : List Char} (h : ∀ c ∈ s, c.toNat < 128) : utf8 s = s.map Char.toUInt8 := by
  induction s with
  | nil => rfl
  | cons c s ih =>
    obtain ⟨hc, hs⟩ := List.forall_mem_cons.1 h
    rw [utf8_cons_ascii hc, ih hs, List.map_cons]

/-- where the bytes of a text have an ASCII character, the text has it -/
theorem exists_of_utf8_cons {c : Char} (hc : c.toNat < 128) {s : List Char} {x y : List UInt8}
    (h : utf8 s = x ++ c.toUInt8 :: y) : ∃ s₁ s₂, s = s₁ ++ c :: s₂ ∧ utf8 s₁ = x ∧ utf8 s₂ = y := by
  induction s generalizing x with
  | nil => exact absurd h (by simp [utf8])
  | cons d s ih =>
    rw [utf8_cons, List.append_eq_append_iff] at h
    rcases h with ⟨z, hx, hz⟩ | ⟨z, hd, hz⟩
    · obtain ⟨s₁, s₂, hs, h₁, h₂⟩ := ih hz
      refine ⟨d :: s₁, s₂, by rw [hs, List.cons_append], ?_, h₂⟩
      rw [utf8_cons, h₁, hx]
    · cases z with
      | nil =>
        obtain ⟨s₁, s₂, hs, h₁, h₂⟩ := ih (x := []) hz.symm
        refine ⟨d :: s₁, s₂, by rw [hs, List.cons_append], ?_, h₂⟩
        rw [utf8_cons, h₁, hd]
        simp
      | cons b z =>
        obtain ⟨hb, hrest⟩ := List.cons.inj hz
        subst hb
        have hmem : c.toUInt8 ∈ String.utf8EncodeChar d := by simp [hd]
        obtain ⟨hsmall, hbyte⟩ := eq_of_mem_utf8EncodeChar hmem (by rw [toNat_toUInt8 hc]; exact hc)
        have hcd : c = d := eq_of_toUInt8_eq hc hsmall hbyte
        subst hcd
        rw [utf8EncodeChar_ascii hc] at hd
        cases x with
        | nil =>
          have hnil : z = [] := by simpa using hd.symm
          refine ⟨[], s, rfl, rfl, ?_⟩
          rw [hrest, hnil]
          rfl
        | cons b x => simp at hd

/-! ## Where the bytes of a character start -/

/-- no character's bytes start those of another -/
theorem eq_of_prefix_utf8EncodeChar {c d : Char} (h : String.utf8EncodeChar c <+: String.utf8EncodeChar d) : c = d := by
  obtain ⟨rest, hrest⟩ := h
  have hc := ByteArray.utf8DecodeChar?_utf8EncodeChar_append (b := rest.toByteArray) (c := c)
  have hd := List.utf8DecodeChar?_utf8Encode_singleton (c := d)
  rw [← List.toByteArray_append, hrest, ← List.utf8Encode_singleton, hd] at hc
  exact (Option.some.inj hc).symm

/-- only the first byte of a character can be the first byte of one -/
theorem exists_utf8EncodeChar_cons (c : Char) : ∃ b bytes, String.utf8EncodeChar c = b :: bytes ∧
    b.IsUTF8FirstByte ∧ ∀ b' ∈ bytes, ¬ b'.IsUTF8FirstByte := by
  obtain ⟨b, bytes, hbytes⟩ := List.exists_cons_of_ne_nil (String.utf8EncodeChar_ne_nil (c := c))
  have hfirst : ∀ i (hi : i < (String.utf8EncodeChar c).length),
      (String.utf8EncodeChar c)[i].IsUTF8FirstByte ↔ i = 0 := fun i hi =>
    UInt8.isUTF8FirstByte_getElem_utf8EncodeChar
  rw [hbytes] at hfirst
  refine ⟨b, bytes, hbytes, (hfirst 0 (Nat.zero_lt_succ _)).2 rfl, ?_⟩
  intro b' hb'
  obtain ⟨i, hi, rfl⟩ := List.getElem_of_mem hb'
  exact fun h => absurd ((hfirst (i + 1) (Nat.succ_lt_succ hi)).1 h) (Nat.succ_ne_zero i)

/-- the bytes of a text read back as the text -/
theorem fromUTF8?_eq_some_iff {content : ByteArray} {text : String} :
    String.fromUTF8? content = some text ↔ content = text.toUTF8 := by
  unfold String.fromUTF8?
  split
  · rw [Option.some.injEq]
    constructor
    · rintro rfl
      rfl
    · rintro rfl
      rfl
  · rename_i h
    constructor
    · nofun
    · rintro rfl
      exact absurd text.isValidUTF8 h

theorem fromUTF8?_utf8 (s : List Char) : String.fromUTF8? (utf8 s).toByteArray = some (String.ofList s) := by
  have hvalid : (utf8 s).toByteArray.IsValidUTF8 := ByteArray.isValidUTF8_utf8Encode
  rw [String.fromUTF8?, dif_pos hvalid]
  rfl

end StubTemplate.Text
