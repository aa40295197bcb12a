/-
Which processors can be registered together, and under which names they are found.

A name is a word of `[a-z]([a-z0-9_.]*[a-z0-9])?`, here `Processor.nameLanguage`. The check that a registry makes accepts
these words and no others (`isName_iff`), and it makes no difference whether it goes through the characters of a name or
through its bytes in UTF-8 (`isNameUtf8_utf8`).

Step and run: `add_eq_ok_iff` and `add_eq_error_iff` say when one more processor is taken and what refuses it otherwise;
`ofProcessors_eq_ok_iff` and `ofProcessors_eq_error_iff` say it of a sequence.

Main result: `ofProcessors_index`. A sequence makes a registry exactly if all names are words of the language and no two
are equal; else the failure is that of the first processor that cannot follow those before it. In the registry each
processor is found under its own name, and nothing under another.
-/
import StubTemplate.Proofs.Calls
import StubTemplate.Proofs.Languages

namespace StubTemplate

open Text

namespace Processor

open scoped Computability

/-! ## Names -/

/-- the names of processors: `[a-z]([a-z0-9_.]*[a-z0-9])?` -/
def nameLanguage : Language Char :=
  oneOf [('a', 'z')] * (1 + (oneOf [('a', 'z'), ('0', '9'), ('_', '_'), ('.', '.')])∗ * oneOf [('a', 'z'), ('0', '9')])

theorem isLower_iff_inRanges {c : Char} : c.isLower = true ↔ InRanges [('a', 'z')] c := by
  simp [isLower_iff, le_iff_toNat_le]

theorem isNameEnd_iff {c : Char} : isNameEnd c = true ↔ InRanges [('a', 'z'), ('0', '9')] c := by
  simp [isNameEnd, isLower_iff, isDigit_iff, le_iff_toNat_le]

theorem isNameInner_iff {c : Char} :
    isNameInner c = true ↔ InRanges [('a', 'z'), ('0', '9'), ('_', '_'), ('.', '.')] c := by
  have hsingle : ∀ d : Char, d ≤ c ∧ c ≤ d ↔ c = d := by
    intro d
    rw [le_iff_toNat_le, le_iff_toNat_le, ← Char.toNat_inj]
    omega
  simp [isNameInner, isNameEnd_iff, hsingle, or_assoc]

/-- the check of a name accepts the words of the language and no other text -/
theorem isName_iff {s : List Char} : isName s = true ↔ s ∈ nameLanguage := by
  constructor
  · intro h
    cases s with
    | nil => cases h
    | cons first rest =>
      simp only [isName, Bool.and_eq_true, List.all_eq_true] at h
      obtain ⟨⟨hfirst, hinner⟩, hlast⟩ := h
      refine Language.mem_mul.2 ⟨[first], ⟨first, rfl, isLower_iff_inRanges.1 hfirst⟩, rest, ?_, rfl⟩
      rcases List.eq_nil_or_concat rest with rfl | ⟨middle, last, rfl⟩
      · exact (Language.mem_add _ _ _).2 (.inl Language.nil_mem_one)
      · rw [List.concat_eq_append] at hinner hlast ⊢
        rw [List.getLast?_concat, Option.all_some] at hlast
        have hmiddle : middle ∈ (oneOf [('a', 'z'), ('0', '9'), ('_', '_'), ('.', '.')])∗ := by
          rw [mem_kstar_oneOf]
          intro c hc
          exact isNameInner_iff.1 (hinner c (List.mem_append_left _ hc))
        have hend : [last] ∈ oneOf [('a', 'z'), ('0', '9')] := ⟨last, rfl, isNameEnd_iff.1 hlast⟩
        exact (Language.mem_add _ _ _).2 (.inr (Language.mem_mul.2 ⟨middle, hmiddle, [last], hend, rfl⟩))
  · intro h
    obtain ⟨_, ⟨first, rfl, hfirst⟩, rest, hrest, rfl⟩ := Language.mem_mul.1 h
    rw [List.singleton_append, isName, isLower_iff_inRanges.2 hfirst, Bool.true_and]
    rcases (Language.mem_add _ _ _).1 hrest with hempty | hrest
    · rw [(Language.mem_one _).1 hempty]
      rfl
    · obtain ⟨middle, hmiddle, _, ⟨last, rfl, hlast⟩, rfl⟩ := Language.mem_mul.1 hrest
      have hend := isNameEnd_iff.2 hlast
      have hall : middle.all isNameInner = true := by
        rw [List.all_eq_true]
        intro c hc
        exact isNameInner_iff.2 (mem_kstar_oneOf.1 hmiddle c hc)
      simp [hall, hend, isNameInner]

theorem checkName_eq_ok_iff {name checked : String} :
    checkName name = .ok checked ↔ name.toList ∈ nameLanguage ∧ name = checked := by
  rw [← isName_iff, checkName]
  split
  · rename_i hempty
    simp [hempty, isName]
  · split
    · rename_i hvalid
      simp [hvalid]
    · rename_i hinvalid
      simp [hinvalid]

theorem checkName_eq_error_iff {name : String} {e : Error} : checkName name = .error e ↔
    (name = "" ∧ .processorNameEmpty = e) ∨
      (name ≠ "" ∧ name.toList ∉ nameLanguage ∧ .processorNameInvalid name = e) := by
  rw [← isName_iff, checkName]
  split
  · rename_i hempty
    simp [hempty]
  · rename_i hne
    split
    · rename_i hvalid
      simp [hne, hvalid]
    · rename_i hinvalid
      simp [hne, hinvalid]

theorem notMem_nameLanguage_of_checkName {name : String} {e : Error} (h : checkName name = .error e) :
    name.toList ∉ nameLanguage := by
  intro hname
  cases h.symm.trans (checkName_eq_ok_iff.2 ⟨hname, rfl⟩)

/-! ## Names in UTF-8 -/

def isLowerByte (b : UInt8) : Bool := 0x61 ≤ b && b ≤ 0x7a

def isEndByte (b : UInt8) : Bool := isLowerByte b || (0x30 ≤ b && b ≤ 0x39)

def isInnerByte (b : UInt8) : Bool := isEndByte b || b == 0x5f || b == 0x2e

/-- the check of a name by its bytes: the first, the last if there are more, and those between them -/
def isNameUtf8 (bytes : List UInt8) : Bool :=
  match bytes with
  | [] => false
  | first :: rest =>
    isLowerByte first &&
      match rest.getLast? with
      | none => true
      | some last => isEndByte last && rest.dropLast.all isInnerByte

theorem toNat_lt_of_isInnerByte {b : UInt8} (h : isInnerByte b = true) : b.toNat < 128 :=
  forall_byte (P := fun b => isInnerByte b = true → b.toNat < 128) (by decide +kernel) b h

/-- for a character of ASCII the classes of its byte are its own -/
theorem classes_toUInt8 {c : Char} (hc : c.toNat < 128) :
    isLowerByte c.toUInt8 = c.isLower ∧ isEndByte c.toUInt8 = isNameEnd c ∧ isInnerByte c.toUInt8 = isNameInner c :=
  forall_ascii (P := fun b c => isLowerByte b = c.isLower ∧ isEndByte b = isNameEnd c ∧ isInnerByte b = isNameInner c)
    (by decide +kernel) hc

theorem forall_isInnerByte_of_isNameUtf8 {bytes : List UInt8} (h : isNameUtf8 bytes = true) :
    ∀ b ∈ bytes, isInnerByte b = true := by
  cases bytes with
  | nil => cases h
  | cons first rest =>
    rw [isNameUtf8, Bool.and_eq_true] at h
    obtain ⟨hfirst, hrest⟩ := h
    refine List.forall_mem_cons.2 ⟨by simp [isInnerByte, isEndByte, hfirst], ?_⟩
    rcases List.eq_nil_or_concat rest with rfl | ⟨middle, last, rfl⟩
    · simp
    · rw [List.concat_eq_append] at hrest ⊢
      simp only [List.getLast?_concat, List.dropLast_concat, Bool.and_eq_true, List.all_eq_true] at hrest
      intro b hb
      rcases List.mem_append.1 hb with hb | hb
      · exact hrest.2 b hb
      · rw [List.mem_singleton.1 hb, isInnerByte, hrest.1]
        rfl

theorem toNat_lt_of_isNameInner {c : Char} (h : isNameInner c = true) : c.toNat < 128 := by
  simp only [isNameInner, isNameEnd, Bool.or_eq_true, isLower_iff, isDigit_iff, beq_iff_eq] at h
  rcases h with (h | rfl) | rfl
  · omega
  · decide
  · decide

theorem all_isInnerByte_map {s : List Char} (h : ∀ c ∈ s, c.toNat < 128) :
    (s.map Char.toUInt8).all isInnerByte = s.all isNameInner := by
  induction s with
  | nil => rfl
  | cons c s ih =>
    obtain ⟨hc, hs⟩ := List.forall_mem_cons.1 h
    rw [List.map_cons, List.all_cons, List.all_cons, (classes_toUInt8 hc).2.2, ih hs]

/-- a name may be checked by its bytes, whatever characters there are in it -/
theorem isNameUtf8_utf8 (s : List Char) : isNameUtf8 (utf8 s) = isName s := by
  by_cases hs : ∀ c ∈ s, c.toNat < 128
  · rw [utf8_eq_map hs]
    cases s with
    | nil => rfl
    | cons first rest =>
      obtain ⟨hfirst, hrest⟩ := List.forall_mem_cons.1 hs
      rw [List.map_cons, isNameUtf8, isName, (classes_toUInt8 hfirst).1, Bool.and_assoc]
      congr 1
      rcases List.eq_nil_or_concat rest with rfl | ⟨middle, last, rfl⟩
      · rfl
      · rw [List.concat_eq_append] at hrest ⊢
        have hmiddle := all_isInnerByte_map fun c hc => hrest c (List.mem_append_left _ hc)
        have hlast := (classes_toUInt8 (hrest last (by simp))).2.1
        cases hend : isNameEnd last <;> simp [hmiddle, hlast, hend, isNameInner]
  · -- a character of more than one byte is in no class, and neither are its bytes
    have hchars : isName s = false := by
      rw [← Bool.not_eq_true]
      intro h
      exact hs fun c hc => toNat_lt_of_isNameInner ((isNameInner_of_isName h).2 c hc)
    have hbytes : isNameUtf8 (utf8 s) = false := by
      rw [← Bool.not_eq_true]
      intro h
      refine hs (forall_toNat_lt_of_utf8 fun b hb => ?_)
      exact toNat_lt_of_isInnerByte (forall_isInnerByte_of_isNameUtf8 h b hb)
    rw [hchars, hbytes]

end Processor

namespace Registry

open Processor

/-! ## One more processor -/

/-- why a processor with a name cannot follow processors with the names `taken` -/
inductive Refused (taken : List String) : String → Error → Prop
  | empty : Refused taken "" .processorNameEmpty
  | invalid {name : String} (hne : name ≠ "") (h : name.toList ∉ nameLanguage) :
    Refused taken name (.processorNameInvalid name)
  | taken {name : String} (hname : name.toList ∈ nameLanguage) (h : name ∈ taken) :
    Refused taken name (.processorNameTaken name)

theorem refused_iff {taken : List String} {name : String} {e : Error} : Refused taken name e ↔
    (name = "" ∧ .processorNameEmpty = e) ∨
      (name ≠ "" ∧ name.toList ∉ nameLanguage ∧ .processorNameInvalid name = e) ∨
      (name.toList ∈ nameLanguage ∧ name ∈ taken ∧ .processorNameTaken name = e) := by
  constructor
  · rintro (_ | ⟨hne, h⟩ | ⟨hname, h⟩)
    · exact .inl ⟨rfl, rfl⟩
    · exact .inr (.inl ⟨hne, h, rfl⟩)
    · exact .inr (.inr ⟨hname, h, rfl⟩)
  · rintro (⟨rfl, rfl⟩ | ⟨hne, h, rfl⟩ | ⟨hname, h, rfl⟩)
    · exact .empty
    · exact .invalid hne h
    · exact .taken hname h

theorem add_eq_ok_iff {r s : Registry} {p : Processor} :
    r.add p = .ok s ↔ p.name.toList ∈ nameLanguage ∧ p.name ∉ r.names ∧ s.processors = r.processors ++ [p] := by
  unfold add
  split
  · rename_i hrefused
    simp [notMem_nameLanguage_of_checkName hrefused]
  · rename_i hchecked
    obtain ⟨hname, -⟩ := checkName_eq_ok_iff.1 hchecked
    split
    · rename_i htaken
      simp [names, htaken]
    · rename_i hnew
      cases s
      simp [names, hnew, hname, eq_comm]

theorem add_eq_error_iff {r : Registry} {p : Processor} {e : Error} :
    r.add p = .error e ↔ Refused r.names p.name e := by
  rw [refused_iff, ← or_assoc, ← checkName_eq_error_iff]
  unfold add
  split
  · rename_i hrefused
    simp [hrefused, notMem_nameLanguage_of_checkName hrefused]
  · rename_i hchecked
    obtain ⟨hname, -⟩ := checkName_eq_ok_iff.1 hchecked
    split
    · rename_i htaken
      simp [names, hchecked, hname, htaken]
    · rename_i hnew
      simp [names, hchecked, hnew]

/-! ## A sequence of processors -/

/-- processors that can be registered together: every name is one, and no two are equal -/
def Indexable (ps : List Processor) : Prop :=
  (∀ p ∈ ps, p.name.toList ∈ nameLanguage) ∧ (ps.map Processor.name).Nodup

theorem indexable_append_singleton {ps : List Processor} {p : Processor} : Indexable (ps ++ [p]) ↔
    Indexable ps ∧ p.name.toList ∈ nameLanguage ∧ p.name ∉ ps.map Processor.name := by
  simp only [Indexable, List.forall_mem_append, List.map_append, List.map_singleton, List.nodup_append,
    List.nodup_singleton, List.mem_singleton, forall_eq, true_and]
  constructor
  · rintro ⟨⟨hps, hp⟩, hnodup, hnew⟩
    exact ⟨⟨hps, hnodup⟩, hp, fun hmem => hnew _ hmem rfl⟩
  · rintro ⟨⟨hps, hnodup⟩, hp, hnew⟩
    exact ⟨⟨hps, hp⟩, hnodup, fun name hname he => hnew (he ▸ hname)⟩

theorem Indexable.exists_registry {ps : List Processor} (h : Indexable ps) : ∃ r : Registry, r.processors = ps :=
  ⟨⟨ps, fun p hp => isName_iff.2 (h.1 p hp), h.2⟩, rfl⟩

theorem ofProcessors_eq_ok_iff {ps : List Processor} {r : Registry} :
    ofProcessors ps = .ok r ↔ Indexable ps ∧ r.processors = ps := by
  induction ps using List.reverseRecOn generalizing r with
  | nil =>
    obtain ⟨ps, -, -⟩ := r
    simp [ofProcessors, pure, Except.pure, empty, Indexable, eq_comm]
  | append_singleton ps p ih =>
    rw [ofProcessors, List.foldlM_append, bind_eq_ok_iff, indexable_append_singleton]
    rw [ofProcessors] at ih
    simp only [List.foldlM_cons, List.foldlM_nil, bind_pure, ih, add_eq_ok_iff]
    constructor
    · rintro ⟨s, ⟨hps, rfl⟩, hp, hnew, hr⟩
      exact ⟨⟨hps, hp, hnew⟩, hr⟩
    · rintro ⟨⟨hps, hp, hnew⟩, hr⟩
      obtain ⟨s, rfl⟩ := hps.exists_registry
      exact ⟨s, ⟨hps, rfl⟩, hp, hnew, hr⟩

theorem ofProcessors_eq_error_iff {ps : List Processor} {e : Error} : ofProcessors ps = .error e ↔
    ∃ before p after, ps = before ++ p :: after ∧ Indexable before ∧
      Refused (before.map Processor.name) p.name e := by
  have hok : ∀ (before : List Processor) (r : Registry),
      before.foldlM add .empty = .ok r ↔ Indexable before ∧ r.processors = before :=
    fun _ _ => ofProcessors_eq_ok_iff
  rw [ofProcessors, foldlM_eq_error_iff]
  simp only [hok, add_eq_error_iff]
  constructor
  · rintro ⟨before, p, after, rfl, r, ⟨hbefore, rfl⟩, hp⟩
    exact ⟨r.processors, p, after, rfl, hbefore, hp⟩
  · rintro ⟨before, p, after, rfl, hbefore, hp⟩
    obtain ⟨r, rfl⟩ := hbefore.exists_registry
    exact ⟨r.processors, p, after, rfl, r, ⟨hbefore, rfl⟩, hp⟩

/-! ## Lookup -/

theorem contains_iff {r : Registry} {name : String} : r.contains name = true ↔ name ∈ r.names := by
  simp [contains, names]

theorem get_of_notMem {r : Registry} {name : String} (h : name ∉ r.names) :
    r.get name = .error (.processorUnknown name) := by
  unfold get
  split
  · rename_i p hp
    have hname : p.name = name := by simpa using List.find?_some hp
    exact absurd (List.mem_map.2 ⟨p, List.mem_of_find?_eq_some hp, hname⟩) h
  · rfl

/--
**A registry is an index of all its processors, and only valid names get into it.** A name is valid, by its characters
or by its bytes, if it is a word of `nameLanguage`. A sequence makes a registry exactly if its names are valid and
different; otherwise the failure is that of the first processor whose name is empty, invalid or equal to an earlier one.
The registry lists the names in the order of the sequence. Under the name of a processor it holds this processor, and
under any other name it holds none.
-/
theorem ofProcessors_index (ps : List Processor) :
    (∀ s : List Char, isNameUtf8 (utf8 s) = isName s ∧ (isName s = true ↔ s ∈ nameLanguage)) ∧
    ((∃ r, ofProcessors ps = .ok r) ↔ Indexable ps) ∧
    (∀ e, ofProcessors ps = .error e ↔ ∃ before p after, ps = before ++ p :: after ∧ Indexable before ∧
      Refused (before.map Processor.name) p.name e) ∧
    ∀ r, ofProcessors ps = .ok r →
      r.names = ps.map Processor.name ∧ r.size = ps.length ∧
      (∀ p ∈ ps, r.get p.name = .ok p ∧ r.contains p.name = true) ∧
      ∀ name, name ∉ ps.map Processor.name → r.get name = .error (.processorUnknown name) ∧ r.contains name = false := by
  refine ⟨fun s => ⟨isNameUtf8_utf8 s, isName_iff⟩, ⟨?_, ?_⟩, fun e => ofProcessors_eq_error_iff, ?_⟩
  · rintro ⟨r, hr⟩
    exact (ofProcessors_eq_ok_iff.1 hr).1
  · intro h
    obtain ⟨r, hr⟩ := h.exists_registry
    exact ⟨r, ofProcessors_eq_ok_iff.2 ⟨h, hr⟩⟩
  · intro r hr
    obtain ⟨-, rfl⟩ := ofProcessors_eq_ok_iff.1 hr
    refine ⟨rfl, rfl, ?_, ?_⟩
    · intro p hp
      exact ⟨get_name hp, contains_iff.2 (List.mem_map_of_mem hp)⟩
    · intro name hname
      refine ⟨get_of_notMem hname, ?_⟩
      rw [← Bool.not_eq_true, contains_iff]
      exact hname

/-- the third processor has the name of the second, and the name of the fourth ends in a dot -/
def faulty : List Processor := [⟨"a", fun _ _ _ => .ok ""⟩, plain, plain, ⟨"b.", fun _ _ _ => .ok ""⟩]

theorem ofProcessors_index_faulty : ofProcessors faulty = .error (.processorNameTaken "proc") ∧
    ∃ r, ofProcessors (faulty.take 2) = .ok r ∧ r.names = ["a", "proc"] ∧ r.get "proc" = .ok plain ∧
      r.get "pro" = .error (.processorUnknown "pro") := by
  have hvalid : ∀ p ∈ faulty.take 2, p.name.toList ∈ nameLanguage := by
    intro p hp
    rw [← isName_iff]
    revert p
    decide
  have hindexable : Indexable (faulty.take 2) := ⟨hvalid, by decide⟩
  have htaken : Refused ["a", "proc"] "proc" (.processorNameTaken "proc") :=
    .taken (hvalid plain (by simp [faulty])) (by decide)
  obtain ⟨-, -, hfault, -⟩ := ofProcessors_index faulty
  obtain ⟨-, hindex, -, hfound⟩ := ofProcessors_index (faulty.take 2)
  obtain ⟨r, hr⟩ := hindex.2 hindexable
  obtain ⟨hnames, -, hget, hmiss⟩ := hfound r hr
  refine ⟨(hfault _).2 ⟨faulty.take 2, plain, faulty.drop 3, rfl, hindexable, htaken⟩, r, hr, hnames, ?_, ?_⟩
  · exact (hget plain (by simp [faulty])).1
  · exact (hmiss "pro" (by decide)).1

end Registry

end StubTemplate
