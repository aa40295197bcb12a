/-
Slices of a text, from one byte offset to another.

A boundary is an offset at which a character starts or the text ends, which is a position of the string in the sense of
the library (`isBoundary_iff`). `get?` gives what stands between two offsets, if both are boundaries and in order.
`slice` insists on it: work that asks for any other range ends in a failure of its own kind. Main results:
`exists_slice_iff`, the ranges for which there is a slice, and `slice_eq_ok_iff`, what stands there.
-/
import StubTemplate.Argument.Parse
import StubTemplate.Proofs.Bytes

namespace StubTemplate

namespace Text

/-- a character starts at byte `n`, or the text ends there -/
def IsBoundary (s : List Char) (n : Nat) : Prop := ∃ x y, s = x ++ y ∧ n = utf8Size x

/-- what stands before and after byte `n`, if it is a boundary -/
def splitBytes? : Nat → List Char → Option (List Char × List Char)
  | 0, s => some ([], s)
  | _ + 1, [] => none
  | n + 1, c :: s =>
    if c.utf8Size ≤ n + 1 then (splitBytes? (n + 1 - c.utf8Size) s).map fun cut => (c :: cut.1, cut.2) else none

/-- what stands from byte `start` to byte `stop`, if both are boundaries and in order -/
def get? (start stop : Nat) (s : List Char) : Option (List Char) :=
  if start ≤ stop then
    (splitBytes? start s).bind fun cut => (splitBytes? (stop - start) cut.2).map Prod.fst
  else none

theorem utf8Size_eq_zero_iff {s : List Char} : utf8Size s = 0 ↔ s = [] := by
  cases s with
  | nil => simp
  | cons c s =>
    have := c.utf8Size_pos
    simp only [utf8Size_cons, reduceCtorEq, iff_false]
    omega

/-- a text of one byte is one character -/
theorem exists_of_utf8Size_eq_one {s : List Char} (h : utf8Size s = 1) : ∃ c, s = [c] ∧ c.utf8Size = 1 := by
  cases s with
  | nil => simp at h
  | cons c s =>
    have hc := c.utf8Size_pos
    rw [utf8Size_cons] at h
    have hs : s = [] := utf8Size_eq_zero_iff.1 (by omega)
    exact ⟨c, by rw [hs], by omega⟩

theorem splitBytes?_eq_some_iff {n : Nat} {s x y : List Char} :
    splitBytes? n s = some (x, y) ↔ s = x ++ y ∧ n = utf8Size x := by
  induction s generalizing n x y with
  | nil =>
    cases n with
    | zero => cases x <;> cases y <;> simp [splitBytes?]
    | succ n => cases x <;> simp [splitBytes?]
  | cons c s ih =>
    have hc := c.utf8Size_pos
    cases n with
    | zero =>
      simp only [splitBytes?, Option.some.injEq, Prod.mk.injEq, eq_comm (a := (0 : Nat)), utf8Size_eq_zero_iff]
      constructor
      · rintro ⟨rfl, rfl⟩
        exact ⟨rfl, rfl⟩
      · rintro ⟨h, rfl⟩
        exact ⟨rfl, h⟩
    | succ n =>
      rw [splitBytes?, Option.ite_none_right_eq_some, Option.map_eq_some_iff]
      constructor
      · rintro ⟨hle, ⟨x', y'⟩, h, hcut⟩
        obtain ⟨rfl, hn⟩ := ih.1 h
        obtain ⟨rfl, rfl⟩ := Prod.mk.inj hcut
        refine ⟨rfl, ?_⟩
        rw [utf8Size_cons, ← hn, Nat.add_sub_cancel' hle]
      · rintro ⟨h, hn⟩
        cases x with
        | nil => simp at hn
        | cons d x =>
          obtain ⟨rfl, rfl⟩ := List.cons.inj h
          rw [utf8Size_cons] at hn
          exact ⟨by omega, (x, y), ih.2 ⟨rfl, by omega⟩, rfl⟩

theorem get?_eq_some_iff {start stop : Nat} {s t : List Char} :
    get? start stop s = some t ↔
      ∃ x y, s = x ++ (t ++ y) ∧ start = utf8Size x ∧ stop = utf8Size x + utf8Size t := by
  simp only [get?, Option.ite_none_right_eq_some, Option.bind_eq_some_iff, Option.map_eq_some_iff, Prod.exists,
    splitBytes?_eq_some_iff]
  constructor
  · rintro ⟨hle, x, z, ⟨rfl, rfl⟩, _, y, ⟨rfl, hstop⟩, rfl⟩
    exact ⟨x, y, rfl, rfl, by omega⟩
  · rintro ⟨x, y, rfl, rfl, rfl⟩
    exact ⟨by omega, x, t ++ y, ⟨rfl, rfl⟩, t, y, ⟨rfl, by omega⟩, rfl⟩

theorem exists_get?_iff {start stop : Nat} {s : List Char} :
    (∃ t, get? start stop s = some t) ↔ start ≤ stop ∧ IsBoundary s start ∧ IsBoundary s stop := by
  simp only [get?_eq_some_iff]
  constructor
  · rintro ⟨t, x, y, rfl, rfl, rfl⟩
    exact ⟨by omega, ⟨x, t ++ y, rfl, rfl⟩, ⟨x ++ t, y, by simp, by simp⟩⟩
  · rintro ⟨hle, ⟨x, z, rfl, rfl⟩, ⟨x', y, hs, rfl⟩⟩
    rcases List.append_eq_append_iff.1 hs with ⟨t, rfl, rfl⟩ | ⟨t, rfl, rfl⟩
    · exact ⟨t, x, y, rfl, rfl, by simp⟩
    · -- the wrong way round there is room for nothing
      rw [utf8Size_append] at hle
      have ht : t = [] := utf8Size_eq_zero_iff.1 (by omega)
      exact ⟨[], x', z, by simp [ht], by simp [ht], by simp⟩

theorem utf8ByteSize_ofList (s : List Char) : (String.ofList s).utf8ByteSize = utf8Size s := by
  rw [← length_utf8, ← List.size_toByteArray]
  rfl

/-- the boundaries are the positions of a string in the sense of the library -/
theorem isBoundary_iff {s : List Char} {n : Nat} : IsBoundary s n ↔ String.Pos.Raw.IsValid (String.ofList s) ⟨n⟩ := by
  rw [String.Pos.Raw.isValid_iff_exists_append]
  constructor
  · rintro ⟨x, y, rfl, rfl⟩
    exact ⟨String.ofList x, String.ofList y, String.ofList_append, by simp [String.rawEndPos, utf8ByteSize_ofList]⟩
  · rintro ⟨x, y, hs, hn⟩
    refine ⟨x.toList, y.toList, ?_, ?_⟩
    · rw [← String.toList_append, ← hs, String.toList_ofList]
    · rw [← utf8ByteSize_ofList, String.ofList_toList]
      exact congrArg String.Pos.Raw.byteIdx hn

theorem getElem?_utf8_append (x y : List Char) (n : Nat) : (utf8 (x ++ y))[utf8Size x + n]? = (utf8 y)[n]? := by
  have hlength := length_utf8 x
  rw [utf8_append, List.getElem?_append_right (by omega), hlength, Nat.add_sub_cancel_left]

theorem drop_utf8_append (x y : List Char) (n : Nat) : (utf8 (x ++ y)).drop (utf8Size x + n) = (utf8 y).drop n := by
  rw [utf8_append, ← length_utf8, List.drop_length_add_append]

end Text

namespace Argument

open Text

/-- what stands between the first and the last byte -/
theorem inside_eq_get? (s : List Char) : inside s = (get? 1 (utf8Size s - 1) s).getD [] := by
  cases hget : get? 1 (utf8Size s - 1) s with
  | some t =>
    obtain ⟨x, y, rfl, hx, hy⟩ := get?_eq_some_iff.1 hget
    obtain ⟨first, rfl, hfirst⟩ := exists_of_utf8Size_eq_one hx.symm
    have hsize : utf8Size y = 1 := by
      simp only [utf8Size_append, utf8Size_cons, utf8Size_nil] at hy
      omega
    obtain ⟨last, rfl, hlast⟩ := exists_of_utf8Size_eq_one hsize
    simp [inside, hfirst, hlast]
  | none =>
    cases s with
    | nil => rfl
    | cons first rest =>
      rcases List.eq_nil_or_concat rest with rfl | ⟨t, last, rfl⟩
      · rfl
      · rw [List.concat_eq_append] at hget ⊢
        by_cases hones : first.utf8Size = 1 ∧ last.utf8Size = 1
        · have hsome : get? 1 (utf8Size (first :: (t ++ [last])) - 1) (first :: (t ++ [last])) = some t := by
            rw [get?_eq_some_iff]
            refine ⟨[first], [last], rfl, ?_, ?_⟩
            · simp [hones.1]
            · simp [hones.1, hones.2, Nat.add_comm]
          rw [hget] at hsome
          cases hsome
        · simp [inside, hones]

end Argument

namespace ByOffset

open Text

/-- how work on offsets ends without a result -/
inductive Failure where
  /-- there is no slice from `start` to `stop` -/
  | slice (start stop : Nat)
  /-- a cause that the caller is told -/
  | reported (e : Error)

/-- the slice from byte `start` to byte `stop` -/
def slice (s : List Char) (start stop : Nat) : Except Failure (List Char) :=
  match get? start stop s with
  | some t => .ok t
  | none => .error (.slice start stop)

theorem slice_eq_ok_iff {s t : List Char} {start stop : Nat} :
    slice s start stop = .ok t ↔
      ∃ x y, s = x ++ (t ++ y) ∧ start = utf8Size x ∧ stop = utf8Size x + utf8Size t := by
  rw [← get?_eq_some_iff, slice]
  cases get? start stop s <;> simp

theorem slice_middle (x t y : List Char) : slice (x ++ (t ++ y)) (utf8Size x) (utf8Size x + utf8Size t) = .ok t :=
  slice_eq_ok_iff.2 ⟨x, y, rfl, rfl, rfl⟩

/-- what stands before a boundary -/
theorem slice_before (x y : List Char) : slice (x ++ y) 0 (utf8Size x) = .ok x :=
  slice_eq_ok_iff.2 ⟨[], y, rfl, rfl, by simp⟩

/-- what stands behind a boundary -/
theorem slice_behind (x y : List Char) : slice (x ++ y) (utf8Size x) (utf8Size (x ++ y)) = .ok y :=
  slice_eq_ok_iff.2 ⟨x, [], by simp, rfl, by simp⟩

theorem exists_slice_iff {s : List Char} {start stop : Nat} :
    (∃ t, slice s start stop = .ok t) ↔ start ≤ stop ∧ IsBoundary s start ∧ IsBoundary s stop := by
  simp only [slice_eq_ok_iff, ← get?_eq_some_iff, exists_get?_iff]

-- inside of a character there is no boundary
example : slice "aé".toList 1 2 = .error (.slice 1 2) := rfl

end ByOffset

end StubTemplate
