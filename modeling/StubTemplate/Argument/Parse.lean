/-
Reading a placeholder's arguments.

The text is cut at its top-level commas. An element in brackets is an array, whose elements are read in the same way;
any other is a scalar. Reading an array reads shorter and shorter texts, which the length lemmas of the top level
show.
-/
import StubTemplate.Argument.Nesting
import StubTemplate.Argument.Scalar
import StubTemplate.Argument.Array
import StubTemplate.Error

namespace StubTemplate.Argument

open Text (trim)

def isArray (s : List Char) : Bool :=
  s.head? == some '[' && s.getLast? == some ']'

def elementTexts (s : List Char) : List (List Char) :=
  splitTop ',' (trim (inside s))

/-- whether an element has `=` where `=>` is meant: a top-level `=`, not followed by `>`, between two texts -/
def hasSingleEquals (element : List Char) : Bool :=
  match cutTop ['='] (fun next => next != some '>') element with
  | none => false
  | some (before, after) => trim before != [] && trim after != []

/-- the key that the text before `=>` spells -/
def parseKey (s : List Char) : Except Error Key :=
  if isArray (trim s) then .error .keyNotAllowed
  else
    match key? s with
    | some key => .ok key
    | none => .error .keyNotAllowed

theorem length_inside {s : List Char} (h : isArray s = true) : (inside s).length + 2 = s.length := by
  simp only [isArray, Bool.and_eq_true, beq_iff_eq] at h
  cases s with
  | nil => simp at h
  | cons first rest =>
    obtain ⟨hfirst, hlast⟩ := h
    have hfirst : first = '[' := by simpa using hfirst
    subst hfirst
    cases rest with
    | nil => simp at hlast
    | cons c cs =>
      rw [List.getLast?_cons_cons] at hlast
      have hsize : ('[' : Char).utf8Size = 1 ∧ (']' : Char).utf8Size = 1 := by decide
      simp [inside, hlast, hsize.1, hsize.2]

theorem room_elementTexts_lt {s : List Char} (h : isArray (trim s) = true) :
    room (elementTexts (trim s)) < s.length := by
  have hroom := room_splitTop_le ',' (trim (inside (trim s)))
  have htrim := Text.length_trim_le (inside (trim s))
  have hinside := length_inside h
  have hs := Text.length_trim_le s
  unfold elementTexts
  omega

mutual

def parseElement (s : List Char) : Except Error Value :=
  if _h : isArray (trim s) = true then do
    let elements ← parseElements (elementTexts (trim s))
    return arrayOf elements
  else
    .ok (scalar s)
termination_by s.length
decreasing_by exact room_elementTexts_lt _h

/-- the elements of an array; of an entry the value is read before the key -/
def parseElements (texts : List (List Char)) : Except Error (List Element) :=
  match texts with
  | [] => .ok []
  | text :: rest =>
    if hasSingleEquals text then .error .singleEquals
    else
      match _h : cutTop ['=', '>'] (fun _ => true) text with
      | some cut => do
        let value ← parseElement cut.2
        let key ← parseKey cut.1
        let elements ← parseElements rest
        return .entry key value :: elements
      | none => do
        let value ← parseElement text
        let elements ← parseElements rest
        return .item value :: elements
termination_by room texts
decreasing_by
  · have := length_cutTop _h
    simp only [room]
    omega
  · simp only [room]
    omega
  · simp only [room]
    omega
  · simp only [room]
    omega

end

/-- the array that a literal spells; whatever stands first and last is taken for its brackets -/
def parseArray (literal : List Char) : Except Error Value := do
  let elements ← parseElements (elementTexts (trim literal))
  return arrayOf elements

/-- the values of an argument text, in order; a blank text has none -/
def parse (s : List Char) : Except Error (List Value) :=
  (splitTop ',' s).mapM parseElement

end StubTemplate.Argument
