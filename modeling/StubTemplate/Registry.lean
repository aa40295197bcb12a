/-
Registries: the processors that placeholders may call, each under a name of its own.

A name starts with a lower-case letter, goes on with lower-case letters, digits, underscores and points, and ends with
a letter or digit. A registry is built from a sequence of processors, and the first with a name that is empty, invalid
or taken makes it fail.
-/
import StubTemplate.Processor

namespace StubTemplate

namespace Processor

def isNameEnd (c : Char) : Bool := c.isLower || c.isDigit

/-- whether a name may hold the character inside -/
def isNameInner (c : Char) : Bool := isNameEnd c || c == '_' || c == '.'

def isName (s : List Char) : Bool :=
  match s with
  | [] => false
  | first :: rest => first.isLower && rest.all isNameInner && rest.getLast?.all isNameEnd

/-- the name, if it is valid -/
def checkName (name : String) : Except Error String :=
  if name = "" then .error .processorNameEmpty
  else if isName name.toList then .ok name
  else .error (.processorNameInvalid name)

theorem isName_of_checkName {name checked : String} (h : checkName name = .ok checked) : isName name.toList = true := by
  unfold checkName at h
  split at h
  · cases h
  · split at h
    · rename_i hvalid
      exact hvalid
    · cases h

end Processor

/-- processors with valid names, no two of them the same -/
structure Registry where
  processors : List Processor
  valid : ∀ p ∈ processors, Processor.isName p.name.toList = true
  distinct : (processors.map Processor.name).Nodup

namespace Registry

def empty : Registry := ⟨[], by simp, by simp⟩

/-- the registry with one more processor, if its name is valid and new -/
def add (r : Registry) (p : Processor) : Except Error Registry :=
  match checked : Processor.checkName p.name with
  | .error e => .error e
  | .ok _ =>
    if new : p.name ∈ r.processors.map Processor.name then .error (.processorNameTaken p.name)
    else
      .ok {
        processors := r.processors ++ [p]
        valid := by
          intro q hq
          rcases List.mem_append.1 hq with h | h
          · exact r.valid q h
          · exact List.mem_singleton.1 h ▸ Processor.isName_of_checkName checked
        distinct := by
          rw [List.map_append, List.nodup_append]
          refine ⟨r.distinct, by simp, ?_⟩
          intro a ha b hb e
          have hb : b = p.name := by simpa using hb
          exact new (hb ▸ e ▸ ha) }

def ofProcessors (processors : List Processor) : Except Error Registry :=
  processors.foldlM add empty

def get (r : Registry) (name : String) : Except Error Processor :=
  match r.processors.find? (·.name == name) with
  | some p => .ok p
  | none => .error (.processorUnknown name)

def contains (r : Registry) (name : String) : Bool :=
  r.processors.any (·.name == name)

/-- the names in the order in which the processors came -/
def names (r : Registry) : List String := r.processors.map Processor.name

def size (r : Registry) : Nat := r.processors.length

def isEmpty (r : Registry) : Bool := r.processors.isEmpty

/-- the names in a form for people who look for a mistake -/
def describe (r : Registry) : String :=
  let names := r.names.map fun name => "ProcessorName(\"" ++ name ++ "\")"
  "ProcessorRegistry \x7b processors: [" ++ ", ".intercalate names ++ "] \x7d"

end Registry

end StubTemplate
