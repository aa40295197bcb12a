/-
Filling a template: every placeholder found in it is replaced by what its processor makes of the arguments.

Placeholders are resolved in order of appearance, each distinct one once, and every occurrence of its text is replaced
before the next is resolved. The first failure ends the work. `Injection.resolved` keeps the placeholders that were
resolved, with their results, in order.
-/
import StubTemplate.Argument.Parse
import StubTemplate.Registry
import StubTemplate.Template

namespace StubTemplate

/-- the outcome of filling a template -/
structure Injection where
  result : Except Error String
  /-- the placeholders resolved on the way, in order, each with what it gave -/
  resolved : List (Placeholder × Except Error String)

namespace Injection

/-- fills placeholders in a text, one after the other -/
def fillEach (resolve : Placeholder → Except Error String) : List Placeholder → List Char → Injection
  | [], text => ⟨.ok (String.ofList text), []⟩
  | p :: rest, text =>
    match resolve p with
    | .error e => ⟨.error e, [(p, .error e)]⟩
    | .ok output =>
      let next := fillEach resolve rest (Text.replaceAll p.text output.toList text)
      ⟨next.result, (p, .ok output) :: next.resolved⟩

/-- how often a processor gave a text -/
def runs (resolved : List (Placeholder × Except Error String)) (name : String) : Nat :=
  resolved.countP fun entry => String.ofList entry.1.name == name && entry.2.isOk

end Injection

namespace Registry

/-- what the processor of a placeholder makes of its arguments -/
def resolve (r : Registry) (files : Files) (base : String) (p : Placeholder) : Except Error String := do
  let arguments ← Argument.parse p.arguments
  let processor ← r.get (String.ofList p.name)
  processor.process files base arguments

def inject (r : Registry) (files : Files) (base template : String) : Injection :=
  let placeholders := (Template.ofText template.toList).placeholders.eraseDups
  Injection.fillEach (r.resolve files base) placeholders template.toList

end Registry

end StubTemplate
