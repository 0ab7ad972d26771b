import Quasicode.Number.Shortest
import Quasicode.Report.Problem

/-! Suggestions: what may help against a problem, and how likely it is to. -/
namespace Quasicode

structure Suggestion where
  message : String
  /-- From zero to one. -/
  confidence : Double

/-- A suggestion whose confidence is given in tenths. -/
def suggest (message : String) (tenths : Nat) : Suggestion := ⟨message, .ofDecimal tenths 1⟩

/-- What may help against a cause. -/
def Cause.suggestions : Cause → List Suggestion
  | unknownIdentifier name =>
    [suggest s!"Assign a value to '{name}' before using it" 6,
     suggest "Check the spelling against names declared in an enclosing scope" 4]
  | circularReference =>
    [suggest "Break the cycle by giving one of the variables a constant initial value" 7]
  | cannotCast source target =>
    [suggest s!"Convert explicitly with '({target}) value' if '{source}' can be cast" 5]
  | missingReturn type =>
    [suggest s!"Add a 'return' of type '{type}' at the end of the function" 8]
  | implicitReturnBeforeInit | returnBeforeInit =>
    [suggest "Give every field a value on each path, or declare it with an initial value" 7]
  | noMatchingFunction =>
    [suggest "Check the number and types of the arguments against the declared parameters" 6]
  | ambiguousCall => [suggest "Cast an argument so exactly one overload fits best" 7]
  | _ => []

/-- What may help against a problem. -/
def Problem.suggestions : Problem → List Suggestion
  | inSource d => d.cause.suggestions
  | io _ => []

/-- Suggestions in descending order of confidence; those of equal confidence keep their order. -/
def sortSuggestions (suggestions : List Suggestion) : List Suggestion :=
  suggestions.mergeSort fun a b => b.confidence.orderKey ≤ a.confidence.orderKey

end Quasicode
