import Quasicode.Proofs.HiddenMembers

/-!
The order of declarations. Classes and functions can be used before they are declared, but the
name of a field alone cannot: a class reads the fields that it inherits only after the class
that declares them. So the order in which classes stand can matter.
-/
namespace Quasicode

/-- The name of the field `id` does not stand alone here. -/
def Expr.Passes (id : SymbolId) : Expr → Prop
  | .var _ _ slot => slot ≠ some id
  | _ => True

/-- **Fields are read after the class that declares them**, if they are read by their names alone. -/
theorem later_fields_unread (classNames : List String) (source : String) :
    ∃ t parsed analyzed, Table.initial = .ok t ∧
      parse (scan source).tokens (Builtin.classNames ++ classNames) = .ok parsed ∧
      analyze t parsed.program = .ok analyzed ∧
      (analyzed.problems = [] → ∀ i item, analyzed.program.items[i]? = some item →
        ∀ c, Item.cls c ∈ analyzed.program.items.drop (i + 1) → ∀ f ∈ c.fields, ∀ id, f.symbol = some id →
        item.All (Expr.Passes id)) := by
  obtain ⟨t, parsed, analyzed, initial, read, ran, checked⟩ := source_checked classNames source
  refine ⟨t, parsed, analyzed, initial, read, ran, fun silent i item here c later f declares id isField => ?_⟩
  have checked := checked silent
  have inside := List.mem_of_mem_drop later
  obtain ⟨d, _, isSymbol, _⟩ := checked.housed inside
  have owns : (Item.cls c).Owns id := List.mem_map.mpr ⟨f, declares, isField⟩
  have holds : item.HoldsAround fun _ => .nodes (Expr.Passes id) := by
    refine checked.around_at here fun spot cls object around waits => Checks.linked_nodes fun e linked => ?_
    have uses := linked.uses
    cases e with
    | var info name slot =>
      rintro rfl
      obtain ⟨seen, _, ready⟩ := uses id rfl
      rcases waits _ later id owns with rfl | waiting
      · obtain ⟨_, none, _⟩ := seen.inReach checked around d f ⟨c, inside, isSymbol, declares⟩ isField
        cases none
      · exact ready waiting
    | _ => trivial
  cases item with
  | cls | function | stmt => exact holds

/-- A class that reads its own field and that of its superclass. -/
def superclassFirst : String := "class A
x: int = 1
function f()
output x
end function
end class
class B extends A
y: int = 2
function g()
output x + y
end function
end class
"

/-- Whether a source declares two classes and is analyzed without a diagnostic only if they stay in their order. -/
def orderMatters (source : String) : Except Fault Bool := do
  let t ← Table.initial
  let parsed ← parse (scan source).tokens Builtin.classNames
  match parsed.program.items with
  | [.cls a, .cls b] =>
    let first ← analyze t ⟨[.cls a, .cls b]⟩
    let second ← analyze t ⟨[.cls b, .cls a]⟩
    return parsed.problems.isEmpty && first.problems.isEmpty && !second.problems.isEmpty
  | _ => return false

theorem superclassFirst_reordered : (orderMatters superclassFirst).toOption.any id := by decide +kernel

/-- The order of two classes decides whether something is reported. -/
theorem order_matters : ∃ t parsed a b first second, Table.initial = .ok t ∧
    parse (scan superclassFirst).tokens Builtin.classNames = .ok parsed ∧ parsed.problems = [] ∧
    parsed.program.items = [.cls a, .cls b] ∧
    analyze t ⟨[.cls a, .cls b]⟩ = .ok first ∧ first.problems = [] ∧ analyze t ⟨[.cls b, .cls a]⟩ = .ok second ∧
    second.problems ≠ [] := by
  obtain ⟨_, found, rfl⟩ := ok_of_any superclassFirst_reordered
  obtain ⟨t, initial, found⟩ := bind_eq_ok.mp found
  obtain ⟨parsed, read, found⟩ := bind_eq_ok.mp found
  split at found
  next a b items =>
    obtain ⟨first, ran, found⟩ := bind_eq_ok.mp found
    obtain ⟨second, ran', found⟩ := bind_eq_ok.mp found
    simp only [pure_eq_ok, Except.ok.injEq, Bool.and_eq_true, List.isEmpty_iff, Bool.not_eq_true',
      List.isEmpty_eq_false_iff] at found
    obtain ⟨⟨fine, quiet⟩, loud⟩ := found
    exact ⟨t, parsed, a, b, first, second, initial, read, fine, items, ran, quiet, ran', loud⟩
  next => cases found

end Quasicode
