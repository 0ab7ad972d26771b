import Quasicode.Proofs.QuietPrograms
import Quasicode.Proofs.LinkedPrograms

/-!
Where hidden members are used. A member of an object or of a class and a method that is called can be hidden only in the
class that declares it. The name of a field alone is looked up outwards through the scopes of the superclasses, where
nothing asks whether it is hidden: it can be used in the class that declares it and in those below.
-/
namespace Quasicode

open Relation Analysis Binding Typing

/-! ## Scopes of classes -/

namespace Table

variable {bound : Nat} {t : Table} {scope : ScopeId} {c d : SymbolId} {k k' : ClassSymbol}

theorem outward_root (sound : t.Sound bound) (path : ReflTransGen (Outward t) .root scope) : scope = .root := by
  rcases path.cases_head with same | ⟨_, up, _⟩
  · exact same.symm
  · cases up.symm.trans sound.root

/-- The scopes of classes around that of a class are those of the classes above it. -/
theorem under_of_outward (intact : t.Intact bound) (held : t.class? c = some k) (above : t.class? d = some k')
    (path : ReflTransGen (Outward t) k.scope k'.scope) : ReflTransGen t.Under c d := by
  generalize inner : k.scope = scope at path
  induction path using ReflTransGen.head_induction_on generalizing c k with
  | refl =>
    cases intact.arranged.apart held above inner
    exact .refl
  | head up path ih =>
    subst inner
    rcases intact.arranged.hung held with ⟨_, top⟩ | ⟨upper, kUpper, isUpper, heldUpper, next⟩
    · cases top.symm.trans up
      exact absurd (outward_root intact.sound path) (intact.arranged.inner above)
    · cases next.symm.trans up
      exact .head ⟨k, held, isUpper⟩ (ih heldUpper rfl)

end Table

/-! ## Members that a program declares -/

/-- The program declares the field in the class `d`. -/
def Program.HasField (program : Program) (d : SymbolId) (f : Field) : Prop :=
  ∃ c, Item.cls c ∈ program.items ∧ c.symbol = some d ∧ f ∈ c.fields

/-- The program declares the method in the class `d`. -/
def Program.HasMethod (program : Program) (d : SymbolId) (m : Method) : Prop :=
  ∃ c, Item.cls c ∈ program.items ∧ c.symbol = some d ∧ m ∈ c.methods

/-- The class around, `cls`, is the one that declares the field `id`, or one below it. -/
def Program.InReach (t : Table) (program : Program) (cls : Option SymbolId) (id : SymbolId) : Prop :=
  ∀ d f, program.HasField d f → f.symbol = some id → ∃ c, cls = some c ∧ ReflTransGen t.Under c d

section Members

variable {bound : Nat} {t : Table} {program : Program} {cls : Option SymbolId} {d id : SymbolId}
variable (checked : program.Checked bound t)
include checked

/-- A field is in the table as it is declared. -/
theorem Program.Checked.field {f : Field} (has : program.HasField d f) (isField : f.symbol = some id) :
    ∃ s v k, t.symbol? id = some s ∧ s.var? = some v ∧ t.class? d = some k ∧ s.scope = k.scope ∧
      v.kind = (if f.isStatic then .staticField else .instanceField) ∧ v.visibility = f.visibility := by
  obtain ⟨c, inside, isClass, declares⟩ := has
  obtain ⟨_, k, isClass', held, isScope⟩ := checked.housed inside
  cases isClass.symm.trans isClass'
  obtain ⟨s, v, found, isVar, scope, kind, visibility, _⟩ := (checked.registered _ inside).fields f declares id isField
  exact ⟨s, v, k, found, isVar, held, Option.some.inj (scope.symm.trans isScope), kind, visibility⟩

/-- **A field that can be seen** lies in the class around or in one above it. -/
theorem Table.InSight.inReach {spot : Spot} (seen : t.InSight spot.top id) (around : spot.Around t cls) :
    program.InReach t cls id := by
  intro d f has isField
  obtain ⟨s, v, k, found, isVar, held, same, kind, _⟩ := checked.field has isField
  obtain ⟨s', v', found', isVar', way⟩ := seen
  cases found.symm.trans found'
  cases isVar.symm.trans isVar'
  have isField : v.kind.IsField := by
    unfold VariableKind.IsField
    rw [kind]
    cases f.isStatic <;> simp
  have path := same ▸ way isField
  cases cls with
  | none =>
    rw [show spot.top = .root from around] at path
    exact absurd (Table.outward_root checked.intact.sound path) (checked.intact.arranged.inner held)
  | some c =>
    obtain ⟨k', held', top⟩ := around
    exact ⟨c, rfl, Table.under_of_outward checked.intact held' held (top ▸ path)⟩

end Members

/-! ## Hidden members -/

/-- The class around, `cls`, is the one that hides the field `id`, if it is hidden. -/
def Program.KeepsField (program : Program) (cls : Option SymbolId) (id : SymbolId) : Prop :=
  ∀ d f, program.HasField d f → f.symbol = some id → f.visibility = .hidden → cls = some d

/-- The class around, `cls`, is the one that hides the method `id`, if it is hidden. -/
def Program.KeepsMethod (program : Program) (cls : Option SymbolId) (id : SymbolId) : Prop :=
  ∀ d m, program.HasMethod d m → m.function.symbol = some id → m.visibility = .hidden → cls = some d

/-- Members are used in the class `cls` only if it may use them. -/
def Expr.KeepsHidden (t : Table) (program : Program) (cls : Option SymbolId) : Expr → Prop
  | .var _ _ (some id) | .assignee _ _ _ (some id) _ => program.InReach t cls id
  | .member _ _ _ (some id) => program.KeepsField cls id
  | .call _ .free _ _ (some target) | .call _ (.object _) _ _ (some target) =>
    ∃ id, target = t.targetOf id ∧ program.KeepsMethod cls id
  | _ => True

/-- Loops count with fields only where they may. -/
def Checks.keepsHidden (t : Table) (program : Program) (cls : Option SymbolId) : Checks :=
  { Checks.nodes (Expr.KeepsHidden t program cls) with
    counter := fun _ slot => ∀ id, slot = some id → program.InReach t cls id }

section Nodes

variable {bound : Nat} {t : Table} {program : Program} {cls : Option SymbolId} {object : Bool} {id : SymbolId}
  (checked : program.Checked bound t)
include checked

theorem Table.FieldWithin.keeps (within : t.FieldWithin cls id) : program.KeepsField cls id := by
  intro d f has isField hidden
  obtain ⟨s, v, k, found, isVar, held, same, _, visibility⟩ := checked.field has isField
  obtain ⟨s', v', c, k', found', isVar', held', same', own⟩ := within
  cases found.symm.trans found'
  cases isVar.symm.trans isVar'
  cases checked.intact.arranged.apart held held' (same.symm.trans same')
  exact own (visibility.trans hidden)

theorem Table.Usable.keeps (usable : t.Usable cls object id) : program.KeepsMethod cls id := by
  intro d m ⟨c, inside, isClass, declares⟩ isMethod hidden
  obtain ⟨_, _, sym, isClass', isMethod', held, owner, _, visibility⟩ := checked.method inside declares
  cases isClass.symm.trans isClass'
  cases isMethod.symm.trans isMethod'
  exact owner ▸ usable.within sym held (visibility.trans hidden)

theorem Expr.Linked.keepsHidden {spot : Spot} {e : Expr} (linked : e.Linked t spot cls object)
    (around : spot.Around t cls) :
    e.KeepsHidden t program cls := by
  obtain ⟨uses, chosen⟩ := linked
  cases e with
  | var info name slot =>
    cases slot with
    | none => trivial
    | some id => exact (uses id rfl).1.inReach checked around
  | assignee info name typeName slot first =>
    cases slot with
    | none => trivial
    | some id => exact (uses id rfl).1.inReach checked around
  | member info object property slot =>
    cases slot with
    | none => trivial
    | some id => exact Table.FieldWithin.keeps checked chosen
  | call info callee name arguments target =>
    cases target with
    | none => cases callee <;> trivial
    | some target =>
      cases callee with
      | free | object =>
        obtain ⟨id, _, same, usable⟩ := chosen
        exact ⟨id, same, usable.keeps checked⟩
      | super | superConstructor => trivial
  | _ => trivial

end Nodes

/-- **Hidden members are used where they are declared.** Methods that are called and members
that are named through an object or a class are used only in the class that hides them, and
fields that are named alone also in the classes below. -/
theorem hidden_kept (classNames : List String) (source : String) :
    ∃ t parsed analyzed, Table.initial = .ok t ∧
      parse (scan source).tokens (Builtin.classNames ++ classNames) = .ok parsed ∧
      analyze t parsed.program = .ok analyzed ∧
      (analyzed.problems = [] → ∀ item ∈ analyzed.program.items,
      item.HoldsAround (.keepsHidden analyzed.table analyzed.program)) := by
  obtain ⟨t, parsed, analyzed, initial, read, ran, checked⟩ := source_checked classNames source
  refine ⟨t, parsed, analyzed, initial, read, ran, fun silent => (checked silent).around
    fun spot cls object around => ?_⟩
  have nodes := Checks.nodes_mono (P := Expr.Linked analyzed.table spot cls object)
    (Q := Expr.KeepsHidden analyzed.table analyzed.program cls)
    fun _ linked => linked.keepsHidden (checked silent) around
  exact ⟨nodes.value, nodes.assignment, nodes.returned, fun _ _ seen id same => (seen id same).inReach
    (checked silent) around, nodes.scope, nodes.place⟩

/-- A class that uses what it hides, and one below that names the field alone. -/
def hiddenInReach : String := "class A
private x: int = 1
private static y: int = 2
private function f(): int
return x + this.x + A.y
end function
function g(): int
return f()
end function
end class
class B extends A
function h(): int
return x + g()
end function
end class
"

/-- The statement puts out a variable alone. -/
def Stmt.puts (id : Option SymbolId) : Stmt → Bool
  | .output [.var _ _ slot] _ => slot == id
  | _ => false

/-- A class that hides a field, and one below that puts it out. -/
def hiddenAbove : String := "class A
private x: int = 1
end class
class B extends A
function g()
output x
end function
end class
"

/-- What the compiler says about these sources. -/
theorem hiddenFields_compiled : compilesQuietly hiddenInReach ∧
    (compile hiddenAbove).toOption.any fun compiled => compiled.problems.isEmpty &&
      decide (∃ c ∈ compiled.program.classes, ∃ d ∈ compiled.program.classes, c.symbol ≠ d.symbol ∧
        ∃ f ∈ d.fields, f.visibility = .hidden ∧ f.symbol.isSome ∧ ∃ m ∈ c.methods,
        ∃ s ∈ m.function.body, s.puts f.symbol) := by
  decide +kernel

theorem hiddenInReach_kept :
    ∃ t parsed analyzed, Table.initial = .ok t ∧
      parse (scan hiddenInReach).tokens (Builtin.classNames ++ []) = .ok parsed ∧
      analyze t parsed.program = .ok analyzed ∧ analyzed.problems = [] ∧
      ∀ item ∈ analyzed.program.items, item.HoldsAround (.keepsHidden analyzed.table analyzed.program) := by
  obtain ⟨t, parsed, analyzed, initial, read, ran, kept⟩ := hidden_kept [] hiddenInReach
  have silent := analyzed_of_compilesQuietly hiddenFields_compiled.1 initial read ran
  exact ⟨t, parsed, analyzed, initial, read, ran, silent, kept silent⟩

/-- The name of a hidden field is read in a class that does not declare it. -/
theorem hidden_read_below : ∃ compiled, compile hiddenAbove = .ok compiled ∧ compiled.problems = [] ∧
    ∃ c ∈ compiled.program.classes, ∃ d ∈ compiled.program.classes, c.symbol ≠ d.symbol ∧
      ∃ f ∈ d.fields, f.visibility = .hidden ∧ f.symbol.isSome ∧ ∃ m ∈ c.methods,
      ∃ s ∈ m.function.body, s.puts f.symbol := by
  simpa only [decide_eq_true_eq] using compiled_of_shown hiddenFields_compiled.2

end Quasicode
