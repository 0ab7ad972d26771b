import Quasicode.Proofs.FlowPaths
import Quasicode.Proofs.HiddenMembers

/-!
Code that runs without an object: static methods, and the initializers of fields. What it names belongs to no object,
with three exceptions that nothing checks: a loop can count with a field of objects, a call on the superclass can run a
method of objects, and an initializer can read a field of objects that its class inherits.
-/
namespace Quasicode

open Binding (Spot)

/-! ## Members of objects -/

/-- The field or the method belongs to objects. -/
def Table.OfObjects (t : Table) (id : SymbolId) : Prop :=
  (∃ v, t.var? id = some v ∧ v.kind = .instanceField) ∨ ∃ m, t.method? id = some m ∧ m.isStatic = false

/-- The members of a class belong to objects if they are not static. -/
structure Class.Divided (t : Table) (c : Class) : Prop where
  fields : ∀ f ∈ c.fields, ∃ id, f.symbol = some id ∧ (t.OfObjects id ↔ f.isStatic = false)
  methods : ∀ m ∈ c.methods, ∃ id, m.function.symbol = some id ∧ (t.OfObjects id ↔ m.isStatic = false)

section Members

variable {t : Table} {id : SymbolId} {s : Symbol}

theorem Table.ofObjects_var {v : VariableSymbol} (held : t.symbol? id = some s) (isVar : s.var? = some v) :
    t.OfObjects id ↔ v.kind = .instanceField := by
  have noMethod : t.method? id = none := by
    rw [Table.method?, held, Option.bind_some, Symbol.method?]
    rw [Symbol.var?] at isVar
    cases kind : s.kind with
    | «variable» | globalVariable => rfl
    | _ =>
      rw [kind] at isVar
      cases isVar
  simp [Table.OfObjects, Table.var_of held, isVar, noMethod]

theorem Table.ofObjects_function {f : FunctionSymbol} (held : t.symbol? id = some s)
    (isFunction : s.function? = some f) :
    t.OfObjects id ↔ ∃ m, t.method? id = some m ∧ m.isStatic = false := by
  have noVar : t.var? id = none := by
    rw [Table.var_of held, Symbol.var?]
    rw [Symbol.function?] at isFunction
    cases kind : s.kind with
    | function | method => rfl
    | _ =>
      rw [kind] at isFunction
      cases isFunction
  simp [Table.OfObjects, noVar]

theorem Program.Checked.divided {bound : Nat} {program : Program} (checked : program.Checked bound t) {c : Class}
    (inside : Item.cls c ∈ program.items) : c.Divided t := by
  refine ⟨fun f declares => ?_, fun m declares => ?_⟩
  · obtain ⟨d, isClass, _⟩ := (checked.complete _ inside).symbol
    obtain ⟨id, _, _, isField, _⟩ := ((checked.complete _ inside).fields f declares).symbol
    obtain ⟨s, v, _, held, isVar, _, _, kind, _⟩ := checked.field ⟨c, inside, isClass, declares⟩ isField
    refine ⟨id, isField, ?_⟩
    rw [Table.ofObjects_var held isVar, kind]
    cases f.isStatic <;> simp
  · obtain ⟨_, id, sym, _, isMethod, held, _, isStatic, _⟩ := checked.method inside declares
    obtain ⟨s, found, method⟩ := Table.method_symbol held
    refine ⟨id, isMethod, ?_⟩
    rw [Table.ofObjects_function found (Symbol.function_of_method method)]
    simp [held, isStatic]

end Members

/-! ## Nodes without an object -/

/-- A call without a receiver runs no method of objects. -/
def CallTarget.Free (t : Table) (target : Option CallTarget) : Prop :=
  ∀ runs, target = some runs → ∀ id ∈ runs.methods, ¬ t.OfObjects id

/-- A node of a static method. -/
def Expr.Objectless (t : Table) : Expr → Prop
  | .this _ _ | .call _ .superConstructor _ _ _ => False
  | .var _ _ slot | .assignee _ _ _ slot _ | .superField _ _ _ slot => ∀ id, slot = some id → ¬ t.OfObjects id
  | .call _ .free _ _ target => CallTarget.Free t target
  | _ => True

/-- A node of the initializer of a field of the class: the fields that it reads are inherited. -/
def Expr.Initial (t : Table) (program : Program) (c : Class) : Expr → Prop
  | .this _ _ | .superField _ _ _ _ | .assignee _ _ _ _ _ | .call _ .super _ _ _ | .call _ .superConstructor _ _ _ =>
    False
  | .var _ _ slot => ∀ id, slot = some id → ¬ c.Owns id ∧ program.InReach t c.symbol id
  | .call _ .free _ _ target => CallTarget.Free t target
  | _ => True

section Nodes

variable {t : Table} {spot : Spot} {cls : Option SymbolId}

theorem Table.Admits.objectless {id : SymbolId} (admits : t.Admits .staticMethod id) : ¬ t.OfObjects id := by
  obtain ⟨s, v, held, isVar, allowed⟩ := admits
  rw [Table.ofObjects_var held isVar]
  exact fun isField => allowed isField rfl

/-- What is called without an object is run alone, as it belongs to no object. -/
theorem Expr.Chosen.free {info : NodeInfo} {name : Ident} {arguments : List Expr} {target : Option CallTarget}
    (chosen : (Expr.call info .free name arguments target).Chosen t cls false) : CallTarget.Free t target := by
  rintro runs rfl id inside
  obtain ⟨id', ⟨s, f, held, isFunction, _⟩, rfl, usable⟩ := chosen
  have isStatic (m : MethodSymbol) (isMethod : t.method? id' = some m) : m.isStatic = true := by
    cases ofObject : m.isStatic with
    | true => rfl
    | false => cases usable.ofObject m isMethod ofObject
  have alone : t.targetOf id' = .unique id' := by
    unfold Table.targetOf
    cases isMethod : t.method? id' with
    | none => rfl
    | some m => simp [isStatic m isMethod]
  rw [alone] at inside
  cases List.mem_singleton.mp inside
  rw [Table.ofObjects_function held isFunction]
  rintro ⟨m, isMethod, ofObject⟩
  cases (isStatic m isMethod).symm.trans ofObject

theorem Expr.Linked.objectless {e : Expr} (linked : e.Linked t spot cls false) (static : spot.body = .staticMethod) :
    e.Objectless t := by
  obtain ⟨uses, chosen⟩ := linked
  cases e with
  | this =>
    rcases uses with isKind | isKind <;> cases static.symm.trans isKind
  | var => exact fun id same => (static ▸ (uses id same).2.1).objectless
  | assignee => exact fun id same => (static ▸ (uses id same).2).objectless
  | superField => exact fun id same => (static ▸ uses.2 id same).objectless
  | call info callee name arguments target =>
    cases callee with
    | free => exact chosen.free
    | superConstructor => cases static.symm.trans (uses.2 rfl)
    | super | object => trivial
  | _ => trivial

end Nodes

/-! ## Static methods and initializers -/

/-- The code of a class that runs without an object. -/
structure Class.Contexts (t : Table) (program : Program) (c : Class) : Prop where
  divided : c.Divided t
  static : ∀ m ∈ c.methods, m.isStatic → m.function.Holds (.nodes (Expr.Objectless t))
  initial : ∀ f ∈ c.fields, ∀ e, f.initializer = some e → e.All (Expr.Initial t program c)

section Classes

variable {bound : Nat} {t : Table} {program : Program} (checked : program.Checked bound t) {c : Class}
variable (inside : Item.cls c ∈ program.items)
include checked inside

theorem Program.Checked.static {m : Method} (declares : m ∈ c.methods) (isStatic : m.isStatic) :
    m.function.Holds (.nodes (Expr.Objectless t)) := by
  obtain ⟨i, here⟩ := List.getElem?_of_mem inside
  obtain ⟨_, _, _, _, isScope⟩ := checked.housed inside
  have linked := (checked.linked i _ here).methods _ isScope m declares
  obtain ⟨_, id, sym, _, isMethod, held, _, same, _⟩ := checked.method inside declares
  have noObject : m.function.hasObject t = false := by simp [Function.hasObject, isMethod, held, same, isStatic]
  refine linked.function.holds ?_
  rw [noObject]
  exact Checks.linked_nodes fun e nodes => nodes.objectless (linked.static isStatic)

/-- An initializer assigns nothing. -/
theorem Program.Checked.unassigned {f : Field} (declares : f ∈ c.fields) {e : Expr} (same : f.initializer = some e) :
    e.All fun e => ∀ info name typeName slot first, e ≠ .assignee info name typeName slot first := by
  have fresh := ((checked.fresh _ inside).fields f.bare (List.mem_map_of_mem declares)).initializer e.bare
    (by simp [Field.bare, same])
  refine Expr.all_of_bare (fun e fresh => ?_) fresh
  rintro info name typeName slot first rfl
  exact fresh

theorem Program.Checked.initial {f : Field} (declares : f ∈ c.fields) {e : Expr} (same : f.initializer = some e) :
    e.All (Expr.Initial t program c) := by
  obtain ⟨i, here⟩ := List.getElem?_of_mem inside
  obtain ⟨d, k, isSymbol, held, isScope⟩ := checked.housed inside
  have linked := (checked.linked i _ here).fields _ isScope f declares e same
  refine linked.meet (fun e ⟨uses, chosen⟩ unassigned => ?_) (checked.unassigned inside declares same)
  cases e with
  | this =>
    rcases uses with isKind | isKind <;> cases isKind
  | var =>
    intro id named
    obtain ⟨seen, _, ready⟩ := uses id named
    exact ⟨fun owns => ready (.inr owns), seen.inReach checked (isSymbol ▸ ⟨k, held, rfl⟩)⟩
  | assignee => exact unassigned _ _ _ _ _ rfl
  | superField => exact uses.1 rfl
  | call info callee name arguments target =>
    cases callee with
    | free => exact chosen.free
    | super => exact uses.1 rfl rfl
    | superConstructor => cases uses.2 rfl
    | object => trivial
  | _ => trivial

end Classes

/-- **What runs without an object needs none.** -/
theorem static_contexts (classNames : List String) (source : String) :
    ∃ t parsed analyzed, Table.initial = .ok t ∧
      parse (scan source).tokens (Builtin.classNames ++ classNames) = .ok parsed ∧
      analyze t parsed.program = .ok analyzed ∧
      (analyzed.problems = [] → ∀ c, Item.cls c ∈ analyzed.program.items →
      c.Contexts analyzed.table analyzed.program) := by
  obtain ⟨t, parsed, analyzed, initial, read, ran, checked⟩ := source_checked classNames source
  refine ⟨t, parsed, analyzed, initial, read, ran, fun silent c inside => ?_⟩
  exact ⟨(checked silent).divided inside, fun _ declares isStatic => (checked silent).static inside declares isStatic,
    fun _ declares _ same => (checked silent).initial inside declares same⟩

/-- A class with fields and methods of both kinds, and one below whose static code uses the static ones. -/
def staticBelow : String := "class A
x: int = 1
static n: int = 2
static function f(): int
return n
end function
function g(): int
return x + f()
end function
end class
class B extends A
static y: int = n + f()
static function h(a: int = f()): int
return n + f() + super.n
end function
end class
"

theorem staticBelow_contexts :
    ∃ t parsed analyzed, Table.initial = .ok t ∧
      parse (scan staticBelow).tokens (Builtin.classNames ++ []) = .ok parsed ∧
      analyze t parsed.program = .ok analyzed ∧ analyzed.problems = [] ∧
      ∀ c, Item.cls c ∈ analyzed.program.items → c.Contexts analyzed.table analyzed.program := by
  obtain ⟨t, parsed, analyzed, initial, read, ran, contexts⟩ := static_contexts [] staticBelow
  have silent := analyzed_of_compilesQuietly (by decide +kernel) initial read ran
  exact ⟨t, parsed, analyzed, initial, read, ran, silent, contexts silent⟩

/-! ## What is not checked -/

/-- The variable that a loop counts with, and the method that a call on the superclass runs. -/
def Stmt.unchecked : Stmt → List SymbolId
  | .count _ slot _ _ _ _ => slot.toList
  | .eval (.call info .super name arguments target) => (Expr.call info .super name arguments target).slots
  | _ => []

/-- What the static code of a class uses without a check. -/
def Class.unchecked (c : Class) : List SymbolId :=
  (c.methods.filter Method.isStatic).flatMap (·.function.body.flatMap Stmt.unchecked) ++
    (c.fields.filter Field.isStatic).flatMap fun f => f.initializer.elim [] Expr.slots

/-- The members of a class that belong to its objects. -/
def Class.ofObjects (c : Class) : List SymbolId :=
  (c.methods.filter (!·.isStatic)).filterMap (·.function.symbol) ++
    (c.fields.filter (!·.isStatic)).filterMap Field.symbol

/-- A static method that counts with a field. -/
def counterField : String := "class A
i: int = 0
static function f()
loop i from 1 to 3
end loop
end function
end class
"

/-- A static method that calls a method of the superclass. -/
def superMethod : String := "class A
function f()
end function
end class
class B extends A
static function g()
super.f()
end function
end class
"

/-- A static field that is initialized with a field of the superclass. -/
def inheritedField : String := "class A
x: int = 1
end class
class B extends A
static y: int = x
end class
"

/-- Static code can use a member of an object where there is none. -/
theorem object_missing : [counterField, superMethod, inheritedField].Forall fun source =>
    ∃ compiled, compile source = .ok compiled ∧ compiled.problems = [] ∧
      ∃ c ∈ compiled.program.classes, ∃ d ∈ compiled.program.classes, ∃ id ∈ c.unchecked, id ∈ d.ofObjects := by
  have found : ∀ source ∈ [counterField, superMethod, inheritedField], (compile source).toOption.any fun compiled =>
      compiled.problems.isEmpty &&
        decide (∃ c ∈ compiled.program.classes, ∃ d ∈ compiled.program.classes, ∃ id ∈ c.unchecked,
        id ∈ d.ofObjects) := by decide +kernel
  refine List.forall_iff_forall_mem.mpr fun source inside => ?_
  simpa only [decide_eq_true_eq] using compiled_of_shown (found source inside)

end Quasicode
