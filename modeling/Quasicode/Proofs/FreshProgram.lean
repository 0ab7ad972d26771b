import Quasicode.Proofs.MangledKeys
import Quasicode.Proofs.ProgramNodes

/-!
Programs as they are read. Every slot is empty and no node has a type; names are names, places lie
within the source, and outside template classes no type names a template parameter. A plain
variable is the target of an assignment only on its left.
-/
namespace Quasicode

variable {bound : Nat} {plain : Prop} {e : Expr}

/-! ## Places, names and types -/

/-- The place ends within the first `bound` characters. -/
def Span.Within (bound : Nat) (span : Span) : Prop := span.start ≤ bound ∧ span.stop ≤ bound

theorem Span.Within.merge {a b : Span} (first : a.Within bound) (second : b.Within bound) :
    (a.merge b).Within bound := by
  obtain ⟨firstStart, firstStop⟩ := first
  obtain ⟨_, secondStop⟩ := second
  constructor
  · rw [Span.merge_start]
    omega
  · rw [Span.merge_stop]
    omega

/-- A name at a place within the source. -/
structure Ident.Fit (bound : Nat) (ident : Ident) : Prop where
  named : IsName ident.name
  within : ident.span.Within bound

/-- A type with names at a place within the source; if `plain` holds, it is not a template
parameter and not an array of one. -/
def TypeName.Fit (bound : Nat) (plain : Prop) : TypeName → Prop
  | .int span | .double span | .boolean span | .any span => span.Within bound
  | .ofClass name arguments span => (IsName name ∧ WrittenAll arguments) ∧ span.Within bound
  | .array element span => element.Fit bound plain ∧ span.Within bound
  | .parameter name _ span => (IsName name ∧ ¬ plain) ∧ span.Within bound

theorem TypeName.Fit.within {type : TypeName} (fit : type.Fit bound plain) :
    type.span.Within bound := by
  cases type with
  | int | double | boolean | any => exact fit
  | ofClass | array | parameter => exact fit.2

theorem TypeName.Fit.written {bound : Nat} {plain : Prop} : ∀ {type : TypeName}, type.Fit bound plain → type.Written
  | .int _, _ | .double _, _ | .boolean _, _ | .any _, _ => trivial
  | .ofClass _ _ _, fit => fit.1
  | .array element _, fit => @TypeName.Fit.written _ _ element fit.1
  | .parameter _ _ _, fit => fit.1.1

/-- A type that names a class. -/
def TypeName.IsClass (type : TypeName) : Prop := ∃ name arguments span, type = .ofClass name arguments span

/-! ## Expressions -/

/-- A node without a type at a place within the source. -/
structure NodeInfo.Fresh (bound : Nat) (info : NodeInfo) : Prop where
  untyped : info.type = none
  within : info.span.Within bound

/-- A node as it is read. -/
def Expr.Fresh (bound : Nat) (plain : Prop) : Expr → Prop
  | .literal info _ | .group info _ | .arrayLiteral info _ | .subscript info _ _ | .unary info _ _ | .binary info _ _ _
  | .logical info _ _ _ => info.Fresh bound
  | .classRef info type slot => info.Fresh bound ∧ type.Fit bound plain ∧ type.IsClass ∧ slot = none
  | .this info slot => info.Fresh bound ∧ slot = none
  | .superField info property superclass field =>
    info.Fresh bound ∧ property.Fit bound ∧ superclass = none ∧ field = none
  | .var info name slot => info.Fresh bound ∧ name.Fit bound ∧ slot = none
  | .call info _ name _ target => info.Fresh bound ∧ name.span.Within bound ∧ target = none
  | .member info _ property field => info.Fresh bound ∧ property.Fit bound ∧ field = none
  | .cast info type _ | .newArray info type _ => info.Fresh bound ∧ type.Fit bound plain
  | .newObject info type _ target =>
    info.Fresh bound ∧ type.Fit bound plain ∧ type.IsClass ∧ target = none
  | .isType info _ type tested => info.Fresh bound ∧ type.Fit bound plain ∧ tested = none
  | .assignee _ _ _ _ _ | .widen _ _ => False

/-- What stands on the left of an assignment as it is read. -/
def Expr.FreshTarget (bound : Nat) (plain : Prop) : Expr → Prop
  | .assignee info name typeName slot first =>
    info.Fresh bound ∧ name.Fit bound ∧ (∀ type, typeName = some type → type.Fit bound plain) ∧
      slot = none ∧ first = none
  | other => other.All (Expr.Fresh bound plain)

theorem Expr.Fresh.info (fresh : e.Fresh bound plain) : e.info.Fresh bound := by
  cases e with
  | literal | group | arrayLiteral | subscript | unary | binary | logical => exact fresh
  | classRef | this | superField | var | call | member | cast | newArray | newObject | isType => exact fresh.1
  | assignee | widen => exact fresh.elim

/-! ## Statements and declarations -/

/-- An assignment as it is read. -/
structure Assignment.Fresh (bound : Nat) (plain : Prop) (a : Assignment) : Prop where
  left : a.left.FreshTarget bound plain
  chained : ∀ e ∈ a.chained, e.All (Expr.Fresh bound plain)
  value : a.value.All (Expr.Fresh bound plain)

/-- What statements are like as they are read. -/
def Checks.fresh (bound : Nat) (plain : Prop) : Checks where
  value e := e.All (Expr.Fresh bound plain)
  assignment a := a.Fresh bound plain
  returned value := ∀ e, value = some e → e.All (Expr.Fresh bound plain)
  counter name slot := name.Fit bound ∧ slot = none
  scope scope := scope = none
  place span := span.Within bound

/-- A parameter as it is read. -/
structure Param.Fresh (bound : Nat) (plain : Prop) (p : Param) : Prop where
  name : p.name.Fit bound
  typeName : ∀ type, p.typeName = some type → type.Fit bound plain
  default : ∀ e, p.default = some e → e.All (Expr.Fresh bound plain)
  unset : p.symbol = none

/-- A function as it is read. -/
structure Function.Fresh (bound : Nat) (plain : Prop) (f : Function) : Prop where
  name : f.name.Fit bound
  params : ∀ p ∈ f.params, p.Fresh bound plain
  returns : ∀ type, f.returns = some type → type.Fit bound plain
  body : holdsInAll (.fresh bound plain) f.body
  endSpan : f.endSpan.Within bound
  unset : f.symbol = none
  unplaced : f.scope = none
  ungrouped : f.overloads = none

/-- A method as it is read. -/
structure Method.Fresh (bound : Nat) (plain : Prop) (m : Method) : Prop where
  function : m.function.Fresh bound plain
  staticSpan : ∀ span, m.staticSpan = some span → span.Within bound

/-- A field as it is read. -/
structure Field.Fresh (bound : Nat) (plain : Prop) (f : Field) : Prop where
  name : f.name.Fit bound
  typeName : f.typeName.Fit bound plain
  initializer : ∀ e, f.initializer = some e → e.All (Expr.Fresh bound plain)
  unset : f.symbol = none

/-- A class as it is read; without template parameters its types name none. -/
structure Class.Fresh (bound : Nat) (c : Class) : Prop where
  name : c.name.Fit bound
  superclass : ∀ type, c.superclass = some type → type.Fit bound (c.templateParams = [])
  methods : ∀ m ∈ c.methods, m.Fresh bound (c.templateParams = [])
  fields : ∀ f ∈ c.fields, f.Fresh bound (c.templateParams = [])
  unset : c.symbol = none
  unplaced : c.scope = none
  objectless : c.instanceThis = none ∧ c.staticThis = none

def Item.Fresh (bound : Nat) : Item → Prop
  | .cls c => c.Fresh bound
  | .function f => f.Fresh bound True
  | .stmt s => s.Holds (.fresh bound True)

end Quasicode
