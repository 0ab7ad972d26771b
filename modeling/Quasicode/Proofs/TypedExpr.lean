import Quasicode.Proofs.AnalysisInvariants
import Quasicode.Proofs.BareProgram
import Quasicode.Proofs.DispatchTables
import Quasicode.Proofs.NamesInSight
import Quasicode.Typing.Program

/-!
Typed expressions. Every node has a type over the symbols that are there, every `widen` node converts a value to a wider
type, and the target of a call is that of a function which is no constructor. Where nothing was reported, slots are
filled with symbols of the kinds that belong there, members and calls stand for what can be used where they stand, and
where a value meets the place that takes it the two types agree.
-/
namespace Quasicode

open Binding (Spot)

/-- There is an object that the body of a function runs on. -/
def Typing.hasObject (frame : Option Typing.Frame) : Bool := frame.any fun frame => frame.isMethod && !frame.isStatic

/-- What the call has recorded has the property `T`, unless the call goes to the superclass. -/
def Records (T : CallTarget → Prop) : Expr → Prop
  | .call _ .free _ _ (some target) | .call _ (.object _) _ _ (some target) => T target
  | _ => True

/-- The types are the same, unless one of them stands for a problem. -/
def Ty.Agrees (a b : Ty) : Prop := a == b ∨ a.isError ∨ b.isError

theorem Ty.Below.cls {count : Nat} {ty : Ty} {id : SymbolId} (below : ty.Below count)
    (isClass : ty.classId? = some id) :
    id.index < count := by
  cases ty with
  | ofClass name id =>
    cases isClass
    exact below
  | _ => cases isClass

/-- The arguments have the types of the parameters at their places. -/
def ArgumentsAgree (arguments : List Expr) (params : List Ty) : Prop :=
  ∀ (i : Nat) (a : Expr) (p : Ty), arguments[i]? = some a → params[i]? = some p → a.type.Agrees p

namespace Table

/-- The type of a variable, as far as it is known. -/
def typeOf (t : Table) (id : SymbolId) : Ty := ((t.var? id).bind VariableSymbol.type).getD .error

/-- The function behind an id takes the arguments. -/
def Takes (t : Table) (id : SymbolId) (arguments : List Expr) : Prop :=
  ∃ s f, t.symbol? id = some s ∧ s.function? = some f ∧ ArgumentsAgree arguments f.params

/-- The field `id` lies in a class, and if it is hidden then in the class `cls`. -/
def FieldWithin (t : Table) (cls : Option SymbolId) (id : SymbolId) : Prop :=
  ∃ s v c k, t.symbol? id = some s ∧ s.var? = some v ∧ t.class? c = some k ∧ s.scope = k.scope ∧
    (v.visibility = .hidden → cls = some c)

theorem FieldWithin.hasType {t : Table} {cls : Option SymbolId} {id : SymbolId} (within : t.FieldWithin cls id)
    (apart : t.UntypedApart) :
    t.HasType id := by
  obtain ⟨s, v, c, k, held, isVar, isClass, scope, _⟩ := within
  intro v' isVar'
  cases isVar.symm.trans ((var_of held).symm.trans isVar')
  by_contra untyped
  exact apart held isVar (Option.not_isSome_iff_eq_none.mp untyped) isClass scope

/-- A hidden method is one of the class `cls`. -/
def MethodWithin (t : Table) (cls : Option SymbolId) (id : SymbolId) : Prop :=
  ∀ m, t.method? id = some m → m.visibility = .hidden → cls = some m.owner

/-- The function can be called without a receiver, or with one if `object` is `true`. -/
structure Usable (t : Table) (cls : Option SymbolId) (object : Bool) (id : SymbolId) : Prop where
  within : t.MethodWithin cls id
  plain : t.Callable id
  ofObject : ∀ m, t.method? id = some m → m.isStatic = false → object

/-- The function takes `count` arguments. -/
def Accepts (t : Table) (id : SymbolId) (count : Nat) : Prop :=
  ∃ s f, t.symbol? id = some s ∧ s.function? = some f ∧ f.minArgs ≤ count ∧ count ≤ f.maxArgs

theorem Accepts.below {t : Table} {id : SymbolId} {count : Nat} (accepts : t.Accepts id count) :
    id.index < t.symbols.size := by
  obtain ⟨_, _, held, _⟩ := accepts
  exact symbol_bound held

/-- The method is a constructor of the class. -/
def Constructs (t : Table) (cls id : SymbolId) : Prop := ∃ m, t.method? id = some m ∧ m.isConstructor ∧ m.owner = cls

end Table

/-- How the target of a call follows from the function that was selected for it. -/
def Callee.Selects (t : Table) (cls : Option SymbolId) (object : Bool) (id : SymbolId)
    (target : CallTarget) : Callee → Prop
  | .free => target = t.targetOf id ∧ t.Usable cls object id
  | .object _ => target = t.targetOf id ∧ t.Usable cls true id
  | .super | .superConstructor => target = .unique id

/-- The written type is that of the objects of a class. -/
def TypeName.OfClass (t : Table) (type : TypeName) (cls : SymbolId) : Prop :=
  ∃ ty, type.resolve t.classes = .ok ty ∧ ty.classId? = some cls

/-- The functions that a call may run are among the first `count` symbols. -/
def CallTarget.Below (count : Nat) : CallTarget → Prop
  | unique id => id.index < count
  | byClass methods => ∀ entry ∈ methods, entry.2.index < count

namespace Expr

/-- A conversion goes from one type to another that is wider, and neither is an error. -/
def Justified (view : ClassView) : Expr → Prop
  | .widen info inner =>
    ∃ ty joined, info.type = some { type := ty, assignable := false } ∧ inner.type.isError = false ∧
      ty.isError = false ∧ (inner.type == ty) = false ∧ Ty.join view inner.type ty = .ok joined ∧ joined == ty
  | _ => True

/-- A node as typing leaves it: a conversion widens, and the target of a call that does not go to the superclass is that
of a function which is no constructor. -/
def Noted (t : Table) : Expr → Prop
  | .widen info inner => (Expr.widen info inner).Justified t.classes
  | .call _ .free _ _ (some target) | .call _ (.object _) _ _ (some target) => t.Targets target
  | _ => True

/-- The variables that typing asks the types of at a node. -/
def asks : Expr → List SymbolId
  | .this _ slot | .var _ _ slot | .assignee _ _ _ slot _ => slot.toList
  | .superField _ _ _ field => field.toList
  | _ => []

/-- A node as binding leaves it: nothing has been chosen for it yet, and the variables that
typing asks the types of have `ready`. -/
structure Open (bound count : Nat) (ready : SymbolId → Prop) (e : Expr) : Prop extends e.Placed bound count where
  unset : e.Unset
  ready : ∀ id ∈ e.asks, ready id

/-- A node with a type, at a place within the source and over the symbols of the table. -/
structure Judged (bound : Nat) (t : Table) (e : Expr) : Prop extends e.Placed bound t.symbols.size where
  judged : e.info.type.isSome
  noted : e.Noted t

/-- The slots of a typed node are filled with symbols of the kinds that belong there. -/
def Named (t : Table) : Expr → Prop
  | .classRef _ _ slot => ∃ id, slot = some id ∧ (t.class? id).isSome
  | .this _ slot | .var _ _ slot => ∃ id, slot = some id ∧ (t.var? id).isSome
  | .superField _ _ superclass field =>
    (∃ d, superclass = some d ∧ (t.class? d).isSome) ∧ ∃ id, field = some id ∧ (t.var? id).isSome
  | .assignee _ _ _ slot first => first.isSome ∧ ∃ id, slot = some id ∧ (t.var? id).isSome
  | .isType _ _ _ tested => tested.isSome
  | _ => True

/-- Where a typed node brings values together, their types agree. -/
def Consistent (t : Table) : Expr → Prop
  | .arrayLiteral info values =>
    ∀ ty element, info.type = some ty → ty.type = .array element → ∀ e ∈ values, e.type.Agrees element
  | .call _ _ _ arguments (some target) => ∃ id, (target = .unique id ∨ target = t.targetOf id) ∧ t.Takes id arguments
  | .newObject _ _ arguments (some id) => t.Takes id arguments
  | .binary _ left _ right => left.type.isNumeric → right.type.isNumeric → left.type = right.type
  | _ => True

/-- A typed node without a gap. -/
structure Complete (t : Table) (e : Expr) : Prop where
  judged : e.info.type.isSome
  named : e.Named t
  consistent : e.Consistent t

/-- What a node stands for could be selected in the class `cls`, with or without an object. -/
def Chosen (t : Table) (cls : Option SymbolId) (object : Bool) : Expr → Prop
  | .call _ callee _ arguments (some target) =>
    ∃ id, t.Accepts id arguments.length ∧ callee.Selects t cls object id target
  | .member _ _ _ (some id) => t.FieldWithin cls id
  | .newObject _ type arguments (some id) =>
    t.Accepts id arguments.length ∧ ∃ built, type.OfClass t built ∧ t.Constructs built id
  | _ => True

/-- A node that is bound, and typed if typing comes to it. -/
structure Linked (t : Table) (spot : Spot) (cls : Option SymbolId) (object : Bool) (e : Expr) : Prop where
  uses : e.Uses t spot
  chosen : e.Chosen t cls object

/-- A typed node without a gap that is linked; `frame` is the function around it. -/
structure Finished (t : Table) (spot : Spot) (cls : Option SymbolId) (frame : Option Typing.Frame)
    (e : Expr) : Prop extends e.Complete t where
  uses : e.Uses t spot
  chosen : e.Chosen t cls (Typing.hasObject frame)

variable {bound : Nat} {t : Table} {e e' : Expr} {ty : ValueTy} {spot : Spot} {cls : Option SymbolId}
variable {frame : Option Typing.Frame}

theorem Finished.linked (finished : e.Finished t spot cls frame) : e.Linked t spot cls (Typing.hasObject frame) :=
  ⟨finished.uses, finished.chosen⟩

theorem Noted.justified (noted : e.Noted t) : e.Justified t.classes := by
  cases e with
  | widen => exact noted
  | _ => trivial

theorem Noted.records (noted : e.Noted t) : Records t.Targets e := by
  unfold Records
  split
  · exact noted
  · exact noted
  · trivial

theorem Unset.noted (unset : e.Unset) : e.Noted t := by
  cases e with
  | widen => exact unset.elim
  | call info callee =>
    cases unset
    cases callee <;> trivial
  | _ => trivial

theorem Uses.callee {info info' : NodeInfo} {callee callee' : Callee} {name : Ident} {arguments arguments' : List Expr}
    {target target' : Option CallTarget} (same : callee'.bare = callee.bare)
    (uses : (Expr.call info callee name arguments target).Uses t spot) :
    (Expr.call info' callee' name arguments' target').Uses t spot := by
  cases callee' <;> cases callee <;> first | exact uses | cases same | exact ⟨by simp, by simp⟩

/-- A node that has got a type, and perhaps other slots. -/
theorem Placed.judged (placed : e.Placed bound t.symbols.size) (info : e'.info = { e.info with type := some ty })
    (types : e'.writtenTypes = e.writtenTypes) (slots : ∀ id ∈ e'.slots, id.index < t.symbols.size)
    (below : ty.type.Below t.symbols.size) (noted : e'.Noted t) : e'.Judged bound t := by
  refine ⟨⟨?_, ?_, types ▸ placed.types, slots⟩, ?_, noted⟩
  · rw [Expr.span, info]
    exact placed.within
  · rw [info]
    rintro _ ⟨⟩
    exact below
  · rw [info]
    rfl

theorem All.placed (judged : e.All (Judged bound t)) : e.All (Placed bound t.symbols.size) :=
  judged.mono fun _ judged => judged.toPlaced

theorem Placed.asks {count : Nat} (placed : e.Placed bound count) : ∀ id ∈ e.asks, id.index < count := by
  intro id inside
  refine placed.slots id ?_
  cases e with
  | this | var | assignee => exact inside
  | superField => exact List.mem_append_right _ inside
  | _ => cases inside

theorem All.type (judged : e.All (Judged bound t)) : e.type.Below t.symbols.size := judged.here.toPlaced.type

theorem call_slots {count : Nat} {target : CallTarget} (below : target.Below count) {info : NodeInfo}
    {callee : Callee} {name : Ident}
    {arguments : List Expr} : ∀ id ∈ (Expr.call info callee name arguments (some target)).slots, id.index < count := by
  cases target with
  | unique id => simpa [slots, CallTarget.Below] using below
  | byClass methods =>
    intro id inside
    obtain ⟨entry, member, rfl⟩ := List.mem_map.mp inside
    exact below entry member

/-! ## Conversions -/

/-- The value with conversions around it, or as it is. -/
inductive Coated (value : Expr) : Expr → Prop where
  | same : Coated value value
  | widen {info : NodeInfo} {inner : Expr} : info.type.isSome → Coated value inner → Coated value (.widen info inner)

namespace Coated

variable {value value' value'' : Expr}

theorem trans (first : Coated value value') (second : Coated value' value'') : Coated value value'' := by
  induction second with
  | same => exact first
  | widen typed _ ih => exact .widen typed ih

theorem bare (coated : Coated value value') : value'.bare = value.bare := by
  induction coated with
  | same => rfl
  | widen _ _ ih => exact ih

theorem finished (coated : Coated value value') (finished : value.All (Finished t spot cls frame)) :
    value'.All (Finished t spot cls frame) := by
  induction coated with
  | same => exact finished
  | widen typed _ ih => exact ⟨⟨⟨typed, trivial, trivial⟩, trivial, trivial⟩, ih⟩

theorem allOf_finished {es es' : List Expr} (coated : List.Forall₂ Coated es es')
    (finished : allOf (Finished t spot cls frame) es) :
    allOf (Finished t spot cls frame) es' := by
  induction coated with
  | nil => trivial
  | cons here _ ih => exact ⟨here.finished finished.1, ih finished.2⟩

theorem bareAll {es es' : List Expr} (coated : List.Forall₂ Coated es es') : bareAll es' = Quasicode.bareAll es := by
  induction coated with
  | nil => rfl
  | cons here _ ih => exact congrArg₂ List.cons here.bare ih

end Coated

end Expr

end Quasicode
