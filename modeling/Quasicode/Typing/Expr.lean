import Quasicode.Typing.Member
import Quasicode.Typing.Operator

/-!
Typing of expressions: every node gets a type, every call a target, and every value that is converted a
`widen` node around it. An operand whose type is an error causes no further diagnostic.
-/
namespace Quasicode.Typing

open Analysis

def literalType : Literal → Analysis Ty
  | .int _ => return .int
  | .double _ => return .double
  | .bool _ => return .boolean
  | .string _ => stringType

/-- The type of what a slot names; an error if the slot is empty. -/
def slotType (slot : Option SymbolId) (assignable : Bool) : Analysis ValueTy := do
  match slot with
  | some id => return { type := ← variableType id, assignable }
  | none => return { type := .error }

/-- Reports a value that is not an integer. -/
def checkInt (cause : Cause) (value : Expr) : Analysis Unit := do
  if !value.type.isError && !(value.type == .int) then
    report cause value.span

/-- Types a call with typed arguments whose candidates are known. Without candidates its type is an error,
which has been reported. -/
def typeSelected (info : NodeInfo) (callee : Callee) (name : Ident) (arguments : List Expr)
    (target : Option CallTarget) (candidates : List SymbolId) (dispatch : Bool) : Analysis Expr := do
  let failed (arguments : List Expr) : Expr :=
    (Expr.call info callee name arguments target).typed { type := .error }
  if candidates.isEmpty then
    return failed arguments
  else
    match ← selectOverload candidates arguments info.span with
    | (none, arguments) => return failed arguments
    | (some id, arguments) =>
      let returns := ((← symbol id).function?.map (·.returns)).getD .error
      let target ← callTarget id dispatch
      return (Expr.call info callee name arguments (some target)).typed { type := returns }

/-- Types a call of the constructor of the superclass with typed arguments. -/
def typeSuperConstructor (context : Context) (info : NodeInfo) (name : Ident) (arguments : List Expr)
    (target : Option CallTarget) : Analysis Expr := do
  match ← superclass context with
  | none => return (Expr.call info .superConstructor name arguments target).typed { type := .void }
  | some superclass =>
    let (selected, arguments) ← selectConstructor superclass arguments info.span
    let target := (selected.map CallTarget.unique).or target
    return (Expr.call info .superConstructor name arguments target).typed { type := .void }

/-- Types a call with a typed receiver and typed arguments. -/
def typeCall (context : Context) (info : NodeInfo) (callee : Callee) (name : Ident)
    (arguments : List Expr) (target : Option CallTarget) : Analysis Expr := do
  match callee with
  | .free =>
    let candidates ← freeCandidates context name.name info.span
    typeSelected info .free name arguments target candidates true
  | .object receiver =>
    if receiver.type.isError then
      typeSelected info (.object receiver) name arguments target [] true
    else
      let candidates ←
        memberCandidates context receiver.type receiver.isClassRef name.name info.span
      typeSelected info (.object receiver) name arguments target candidates true
  | .super =>
    let candidates ← superCandidates context name.name info.span
    typeSelected info .super name arguments target candidates false
  | .superConstructor => typeSuperConstructor context info name arguments target

/-- Types a member access with a typed object. -/
def typeMember (context : Context) (info : NodeInfo) (object : Expr) (property : Ident)
    (slot : Option SymbolId) : Analysis Expr := do
  if object.type.isError then
    return (Expr.member info object property slot).typed { type := .error }
  else
    match ← selectField context object.type object.isClassRef property.name info.span with
    | none => return (Expr.member info object property slot).typed { type := .error }
    | some id =>
      let ty ← slotType (some id) true
      return (Expr.member info object property (some id)).typed ty

/-- Types the creation of an object with typed arguments. -/
def typeNewObject (info : NodeInfo) (type : TypeName) (arguments : List Expr)
    (target : Option SymbolId) (ty : Ty) : Analysis Expr := do
  match ty.classId? with
  | none => return (Expr.newObject info type arguments target).typed { type := .error }
  | some cls =>
    let (selected, arguments) ← selectConstructor cls arguments info.span
    return (Expr.newObject info type arguments (selected.or target)).typed { type := ty }

/-- Types a cast of a typed value. -/
def typeCast (info : NodeInfo) (target : TypeName) (value : Expr) : Analysis Expr := do
  let ty ← writtenType target
  if !value.type.isError && !ty.isError then
    if !(← isCastable value.type ty) then
      report (.cannotCast value.type.text ty.text) info.span
  return (Expr.cast info target value).typed { type := ty }

mutual

/-- Types an expression. -/
def typeExpr (context : Context) : Expr → Analysis Expr
  | .group info inner => do
    let inner ← typeExpr context inner
    return (Expr.group info inner).typed { type := inner.type }
  | .widen info inner => do
    let inner ← typeExpr context inner
    return (Expr.widen info inner).typed inner.valueTy
  | .literal info value => do
    return (Expr.literal info value).typed { type := ← literalType value }
  | .arrayLiteral info values => do
    typeArrayLiteral info (← typeExprs context values)
  | .classRef info type slot => do
    let ty ← match slot with
      | some id => classType id
      | none => pure .error
    return (Expr.classRef info type slot).typed { type := ty }
  | .this info slot => do
    return (Expr.this info slot).typed (← slotType slot false)
  | .superField info property superclass field => do
    return (Expr.superField info property superclass field).typed (← slotType field true)
  | .var info name slot => do
    return (Expr.var info name slot).typed (← slotType slot true)
  | .assignee info name typeName slot first => do
    return (Expr.assignee info name typeName slot first).typed (← slotType slot true)
  | .subscript info array index => do
    let array ← typeExpr context array
    let index ← typeExpr context index
    checkInt .subscriptNotInt index
    return (Expr.subscript info array index).typed (← subscriptType array.type array.span)
  | .call info callee name arguments target => do
    let arguments ← typeExprs context arguments
    let callee ← typeCallee context callee
    typeCall context info callee name arguments target
  | .member info object property field => do
    typeMember context info (← typeExpr context object) property field
  | .unary info op operand => do
    let operand ← typeExpr context operand
    let ty ← unaryType op operand.type info.span
    return (Expr.unary info op operand).typed { type := ty }
  | .cast info target value => do
    typeCast info target (← typeExpr context value)
  | .newArray info type capacities => do
    let capacities ← typeCapacities context capacities
    return (Expr.newArray info type capacities).typed { type := ← writtenType type }
  | .newObject info type arguments target => do
    let ty ← writtenType type
    typeNewObject info type (← typeExprs context arguments) target ty
  | .binary info left op right => do
    let left ← typeExpr context left
    let right ← typeExpr context right
    typeBinary info left op right
  | .logical info left op right => do
    let left ← typeExpr context left
    let right ← typeExpr context right
    checkLogical op left.type right.type info.span
    return (Expr.logical info left op right).typed { type := .boolean }
  | .isType info value type _ => do
    let value ← typeExpr context value
    return (Expr.isType info value type (some (← writtenType type))).typed { type := .boolean }
termination_by structural e => e

def typeExprs (context : Context) : List Expr → Analysis (List Expr)
  | [] => return []
  | e :: es => do
    let e ← typeExpr context e
    return e :: (← typeExprs context es)
termination_by structural es => es

/-- Types the capacities of a new array, each of which is an integer. -/
def typeCapacities (context : Context) : List Expr → Analysis (List Expr)
  | [] => return []
  | e :: es => do
    let e ← typeExpr context e
    checkInt .capacityNotInt e
    return e :: (← typeCapacities context es)
termination_by structural es => es

/-- Types the receiver of a call. -/
def typeCallee (context : Context) : Callee → Analysis Callee
  | .object receiver => return .object (← typeExpr context receiver)
  | .free => return .free
  | .super => return .super
  | .superConstructor => return .superConstructor
termination_by structural callee => callee

end

end Quasicode.Typing
