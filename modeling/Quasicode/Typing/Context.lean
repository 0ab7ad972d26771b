import Quasicode.Analysis.Basic
import Quasicode.Symbol.Builtin

/-! Where typing stands, and what it asks of the table. -/
namespace Quasicode.Typing

open Analysis

/-- The function whose body is being typed. -/
structure Frame where
  returns : Ty
  isMethod : Bool
  isStatic : Bool
  isConstructor : Bool

structure Context where
  scope : ScopeId
  cls : Option SymbolId := none
  frame : Option Frame := none

/-- The context outside every function and class. -/
def Context.top : Context := { scope := .root }

/-- The type of a variable; an error as long as it has none. -/
def variableType (id : SymbolId) : Analysis Ty := do
  return ((← symbol id).var?.bind (·.type)).getD .error

def setVariableType (id : SymbolId) (type : Ty) : Analysis Unit :=
  modifySymbol id (·.mapVariable fun var => { var with type := some type })

/-- The type that a written type stands for. Binding has reported those that stand for none. -/
def writtenType (type : TypeName) : Analysis Ty := do
  match type.resolve (← table).classes with
  | .ok ty => return ty
  | .error (.unknownClass _ _) => return .error
  | .error .templateParameter => throw .templateParameter

/-- The type of the objects of a class. -/
def classType (id : SymbolId) : Analysis Ty := do
  match (← symbol id).class? with
  | some c => return .ofClass c.displayName id
  | none => return .error

def stringType : Analysis Ty := do
  match (← table).classBySignature (classKey Builtin.stringName) with
  | some id => return .ofClass Builtin.stringName id
  | none => return .any

def isString (ty : Ty) : Analysis Bool := do
  return ty.classId?.isSome && ty == (← stringType)

/-- The scope of the members of a class. -/
def classScope (id : SymbolId) : Analysis (Option ScopeId) := do
  return (← symbol id).class?.map (·.scope)

/-- The superclass of the class that is being typed. -/
def superclass (context : Context) : Analysis (Option SymbolId) := do
  match context.cls with
  | none => return none
  | some id => return (← symbol id).class?.bind (·.upper)

/-- Whether a member can be used here: hidden members only within the class that declares them. -/
def isAccessible (context : Context) (visibility : Visibility) (owner : Option SymbolId) : Bool :=
  visibility = .exposed || (owner.isSome && owner = context.cls)

/-- Gives a value a type that it widens to; any other type is reported and the value left as it is. -/
def widenTo (target : Ty) (value : Expr) : Analysis Expr := do
  let ty := value.type
  if ty.isError || target.isError || ty == target then
    return value
  else if (← join ty target) == target then
    return .widen { span := value.span, type := some { type := target } } value
  else
    report (.cannotCast ty.text target.text) value.span
    return value

end Quasicode.Typing
