import Quasicode.Binding.Context

/-!
Binding of expressions: every name gets its symbol, every type name is looked up, and words that stand in
the wrong place are reported. What cannot be bound keeps its empty slot.
-/
namespace Quasicode.Binding

open Analysis

/-- Binds a variable that is read. -/
def bindVar (context : Context) (info : NodeInfo) (name : Ident) (slot : Option SymbolId) :
    Analysis Expr := do
  match ← lookupChain context.scope name.name with
  | none =>
    report (.unknownIdentifier name.name) info.span
    return .var info name slot
  | some id =>
    match (← symbol id).var? with
    | none =>
      report (.unknownIdentifier name.name) info.span
      return .var info name slot
    | some var =>
      checkInstanceUse context var info.span
      match var.status with
      | .declaring => report .useInOwnDeclaration info.span
      | .pending => report .useBeforeClassReady info.span
      | .ordering => report .circularReference info.span
      | .unset | .ready => pure ()
      return .var info name (some id)

/-- Binds a variable that is assigned; an unknown one is declared in the current scope. -/
def bindAssignee (context : Context) (info : NodeInfo) (name : Ident) (typeName : Option TypeName) :
    Analysis Expr := do
  match ← lookupChain context.scope name.name with
  | some id =>
    match (← symbol id).var? with
    | some var =>
      if typeName.isSome then
        report .retypeVariable info.span
      checkInstanceUse context var info.span
      return .assignee info name typeName (some id) (some false)
    | none =>
      report (.assignToClass name.name) info.span
      return .assignee info name typeName none none
  | none =>
    if (← lookupChain context.scope (overloadKey name.name)).isSome then
      report (.assignToFunction name.name) info.span
      return .assignee info name typeName none none
    else
      let id ← declare context.scope name.name name.span
        (.variable { status := .ready, kind := .localVar })
      return .assignee info name typeName (some id) (some true)

/-- The field of a name that a class has or inherits. -/
def fieldOf (cls : SymbolId) (name : String) : Analysis (Option (SymbolId × VariableSymbol)) := do
  match (← symbol cls).class? with
  | none => return none
  | some c =>
    match ← lookupChain c.scope name with
    | none => return none
    | some id =>
      match (← symbol id).var? with
      | none => return none
      | some var =>
        if var.kind = .instanceField || var.kind = .staticField then return some (id, var)
        else return none

/-- Binds a field of the superclass. -/
def bindSuperField (context : Context) (info : NodeInfo) (property : Ident)
    (superclass field : Option SymbolId) : Analysis Expr := do
  match ← checkSuper context info.span with
  | none => return .superField info property superclass field
  | some superId =>
    match ← fieldOf superId property.name with
    | some (id, var) =>
      checkInstanceUse context var info.span
      return .superField info property (some superId) (some id)
    | none =>
      let name := ((← symbol superId).class?.map (·.displayName)).getD ""
      report (.noSuperMember name property.name) info.span
      return .superField info property (some superId) field

/-- Binds the object whose method runs. -/
def bindThis (context : Context) (info : NodeInfo) (slot : Option SymbolId) : Analysis Expr := do
  match context.body with
  | .constructor | .instanceMethod =>
    match ← lookupChain context.scope instanceThisKey with
    | some id => return .this info (some id)
    | none => return .this info slot
  | .staticMethod =>
    report (.instanceMemberInStaticContext "this") info.span
    return .this info slot
  | .topLevel | .function =>
    report .thisOutsideMethod info.span
    return .this info slot

/-- Whether a receiver names the class whose declaration is being bound. -/
def isOwnClass (context : Context) : Expr → Bool
  | .classRef _ _ id => id == context.cls.map (·.id)
  | _ => false

mutual

/-- Binds all names of an expression, in the order in which it is evaluated. -/
def bindExpr (context : Context) : Expr → Analysis Expr
  | .literal info value => return .literal info value
  | .group info inner => return .group info (← bindExpr context inner)
  | .widen info inner => return .widen info (← bindExpr context inner)
  | .arrayLiteral info values => return .arrayLiteral info (← bindExprs context values)
  | .classRef info type classId => do
    match (← resolveType type).classId? with
    | some id => return .classRef info type (some id)
    | none => return .classRef info type classId
  | .this info slot => bindThis context info slot
  | .superField info property superclass field =>
    bindSuperField context info property superclass field
  | .var info name slot => bindVar context info name slot
  | .subscript info array index => do
    let array ← bindExpr context array
    return .subscript info array (← bindExpr context index)
  | .call info callee name arguments target => do
    let callee ← bindCallee context info.span name callee
    return .call info callee name (← bindExprs context arguments) target
  | .member info object property field =>
    return .member info (← bindExpr context object) property field
  | .unary info op operand => return .unary info op (← bindExpr context operand)
  | .cast info target value => do
    let _ ← resolveType target
    return .cast info target (← bindExpr context value)
  | .newArray info type capacities => do
    let _ ← resolveType type
    return .newArray info type (← bindExprs context capacities)
  | .newObject info type arguments target => do
    let _ ← resolveType type
    return .newObject info type (← bindExprs context arguments) target
  | .binary info left op right => do
    let left ← bindExpr context left
    return .binary info left op (← bindExpr context right)
  | .logical info left op right => do
    let left ← bindExpr context left
    return .logical info left op (← bindExpr context right)
  | .assignee info name typeName slot first => do
    typeName.forM fun type => do
      let _ ← resolveType type
    if slot.isSome then return .assignee info name typeName slot first
    else bindAssignee context info name typeName
  | .isType info value type tested => do
    let value ← bindExpr context value
    let _ ← resolveType type
    return .isType info value type tested
termination_by structural e => e

def bindExprs (context : Context) : List Expr → Analysis (List Expr)
  | [] => return []
  | e :: es => do
    let e ← bindExpr context e
    return e :: (← bindExprs context es)
termination_by structural es => es

/-- Binds what stands before the name in a call, and checks that a call may stand where it does. -/
def bindCallee (context : Context) (span : Span) (name : Ident) : Callee → Analysis Callee
  | .free => do
    checkMethodReady context name
    return .free
  | .object receiver => do
    let receiver ← bindExpr context receiver
    if isOwnClass context receiver then
      checkMethodReady context name
    return .object receiver
  | .super => do
    let _ ← checkSuper context span
    return .super
  | .superConstructor => do
    checkSuperConstructor context span
    return .superConstructor
termination_by structural callee => callee

end

end Quasicode.Binding
