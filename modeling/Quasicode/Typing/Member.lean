import Quasicode.Typing.Overload

/-! Fields and methods that an expression names, and whether they can be used where it stands. -/
namespace Quasicode.Typing

open Analysis

/-! ## Fields -/

/-- The field of a name that a class or the nearest class above it declares. -/
def findField (cls : SymbolId) (name : String) : Analysis (Option SymbolId) := do
  (← query (·.ancestry cls)).findSomeM? fun (_, c) => do
    match ← lookupLocal c.scope name with
    | none => return none
    | some id => return if (← symbol id).var?.isSome then some id else none

/-- The class with the given member scope among the class that is being typed and those above it. -/
def ownerOfScope (context : Context) (scope : ScopeId) : Analysis (Option SymbolId) := do
  match context.cls with
  | none => return none
  | some cls => return ((← query (·.ancestry cls)).find? fun (_, c) => c.scope = scope).map (·.1)

/-- The field that a member access names; one that cannot be used is reported. -/
def selectField (context : Context) (receiver : Ty) (onClass : Bool) (name : String) (span : Span) :
    Analysis (Option SymbolId) := do
  let found ← match receiver.classId? with
    | none => pure none
    | some cls => findField cls name
  match found with
  | none =>
    report (.noMember receiver.text name) span
    return none
  | some id =>
    let symbol ← symbol id
    match symbol.var? with
    | none => return none
    | some var =>
      if onClass && var.kind = .instanceField then
        report (.instanceMemberOnType name receiver.text) span
        return none
      else if !onClass && var.kind = .staticField then
        report (.staticMemberOnInstance name receiver.text) span
        return none
      else if !isAccessible context var.visibility (← ownerOfScope context symbol.scope) then
        report (.privateMember name) span
        return none
      else
        return some id

/-! ## Methods -/

/-- Keeps the methods with a property. -/
def filterMethods (p : MethodSymbol → Bool) (ids : List SymbolId) : Analysis (List SymbolId) :=
  ids.filterM fun id => do return (← symbol id).method?.any p

/-- The methods of a name that can be seen from a scope, without constructors. -/
def methodsFrom (scope : ScopeId) (name : String) : Analysis (List SymbolId) := do
  filterMethods (fun m => !m.isConstructor) (← overloads scope name)

/-- The free functions of a name. -/
def freeFunctions (name : String) : Analysis (List SymbolId) := do
  (← overloads .root name).filterM fun id => do
    match (← symbol id).kind with
    | .function _ => return true
    | _ => return false

/-- Keeps the methods that can be used here. -/
def accessibleMethods (context : Context) : List SymbolId → Analysis (List SymbolId) :=
  filterMethods fun m => isAccessible context m.visibility (some m.owner)

/-- The candidates of a call without a receiver: methods of the object, then static methods, then free
functions. Failing all of them, the call is reported and has none. -/
def freeCandidates (context : Context) (name : String) (span : Span) : Analysis (List SymbolId) := do
  let methods ← accessibleMethods context (← methodsFrom context.scope name)
  let instances ← filterMethods (fun m => !m.isStatic) methods
  let statics ← filterMethods (·.isStatic) methods
  let hasObject := context.frame.any fun frame => frame.isMethod && !frame.isStatic
  if hasObject && !instances.isEmpty then
    return instances
  else if !statics.isEmpty then
    return statics
  else
    let functions ← freeFunctions name
    if !functions.isEmpty then
      return functions
    else
      if !instances.isEmpty then
        report (.instanceMemberInStaticContext name) span
      else
        report (.unknownIdentifier name) span
      return []

/-- The candidates of a call on a receiver; if there is none, it is reported. -/
def memberCandidates (context : Context) (receiver : Ty) (onClass : Bool) (name : String)
    (span : Span) : Analysis (List SymbolId) := do
  let scope ← match receiver.classId? with
    | none => pure none
    | some cls => classScope cls
  let methods ← match scope with
    | none => pure []
    | some scope => methodsFrom scope name
  let kept ← filterMethods (fun m => m.isStatic = onClass) methods
  let usable ← accessibleMethods context kept
  if methods.isEmpty then
    report (.noMember receiver.text name) span
  else if kept.isEmpty then
    report (if onClass then .instanceMemberOnType name receiver.text
      else .staticMemberOnInstance name receiver.text) span
  else if usable.isEmpty then
    report (.privateMember name) span
  return usable

/-- The candidates of a call on the superclass; if there is a superclass without any, it is reported. -/
def superCandidates (context : Context) (name : String) (span : Span) : Analysis (List SymbolId) := do
  match ← superclass context with
  | none => return []
  | some superclass =>
    match ← classScope superclass with
    | none => return []
    | some scope =>
      let methods ← methodsFrom scope name
      if methods.isEmpty then
        report (.noSuperMember (← classType superclass).text name) span
      return methods

end Quasicode.Typing
