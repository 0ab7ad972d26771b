import Quasicode.Hierarchy

/-!
Declaration of classes, their methods and fields, and free functions. All of them are declared before any
body is bound, so that their order in the source does not matter. What cannot be declared is reported and
keeps its empty slots, and nothing later looks at it.
-/
namespace Quasicode.Binding

open Analysis

/-! ## Classes -/

/-- Whether the root scope holds something other than a class name under a name. -/
def isTaken (name : String) : Analysis Bool := do
  match ← lookupRoot name with
  | none => return false
  | some id => return !(← symbol id).kind.isClassName

/-- Declares a class with a scope of its own. -/
def declareClass (c : Class) : Analysis Class := do
  let name := c.name.name
  if !c.templateParams.isEmpty then
    report (.templateNotSupported name) c.name.span
    return c
  else if (← lookupRoot (classKey name)).isSome || (← isTaken name) then
    report (.redeclaration name) c.name.span
    return c
  else
    if (← lookupRoot name).isNone then
      let _ ← declare .root name c.name.span (.className false)
    let scope ← createScope .root
    let id ← declare .root (classKey name) c.name.span
      (.cls { displayName := name, plainName := name, builtin := false, scope })
    return { c with symbol := some id, scope := some scope }

/-! ## Functions and methods -/

/-- The types of the parameters; one without a type takes anything. -/
def paramTypes : List Param → Analysis (List Ty)
  | [] => return []
  | p :: ps => do
    let ty ← match p.typeName with
      | some type => resolveType type
      | none => pure .any
    return ty :: (← paramTypes ps)

/-- The number of parameters before the first one with a default. -/
def requiredParams (params : List Param) : Nat :=
  (params.takeWhile fun p => p.default.isNone).length

/-- The class a method belongs to, and how the method is declared there. -/
structure MethodOwner where
  cls : SymbolId
  className : String
  method : Method

/-- What is declared under the signature of a function. -/
def functionKind (f : Function) (signature : FunctionSymbol) : Option MethodOwner → SymbolKind
  | none => .function signature
  | some owner => .method {
      function := signature
      owner := owner.cls
      isStatic := owner.method.isStatic
      visibility := owner.method.visibility
      isConstructor := f.name.name == owner.className
      nameSpan := f.name.span
      staticSpan := owner.method.staticSpan
      returnSpan := f.returns.map TypeName.span }

/-- Adds a function to the overload set of its name; the id of the set. -/
def addOverload (scope : ScopeId) (name : Ident) (forMethods : Bool) (id : SymbolId) :
    Analysis SymbolId := do
  let set ← update (·.overloadSet scope name.name name.span forMethods)
  match (← symbol set).kind with
  | .overloads _ =>
    modifySymbol set (·.mapOverloads fun s => { s with functions := s.functions ++ [id] })
  | _ => throw .notOverloads
  return set

/-- Whether a scope holds a class name under a name. -/
def isClassNameIn (scope : ScopeId) (name : String) : Analysis Bool := do
  match ← lookupLocal scope name with
  | none => return false
  | some id => return (← symbol id).kind.isClassName

/-- Declares a function in a scope, as a method if it has an owner. -/
def declareFunction (scope : ScopeId) (owner : Option MethodOwner) (f : Function) :
    Analysis Function := do
  let params ← paramTypes f.params
  let returns ← match f.returns with
    | some type => resolveType type
    | none => pure .void
  let name := f.name.name
  let key := functionKey name params
  if (← lookupLocal scope key).isSome then
    report (.redeclaration key) f.name.span
    return f
  else if owner.isNone && (← isClassNameIn scope name) then
    report (.redeclaration name) f.name.span
    return f
  else
    let signature : FunctionSymbol :=
      { returns, params, minArgs := requiredParams f.params, maxArgs := params.length }
    let id ← declare scope key f.name.span (functionKind f signature owner)
    let set ← addOverload scope f.name owner.isSome id
    owner.forM fun owner =>
      modifySymbol owner.cls (·.mapClass fun c => { c with methods := c.methods ++ [id] })
    return { f with symbol := some id, overloads := some set }

/-! ## Members -/

def declareMethod (cls : SymbolId) (className : String) (scope : ScopeId) (m : Method) :
    Analysis Method := do
  return { m with function := ← declareFunction scope (some ⟨cls, className, m⟩) m.function }

def declareField (cls : SymbolId) (scope : ScopeId) (f : Field) : Analysis Field := do
  let ty ← resolveType f.typeName
  if (← lookupLocal scope f.name.name).isSome then
    report (.redeclaration f.name.name) f.name.span
    return f
  else
    let id ← declare scope f.name.name f.name.span (.variable {
      type := some ty
      status := .pending
      kind := if f.isStatic then .staticField else .instanceField
      visibility := f.visibility })
    modifySymbol cls (·.mapClass fun c => { c with fields := c.fields ++ [id] })
    return { f with symbol := some id }

/-- Declares the methods and then the fields of a declared class. -/
def declareMembers (c : Class) : Analysis Class := do
  match c.symbol, c.scope with
  | some id, some scope =>
    let methods ← c.methods.mapM (declareMethod id c.name.name scope)
    let fields ← c.fields.mapM (declareField id scope)
    return { c with methods, fields }
  | _, _ => return c

/-! ## Programs -/

/-- Changes the classes among the items. -/
def mapClasses (f : Class → Analysis Class) : Item → Analysis Item
  | .cls c => return .cls (← f c)
  | item => return item

/-- Changes the functions among the items. -/
def mapFunctions (f : Function → Analysis Function) : Item → Analysis Item
  | .function decl => return .function (← f decl)
  | item => return item

/-- The superclass that the declaration of a class names, if the class is declared by one of the items. -/
def superclassName (items : List Item) (id : SymbolId) : Option TypeName :=
  items.findSome? fun
    | .cls c => if c.symbol == some id then c.superclass else none
    | _ => none

/-- One edge for every class of the table. -/
def classEdges (items : List Item) : List Symbol → Analysis (List Hierarchy.Edge)
  | [] => return []
  | s :: ss => do
    if s.class?.isSome then
      let superclass ← match superclassName items s.id with
        | some type => pure (← resolveType type).classId?
        | none => pure none
      return ⟨s.id, superclass, s.span⟩ :: (← classEdges items ss)
    else
      classEdges items ss

/-- Declares everything but the variables of a program. -/
def declareAll (items : List Item) : Analysis (List Item) := do
  let items ← items.mapM (mapClasses declareClass)
  let items ← items.mapM (mapClasses declareMembers)
  items.mapM (mapFunctions (declareFunction .root none))

/-- Declares everything but the variables of a program, and builds the hierarchy of its classes. -/
def declareItems (items : List Item) : Analysis (List Item) := do
  let items ← declareAll items
  Hierarchy.build (← classEdges items (← table).symbols.toList)
  return items

end Quasicode.Binding
