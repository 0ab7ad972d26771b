import Quasicode.Binding.Declaration
import Quasicode.Binding.Global

/-! Binding of functions, classes and whole programs. -/
namespace Quasicode.Binding

open Analysis

/-- Binds the parameters of a function, each with its type. A default can use the parameters before it. -/
def bindParams (context : Context) : List Param → List Ty → Analysis (List Param)
  | p :: ps, ty :: tys => do
    if (← lookupLocal context.scope p.name.name).isSome then
      report (.redeclaration p.name.name) p.name.span
      return p :: (← bindParams context ps tys)
    else
      let id ← declare context.scope p.name.name p.name.span
        (.variable { type := some ty, status := .declaring, kind := .localVar })
      let default ← p.default.mapM (bindExpr context)
      setStatus id .ready
      return { p with symbol := some id, default } :: (← bindParams context ps tys)
  | ps, _ => return ps

/-- The call of the constructor of the superclass that opens a body. -/
def openingCall : List Stmt → Option Span
  | .eval (.call info .superConstructor _ _ _) :: _ => some info.span
  | _ => none

/-- Binds a declared function in a new scope under `parent`. -/
def bindFunction (parent : ScopeId) (body : BodyKind) (cls : Option ClassContext) (f : Function) :
    Analysis Function := do
  match f.symbol with
  | none => return f
  | some id =>
    let types := ((← symbol id).function?.map (·.params)).getD []
    let scope ← createScope parent
    let context : Context := { scope, body, cls }
    let params ← bindParams context f.params types
    let opening := if body = .constructor then openingCall f.body else none
    let stmts ← bindStmts { context with openingCall := opening } f.body
    return { f with params, body := stmts, scope := some scope }

def methodBody (className : String) (m : Method) : BodyKind :=
  if m.function.name.name = className then .constructor
  else if m.isStatic then .staticMethod
  else .instanceMethod

def bindMethod (c : Class) (scope : ScopeId) (cls : ClassContext) (m : Method) : Analysis Method := do
  let body := methodBody c.name.name m
  if body = .constructor then
    m.staticSpan.forM (report .staticConstructor)
  return { m with function := ← bindFunction scope body (some cls) m.function }

/-- Makes the fields and methods of a class available. -/
def openMembers (cls : SymbolId) : Analysis Unit := do
  match (← symbol cls).class? with
  | none => return
  | some c =>
    c.fields.forM fun id => setStatus id .ready
    c.methods.forM fun id => modifySymbol id (·.mapMethod fun m => { m with ready := true })

/-- Declares the symbol that stands for the object or for the class itself within a class. -/
def declareThis (c : Class) (id : SymbolId) (scope : ScopeId) (key : String) (kind : VariableKind) :
    Analysis SymbolId :=
  declare scope key c.name.span
    (.variable { type := some (.ofClass c.name.name id), status := .ready, kind })

/-- Binds a declared class: the initializers of its fields first, and then its methods. -/
def bindClass (c : Class) : Analysis Class := do
  match c.symbol, c.scope with
  | some id, some scope =>
    let superclass := (← symbol id).class?.bind (·.upper)
    let cls : ClassContext := { id, superclass }
    let instanceThis ← declareThis c id scope instanceThisKey .instanceField
    let staticThis ← declareThis c id scope staticThisKey .staticField
    let fields ← c.fields.mapM fun f => do
      return { f with initializer := ← f.initializer.mapM (bindExpr { scope, cls := some cls }) }
    openMembers id
    let methods ← c.methods.mapM (bindMethod c scope cls)
    return { c with fields, methods, instanceThis := some instanceThis, staticThis := some staticThis }
  | _, _ => return c

/-- Binds an item; the assignments that define globals are bound already. -/
def bindItem : Item → Analysis Item
  | .cls c => return .cls (← bindClass c)
  | .function f => return .function (← bindFunction .root .function none f)
  | item@(.stmt (.assign _)) | item@(.stmt (.assignAll _ _)) =>
    item.mapAssignments fun _ a =>
      if a.declares.isEmpty then bindAssignment .top a else return a
  | .stmt s => return .stmt (← bindStmt .top s)

/-- Binds a program; the globals it declares in the order of their initialization. -/
def bind (program : Program) : Analysis (Program × List SymbolId) := do
  let items ← declareItems program.items
  let items ← declareGlobals items
  let items ← bindDefinitions items
  let order ← orderGlobals (← references (items.flatMap Item.assignments))
  let items ← items.mapM bindItem
  return (⟨items⟩, order)

end Quasicode.Binding
