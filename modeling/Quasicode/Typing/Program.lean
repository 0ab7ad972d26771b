import Quasicode.Binding.Global
import Quasicode.Typing.Stmt

/-!
Typing of functions, classes and whole programs. The assignments that define globals are typed first, in
the order of initialization, so that every other use of a global finds its type.
-/
namespace Quasicode

/-- The assignment at a site. -/
def Program.assignmentAt? (program : Program) (site : GlobalSite) : Option Assignment := do
  (← program.items[site.item]?).assignments[site.part]?

/-- Replaces one of the assignments of an item. -/
def Item.setAssignment (part : Nat) (a : Assignment) : Item → Item
  | stmt (.assign old) => if part = 0 then stmt (.assign a) else stmt (.assign old)
  | stmt (.assignAll parts span) => stmt (.assignAll (parts.set part a) span)
  | item => item

/-- Replaces the assignment at a site. -/
def Program.setAssignment (program : Program) (site : GlobalSite) (a : Assignment) : Program :=
  ⟨program.items.modify site.item (Item.setAssignment site.part a)⟩

namespace Typing

open Analysis

/-! ## Functions and classes -/

/-- Types an initial value and widens it to the type of what it initializes. -/
def typeInitial (context : Context) (slot : Option SymbolId) (initial : Option Expr) :
    Analysis (Option Expr) := do
  match slot, initial with
  | some id, some value =>
    let value ← typeExpr context value
    return some (← widenTo (← variableType id) value)
  | _, _ => return initial

def typeParam (context : Context) (p : Param) : Analysis Param := do
  return { p with default := ← typeInitial context p.symbol p.default }

def typeField (context : Context) (f : Field) : Analysis Field := do
  return { f with initializer := ← typeInitial context f.symbol f.initializer }

/-- What the body of a function needs to know about it. -/
def frameOf : SymbolKind → Option Frame
  | .method m => some {
      returns := m.function.returns
      isMethod := true
      isStatic := m.isStatic
      isConstructor := m.isConstructor }
  | .function f => some {
      returns := f.returns
      isMethod := false
      isStatic := false
      isConstructor := false }
  | _ => none

def typeFunction (cls : Option SymbolId) (f : Function) : Analysis Function := do
  match f.symbol, f.scope with
  | some id, some scope =>
    match frameOf (← symbol id).kind with
    | none => return f
    | some frame =>
      let context : Context := { scope, cls, frame := some frame }
      let params ← f.params.mapM (typeParam context)
      let body ← typeStmts context f.body
      return { f with params, body }
  | _, _ => return f

def typeMethod (cls : SymbolId) (m : Method) : Analysis Method := do
  return { m with function := ← typeFunction (some cls) m.function }

def typeClass (c : Class) : Analysis Class := do
  match c.symbol, c.scope with
  | some id, some scope =>
    let fields ← c.fields.mapM (typeField { scope, cls := some id })
    let methods ← c.methods.mapM (typeMethod id)
    return { c with fields, methods }
  | _, _ => return c

/-! ## Programs -/

/-- Types the assignments that define globals, each of them once; `done` holds the sites that are typed. -/
def typeGlobals : List SymbolId → List GlobalSite → Program → Analysis (List GlobalSite × Program)
  | [], done, program => return (done, program)
  | id :: ids, done, program => do
    match (← symbol id).kind with
    | .globalVariable _ site =>
      if done.contains site then
        typeGlobals ids done program
      else
        match program.assignmentAt? site with
        | none => throw .missingSite
        | some a =>
          let a ← typeAssignment .top a
          typeGlobals ids (done ++ [site]) (program.setAssignment site a)
    | _ => typeGlobals ids done program

/-- Types an item, leaving out the assignments that are typed already. -/
def typeItem (done : List GlobalSite) (index : Nat) : Item → Analysis Item
  | .cls c => return .cls (← typeClass c)
  | .function f => return .function (← typeFunction none f)
  | item@(.stmt (.assign _)) | item@(.stmt (.assignAll _ _)) =>
    item.mapAssignments fun part a =>
      if done.contains ⟨index, part⟩ then return a else typeAssignment .top a
  | .stmt s => return .stmt (← typeStmt .top s)

/-- Types a bound program whose globals are initialized in the given order. -/
def typeProgram (program : Program) (order : List SymbolId) : Analysis Program := do
  let (done, program) ← typeGlobals order [] program
  let items ← program.items.zipIdx.mapM fun (item, i) => typeItem done i item
  return ⟨items⟩

end Typing

end Quasicode
