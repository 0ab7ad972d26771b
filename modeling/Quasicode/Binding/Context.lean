import Quasicode.Analysis.Basic

/-! Where binding stands: the scope of names, and what surrounds a statement or an expression. -/
namespace Quasicode.Binding

open Analysis

/-- The kind of body that is being bound. Field initializers count as the top level. -/
inductive BodyKind where
  | topLevel
  | function
  | constructor
  | staticMethod
  | instanceMethod
deriving DecidableEq, Repr

/-- The class whose declaration is being bound. -/
structure ClassContext where
  id : SymbolId
  superclass : Option SymbolId

structure Context where
  scope : ScopeId
  inLoop : Bool := false
  body : BodyKind := .topLevel
  cls : Option ClassContext := none
  /-- The call of the constructor of the superclass that opens the body, if there is one. -/
  openingCall : Option Span := none

/-- The context outside every function and class. -/
def Context.top : Context := { scope := .root }

/-- The superclass that `super` stands for; misplaced uses are reported. -/
def checkSuper (context : Context) (span : Span) : Analysis (Option SymbolId) := do
  match context.cls with
  | none =>
    report .superOutsideClass span
    return none
  | some cls =>
    match cls.superclass with
    | none =>
      report .superInRootClass span
      return none
    | some superclass =>
      if context.body = .topLevel then
        report .superOutsideMethod span
        return none
      else
        return some superclass

/-- Reports a call of the constructor of the superclass that does not open a constructor. -/
def checkSuperConstructor (context : Context) (span : Span) : Analysis Unit := do
  match context.cls with
  | none => report .superOutsideClass span
  | some cls =>
    if context.body ≠ .constructor then
      report .superCallOutsideConstructor span
    else if cls.superclass.isNone then
      report .superInRootClass span
    else if context.openingCall ≠ some span then
      report .superCallNotFirst span

/-- Whether a symbol is a method of `cls` that cannot be called yet. -/
def isPendingMethod (cls : SymbolId) (id : SymbolId) : Analysis Bool := do
  return (← symbol id).method?.any fun m => m.owner = cls && !m.ready

/-- Reports a call of a method of the class from one of its field initializers. -/
def checkMethodReady (context : Context) (name : Ident) : Analysis Unit := do
  match context.cls with
  | none => return
  | some cls =>
    if ← (← overloads context.scope name.name).anyM (isPendingMethod cls.id) then
      report (.methodBeforeClassReady name.name) name.span

/-- Reports the use of an instance field in a static method. -/
def checkInstanceUse (context : Context) (var : VariableSymbol) (span : Span) : Analysis Unit := do
  if var.kind = .instanceField && context.body = .staticMethod then
    report .instanceVariableFromStatic span

end Quasicode.Binding
