import Quasicode.Syntax.Program

/-!
Symbols: what a name can stand for. Variables and class names are kept under their own names, classes and
functions under signatures that spell out their types, and the functions that share a name under a key that
no other symbol has.
-/
namespace Quasicode

/-- How far the initialization of a variable has come. -/
inductive Status where
  | unset
  /-- A parameter whose default is being read. -/
  | declaring
  /-- A global that is being put in the order of initialization. -/
  | ordering
  /-- A field of a class that is still being set up. -/
  | pending
  | ready
deriving DecidableEq, Repr

inductive VariableKind where
  | globalVar
  | localVar
  | instanceField
  | staticField
deriving DecidableEq, Repr

structure VariableSymbol where
  /-- Known from the start for what is declared with a type, and later for the rest. -/
  type : Option Ty := none
  status : Status
  kind : VariableKind
  visibility : Visibility := .exposed
deriving Repr

/-- The place of an assignment at the top level: the index of its item, and its index among the assignments
of that item. -/
structure GlobalSite where
  item : Nat
  part : Nat
deriving DecidableEq, Repr

structure FunctionSymbol where
  returns : Ty
  params : List Ty
  /-- The number of parameters before the first one with a default. -/
  minArgs : Nat
  maxArgs : Nat
deriving Repr

/-- Whether a function takes the given number of arguments. -/
def FunctionSymbol.accepts (f : FunctionSymbol) (count : Nat) : Bool :=
  f.minArgs ≤ count && count ≤ f.maxArgs

structure MethodSymbol where
  function : FunctionSymbol
  owner : SymbolId
  isStatic : Bool
  visibility : Visibility
  isConstructor : Bool
  /-- The methods of classes below that override this one. -/
  overriders : List SymbolId := []
  /-- False while the fields of the class are set up, when its methods cannot be called. -/
  ready : Bool := false
  nameSpan : Span := .none
  staticSpan : Option Span := none
  returnSpan : Option Span := none
deriving Repr

/-- The functions that share a name in one scope. -/
structure OverloadSet where
  forMethods : Bool
  functions : List SymbolId
deriving Repr

structure ClassSymbol where
  displayName : String
  plainName : String
  builtin : Bool
  scope : ScopeId
  upper : Option SymbolId := none
  /-- The classes directly below this one. -/
  children : List SymbolId := []
  /-- One for a class without a superclass; unknown until the hierarchy is built. -/
  depth : Option Nat := none
  /-- The place among the classes, from one on. -/
  runtimeId : Nat := 0
  methods : List SymbolId := []
  fields : List SymbolId := []
deriving Repr

inductive SymbolKind where
  | variable (var : VariableSymbol)
  | globalVariable (var : VariableSymbol) (site : GlobalSite)
  | function (f : FunctionSymbol)
  | method (m : MethodSymbol)
  | overloads (set : OverloadSet)
  | cls (c : ClassSymbol)
  | className (builtin : Bool)
deriving Repr

structure Symbol where
  id : SymbolId
  /-- The key under which the scope holds the symbol. -/
  name : String
  span : Span
  scope : ScopeId
  kind : SymbolKind
deriving Repr

namespace SymbolKind

def var? : SymbolKind → Option VariableSymbol
  | .variable var | globalVariable var _ => some var
  | _ => none

def function? : SymbolKind → Option FunctionSymbol
  | function f => some f
  | method m => some m.function
  | _ => none

def method? : SymbolKind → Option MethodSymbol
  | method m => some m
  | _ => none

def class? : SymbolKind → Option ClassSymbol
  | cls c => some c
  | _ => none

def isGlobal : SymbolKind → Bool
  | globalVariable _ _ => true
  | _ => false

def isClassName : SymbolKind → Bool
  | className _ => true
  | _ => false

/-- Changes a variable and leaves every other kind as it is. -/
def mapVariable (f : VariableSymbol → VariableSymbol) : SymbolKind → SymbolKind
  | .variable var => .variable (f var)
  | globalVariable var site => globalVariable (f var) site
  | other => other

def mapMethod (f : MethodSymbol → MethodSymbol) : SymbolKind → SymbolKind
  | method m => method (f m)
  | other => other

def mapClass (f : ClassSymbol → ClassSymbol) : SymbolKind → SymbolKind
  | cls c => cls (f c)
  | other => other

def mapOverloads (f : OverloadSet → OverloadSet) : SymbolKind → SymbolKind
  | overloads set => overloads (f set)
  | other => other

end SymbolKind

namespace Symbol

def var? (s : Symbol) : Option VariableSymbol := s.kind.var?

def function? (s : Symbol) : Option FunctionSymbol := s.kind.function?

def method? (s : Symbol) : Option MethodSymbol := s.kind.method?

def class? (s : Symbol) : Option ClassSymbol := s.kind.class?

def isGlobal (s : Symbol) : Bool := s.kind.isGlobal

end Symbol

/-! ## Keys -/

/-- The key of the overload set of a name. -/
def overloadKey (name : String) : String := "#FuncName#" ++ name

/-- The key of the object whose method runs. -/
def instanceThisKey : String := "$Instance$this"

/-- The key of the class whose static method runs. -/
def staticThisKey : String := "$Static$this"

/-- The key of a function with the given parameter types. -/
def functionKey (name : String) (params : List Ty) : String :=
  name ++ "(" ++ ", ".intercalate (params.map Ty.text) ++ ")"

/-- The key of a class without template arguments. -/
def classKey (name : String) : String := TypeName.signature name []

end Quasicode
