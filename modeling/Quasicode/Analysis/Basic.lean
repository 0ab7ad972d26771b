import Quasicode.Symbol.Table

/-!
An analysis works on the table and collects diagnostics. It goes on after every diagnostic; only a fault ends
it.
-/
namespace Quasicode

/-- What an analysis has come to. -/
structure AnalysisState where
  table : Table
  problems : List Diagnostic := []

/-- A step of an analysis. -/
abbrev Analysis (α : Type) := StateT AnalysisState (Except Fault) α

namespace Analysis

def report (cause : Cause) (span : Span) : Analysis Unit :=
  modify fun s => { s with problems := s.problems ++ [⟨cause, span⟩] }

def table : Analysis Table := do return (← get).table

/-- Asks something of the table. -/
def query {α : Type} (f : Table → Except Fault α) : Analysis α := do f (← get).table

/-- Changes the table and answers with what the change yields. -/
def update {α : Type} (f : Table → Except Fault (α × Table)) : Analysis α := do
  let (a, table) ← f (← get).table
  modify fun s => { s with table }
  return a

def symbol (id : SymbolId) : Analysis Symbol := query (·.get id)

/-- Changes the kind of a symbol. -/
def modifySymbol (id : SymbolId) (f : SymbolKind → SymbolKind) : Analysis Unit :=
  update fun t => do return ((), ← t.modify id f)

def createScope (parent : ScopeId) : Analysis ScopeId :=
  update fun t => return t.createScope parent

def declare (scope : ScopeId) (name : String) (span : Span) (kind : SymbolKind) : Analysis SymbolId :=
  update (·.declare scope name span kind)

def lookupLocal (scope : ScopeId) (name : String) : Analysis (Option SymbolId) :=
  query (·.lookupLocal scope name)

def lookupChain (scope : ScopeId) (name : String) : Analysis (Option SymbolId) :=
  query (·.lookupChain scope name)

def lookupRoot (name : String) : Analysis (Option SymbolId) := do return (← table).lookupRoot name

/-- The functions of a name that can be seen from a scope. -/
def overloads (scope : ScopeId) (name : String) : Analysis (List SymbolId) :=
  query (·.overloads scope name)

/-- The join of two types over the classes of the table. -/
def join (a b : Ty) : Analysis Ty := query fun t => Ty.join t.classes a b

/-- Sets how far the initialization of a variable has come. -/
def setStatus (id : SymbolId) (status : Status) : Analysis Unit :=
  update fun t => do return ((), ← t.setStatus id status)

/-- The type that a written type stands for; one that is unknown is reported. -/
def resolveType (type : TypeName) : Analysis Ty := do
  match type.resolve (← table).classes with
  | .ok ty => return ty
  | .error (.unknownClass name span) =>
    report (.unknownType name) span
    return .error
  | .error .templateParameter => throw .templateParameter

end Analysis

end Quasicode
