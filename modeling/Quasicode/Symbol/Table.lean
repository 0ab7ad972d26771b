import Quasicode.Symbol

/-!
The table of all symbols and scopes. Symbols are kept in the order of their declaration and are never
removed; scopes form a tree. A scope holds the last symbol declared in it under each name, and it is the
business of the caller to ask before a name is declared twice.
-/
namespace Quasicode

structure Scope where
  parent : Option ScopeId
  names : List (String × SymbolId) := []
deriving Repr

/-- The scope with `name` standing for `id`. -/
def Scope.bind (scope : Scope) (name : String) (id : SymbolId) : Scope :=
  { scope with names := (name, id) :: scope.names.filter fun entry => entry.1 != name }

def Scope.lookup (scope : Scope) (name : String) : Option SymbolId := scope.names.lookup name

structure Table where
  scopes : Array Scope
  symbols : Array Symbol
  /-- The scope that is being worked in. -/
  current : ScopeId
  classCount : Nat
deriving Repr

namespace Table

/-- A table with the root scope and no symbol. -/
def empty : Table where
  scopes := #[{ parent := none }]
  symbols := #[]
  current := .root
  classCount := 0

/-! ## Scopes -/

def scope (t : Table) (id : ScopeId) : Except Fault Scope :=
  match t.scopes[id.index]? with
  | some scope => .ok scope
  | none => .error .missingScope

/-- Adds a scope under `parent`. -/
def createScope (t : Table) (parent : ScopeId) : ScopeId × Table :=
  (⟨t.scopes.size⟩, { t with scopes := t.scopes.push { parent := some parent } })

def enter (t : Table) (id : ScopeId) : Except Fault Table := do
  let _ ← t.scope id
  return { t with current := id }

def resetToRoot (t : Table) : Table := { t with current := .root }

def parent (t : Table) (id : ScopeId) : Except Fault (Option ScopeId) := do
  return (← t.scope id).parent

/-- Hangs a scope other than the root under a new parent. -/
def link (t : Table) (id newParent : ScopeId) : Except Fault Table :=
  if id = .root then .error .rootMoved
  else do
    let scope ← t.scope id
    return { t with scopes := t.scopes.setIfInBounds id.index { scope with parent := some newParent } }

/-! ## Symbols -/

def get (t : Table) (id : SymbolId) : Except Fault Symbol :=
  match t.symbols[id.index]? with
  | some symbol => .ok symbol
  | none => .error .missingSymbol

/-- The kind of a symbol, changed by `f`. -/
def modify (t : Table) (id : SymbolId) (f : SymbolKind → SymbolKind) : Except Fault Table := do
  let symbol ← t.get id
  return { t with symbols := t.symbols.setIfInBounds id.index { symbol with kind := f symbol.kind } }

/-- Sets how far the initialization of a variable has come. -/
def setStatus (t : Table) (id : SymbolId) (status : Status) : Except Fault Table :=
  t.modify id (·.mapVariable fun var => { var with status })

/-- How far the initialization of a variable has come; other symbols need none. -/
def status (t : Table) (id : SymbolId) : Except Fault Status := do
  return match (← t.get id).var? with
    | some var => var.status
    | none => .ready

/-- Counts a kind that is a class. -/
def count (t : Table) (kind : SymbolKind) : Table :=
  if kind.class?.isSome then { t with classCount := t.classCount + 1 } else t

/-- Puts a symbol into a scope, in place of one of the same name there. A class gets the number of the class
counted last. -/
def place (t : Table) (scope : ScopeId) (name : String) (span : Span) (kind : SymbolKind) :
    Except Fault (SymbolId × Table) := do
  let target ← t.scope scope
  let id : SymbolId := ⟨t.symbols.size⟩
  let kind := kind.mapClass fun c => { c with runtimeId := t.classCount }
  return (id, { t with
    scopes := t.scopes.setIfInBounds scope.index (target.bind name id)
    symbols := t.symbols.push { id, name, span, scope, kind } })

/-- Declares a symbol in a scope, in place of one of the same name there, for a caller that goes on after a
fault. Classes are numbered as they are declared, and a class uses up its number even where there is no such
scope, so that no later class has a number that was given before. -/
def tryDeclare (t : Table) (scope : ScopeId) (name : String) (span : Span) (kind : SymbolKind) :
    Except Fault SymbolId × Table :=
  match (t.count kind).place scope name span kind with
  | .ok (id, t) => (.ok id, t)
  | .error fault => (.error fault, t.count kind)

/-- Declares a symbol for a caller that stops at a fault. -/
def declare (t : Table) (scope : ScopeId) (name : String) (span : Span) (kind : SymbolKind) :
    Except Fault (SymbolId × Table) := do
  let (id, t) := t.tryDeclare scope name span kind
  return (← id, t)

theorem declare_eq (t : Table) (scope : ScopeId) (name : String) (span : Span) (kind : SymbolKind) :
    t.declare scope name span kind = (t.count kind).place scope name span kind := by
  unfold declare tryDeclare
  cases (t.count kind).place scope name span kind <;> rfl

/-! ## Looking up -/

def lookupLocal (t : Table) (id : ScopeId) (name : String) : Except Fault (Option SymbolId) := do
  return (← t.scope id).lookup name

/-- Looks a name up in a scope and those around it, at most `limit` scopes. -/
def lookupWithin (t : Table) (name : String) : Nat → ScopeId → Except Fault (Option SymbolId)
  | 0, _ => .error .endless
  | limit + 1, id => do
    let scope ← t.scope id
    match scope.lookup name, scope.parent with
    | some found, _ => return some found
    | none, none => return none
    | none, some outer => t.lookupWithin name limit outer

/-- Looks a name up in a scope and those around it, innermost first. -/
def lookupChain (t : Table) (id : ScopeId) (name : String) : Except Fault (Option SymbolId) :=
  t.lookupWithin name (t.scopes.size + 1) id

def lookupRoot (t : Table) (name : String) : Option SymbolId :=
  t.scopes[0]?.bind (·.lookup name)

/-- The overload set of a name in a scope, declared if there is none. -/
def overloadSet (t : Table) (scope : ScopeId) (name : String) (span : Span) (forMethods : Bool) :
    Except Fault (SymbolId × Table) := do
  match ← t.lookupLocal scope (overloadKey name) with
  | some set => return (set, t)
  | none => t.declare scope (overloadKey name) span (.overloads { forMethods, functions := [] })

/-- Collects overload sets outward from a scope, at most `limit` of them; `found` tells whether a function
has been found further in. -/
def overloadsWithin (t : Table) (key : String) : Nat → Bool → ScopeId → Except Fault (List SymbolId)
  | 0, _, _ => .error .endless
  | limit + 1, found, id => do
    match ← t.lookupChain id key with
    | none => return []
    | some setId =>
      let symbol ← t.get setId
      match symbol.kind with
      | .overloads set =>
        if set.forMethods then
          match ← t.parent symbol.scope with
          | none => return set.functions
          | some outer =>
            let rest ← t.overloadsWithin key limit (found || !set.functions.isEmpty) outer
            return set.functions ++ rest
        else
          return if found then [] else set.functions
      | _ => .error .notOverloads

/-- All functions of a name that can be seen from a scope. The methods of a class are followed by those of
the classes above it; free functions are seen only where there is no method. -/
def overloads (t : Table) (id : ScopeId) (name : String) : Except Fault (List SymbolId) :=
  t.overloadsWithin (overloadKey name) (t.scopes.size + 1) false id

/-! ## Classes -/

def classBySignature (t : Table) (signature : String) : Option SymbolId := do
  let id ← t.lookupRoot signature
  let _ ← (← t.symbols[id.index]?).class?
  return id

def classLink (t : Table) (id : SymbolId) : Option ClassLink := do
  let c ← (← t.symbols[id.index]?).class?
  return { name := c.displayName, depth := ← c.depth, upper := c.upper }

/-- A class and those above it, nearest first, at most `limit` of them. -/
def ancestryWithin (t : Table) : Nat → SymbolId → Except Fault (List (SymbolId × ClassSymbol))
  | 0, _ => .error .endless
  | limit + 1, id => do
    match (← t.get id).class? with
    | none => return []
    | some c =>
      match c.upper with
      | none => return [(id, c)]
      | some upper => return (id, c) :: (← t.ancestryWithin limit upper)

/-- A class and all classes above it, nearest first. -/
def ancestry (t : Table) (id : SymbolId) : Except Fault (List (SymbolId × ClassSymbol)) :=
  t.ancestryWithin (t.symbols.size + 1) id

/-- The classes of a table as the join of types needs them. -/
def classes (t : Table) : ClassView where
  bySignature := t.classBySignature
  link := t.classLink
  count := t.symbols.size

end Table

end Quasicode
