import Quasicode.Analysis.Basic
import Quasicode.Partition

/-!
The hierarchy of classes. Every class is hung under its superclass unless that would close a cycle; then it
is reported and stays without a superclass. A partition of the classes tells: an edge closes a cycle exactly
when its ends are already connected. From the classes without a superclass downwards, every class gets its
depth, and every method the methods that override it.
-/
namespace Quasicode.Hierarchy

open Analysis

/-- A declared class with the superclass it names, if it names one that exists. -/
structure Edge where
  cls : SymbolId
  superclass : Option SymbolId
  span : Span

/-- The class behind an end of an edge. -/
def classSymbol (id : SymbolId) : Analysis ClassSymbol := do
  match (← symbol id).class? with
  | some c => return c
  | none => throw .notClass

/-- Hangs `cls` under `superclass`. -/
def attach (cls superclass : SymbolId) : Analysis Unit := do
  let scope := (← classSymbol cls).scope
  let superScope := (← classSymbol superclass).scope
  modifySymbol superclass (·.mapClass fun c => { c with children := c.children ++ [cls] })
  modifySymbol cls (·.mapClass fun c => { c with upper := some superclass })
  update fun t => do return ((), ← t.link scope superScope)

/-- Attaches the classes in the given order; the classes that stay without a superclass. The number `top`
stands for all of them in the partition. -/
def attachAll (top : Nat) : List Edge → Partition → Analysis (List SymbolId)
  | [], _ => return []
  | edge :: edges, sets => do
    let c ← classSymbol edge.cls
    match edge.superclass with
    | none => do
      let (_, sets) ← sets.unite top c.runtimeId
      return edge.cls :: (← attachAll top edges sets)
    | some superclass => do
      let upper ← classSymbol superclass
      let (joined, sets) ← sets.unite upper.runtimeId c.runtimeId
      if joined then
        attach edge.cls superclass
        attachAll top edges sets
      else
        report (.inheritsFromItself c.displayName) edge.span
        return edge.cls :: (← attachAll top edges sets)

/-- Gives a class and those below it their depths, for at most `limit` levels. -/
def fillDepth : Nat → Nat → SymbolId → Analysis Unit
  | 0, _, _ => throw .endless
  | limit + 1, depth, id => do
    match (← symbol id).class? with
    | none => return
    | some c => do
      modifySymbol id (·.mapClass fun c => { c with depth := some depth })
      c.children.forM (fillDepth limit (depth + 1))

/-! ## Overriding -/

/-- Methods by their signature. -/
abbrev Signatures := List (String × SymbolId)

/-- Overriding methods by their signature. -/
abbrev Overrides := List (String × List SymbolId)

/-- Adds methods of one signature behind those that are there. -/
def addOverrides (signature : String) (ids : List SymbolId) : Overrides → Overrides
  | [] => [(signature, ids)]
  | (s, found) :: rest =>
    if s = signature then (s, found ++ ids) :: rest else (s, found) :: addOverrides signature ids rest

/-- The methods of one class: all of them, those that override nothing, and those that override a method
of a class above. -/
structure OwnMethods where
  all : Signatures := []
  introduced : Signatures := []
  overriding : Overrides := []

/-- Compares an overriding method with the topmost method of its signature. -/
def checkOverride (ancestor method : MethodSymbol) : Analysis Unit := do
  if ancestor.isStatic != method.isStatic then
    report .overrideStaticMismatch (method.staticSpan.getD method.nameSpan)
  if ancestor.function.returns != method.function.returns then
    report .overrideReturnMismatch (method.returnSpan.getD method.nameSpan)

/-- Adds a method of a class; `above` holds the methods that the classes above introduce, nearest first. -/
def addMethod (above : List Signatures) (own : OwnMethods) (id : SymbolId) : Analysis OwnMethods := do
  let symbol ← symbol id
  match symbol.method? with
  | none => return own
  | some method =>
    if method.isConstructor then
      return own
    else
      let own := { own with all := (symbol.name, id) :: own.all }
      match above.findSome? (·.lookup symbol.name) with
      | none => return { own with introduced := (symbol.name, id) :: own.introduced }
      | some ancestorId =>
        match (← Analysis.symbol ancestorId).method? with
        | none => pure ()
        | some ancestor => checkOverride ancestor method
        return { own with overriding := addOverrides symbol.name [id] own.overriding }

/-- Takes over what a class below overrides: it overrides the method of this class, and if this class did
not introduce the signature, a method further up. -/
def absorb (own : OwnMethods) (overrides : Overrides) : Overrides → Analysis Overrides
  | [] => return overrides
  | (signature, ids) :: rest => do
    match own.all.lookup signature with
    | none => pure ()
    | some mine =>
      modifySymbol mine (·.mapMethod fun m => { m with overriders := m.overriders ++ ids })
    let overrides :=
      if (own.introduced.lookup signature).isSome then overrides
      else addOverrides signature ids overrides
    absorb own overrides rest

/-- In which order the entries from a class below are taken over. -/
abbrev Order := SymbolId → Overrides → Overrides

/-- Compares the methods of a class and of those below it with the methods above, for at most `limit`
levels. The result holds, by signature, every method that overrides one of a class further up. -/
def findOverrides (order : Order) : Nat → List Signatures → SymbolId → Analysis Overrides
  | 0, _, _ => throw .endless
  | limit + 1, above, id => do
    match (← symbol id).class? with
    | none => return []
    | some c => do
      let own ← c.methods.foldlM (addMethod above) {}
      c.children.foldlM (fun overrides child => do
        absorb own overrides (order child (← findOverrides order limit (own.introduced :: above) child))) own.overriding

/-- Builds the hierarchy from one edge for every class, in the order of declaration. -/
def buildIn (order : Order) (edges : List Edge) : Analysis Unit := do
  let t ← table
  let limit := t.symbols.size + 1
  let roots ← attachAll (t.classCount + 1) edges (Partition.discrete (t.classCount + 2))
  roots.forM (fillDepth limit 1)
  roots.forM fun root => do
    let _ ← findOverrides order limit [] root

/-- The entries are taken over as they come. -/
abbrev build (edges : List Edge) : Analysis Unit := buildIn (fun _ overrides => overrides) edges

end Quasicode.Hierarchy
