import Quasicode.Binding.Stmt

/-!
Globals. A variable assigned at the top level before it is known anywhere is a global, and the assignment
defines it. A global depends on the globals that its defining assignment reads. Initialization goes depth
first along the dependencies, and every reference on a cycle that this meets is reported once.
-/
namespace Quasicode

namespace Expr

mutual

/-- The variables that a bound expression reads, with their places, in the order of binding. -/
def reads : Expr → List (SymbolId × Span)
  | literal _ _ | classRef _ _ _ | this _ _ | superField _ _ _ _ | assignee _ _ _ _ _ => []
  | var info _ slot => slot.toList.map fun id => (id, info.span)
  | group _ e | widen _ e | member _ e _ _ | unary _ _ e | cast _ _ e | isType _ e _ _ => reads e
  | arrayLiteral _ es | newArray _ _ es | newObject _ _ es _ => readsAll es
  | subscript _ a b | binary _ a _ b | logical _ a _ b => reads a ++ reads b
  | call _ callee _ es _ => readsCallee callee ++ readsAll es
termination_by structural e => e

def readsAll : List Expr → List (SymbolId × Span)
  | [] => []
  | e :: es => reads e ++ readsAll es
termination_by structural es => es

def readsCallee : Callee → List (SymbolId × Span)
  | .object receiver => reads receiver
  | .free | .super | .superConstructor => []
termination_by structural callee => callee

end

/-- The variable that a target declares. -/
def declares : Expr → Option SymbolId
  | assignee _ _ _ slot (some true) => slot
  | _ => none

end Expr

namespace Assignment

/-- The targets from left to right. -/
def targets (a : Assignment) : List Expr := a.left :: a.chained

/-- The variables that an assignment declares. -/
def declares (a : Assignment) : List SymbolId := a.targets.filterMap Expr.declares

/-- The variables that a bound assignment reads, in the order of binding. -/
def reads (a : Assignment) : List (SymbolId × Span) :=
  a.value.reads ++ Expr.readsAll a.chained.reverse ++ a.left.reads

end Assignment

namespace Item

/-- The assignments of an item. -/
def assignments : Item → List Assignment
  | stmt (.assign part) => [part]
  | stmt (.assignAll parts _) => parts
  | _ => []

/-- Changes the assignments of an item, each with its place in the item. -/
def mapAssignments (f : Nat → Assignment → Analysis Assignment) : Item → Analysis Item
  | stmt (.assign part) => return stmt (.assign (← f 0 part))
  | stmt (.assignAll parts span) =>
    return stmt (.assignAll (← parts.zipIdx.mapM fun (part, i) => f i part) span)
  | item => return item

end Item

namespace Binding

open Analysis

/-! ## Declaring globals -/

/-- Declares the variable of a target as a global if its name is not known. -/
def declareGlobal (site : GlobalSite) : Expr → Analysis Expr
  | .assignee info name typeName slot first => do
    if (← lookupRoot name.name).isSome || (← lookupRoot (overloadKey name.name)).isSome then
      return .assignee info name typeName slot first
    else
      let id ← declare .root name.name name.span
        (.globalVariable { status := .unset, kind := .globalVar } site)
      return .assignee info name typeName (some id) (some true)
  | target => return target

def declareTargets (site : GlobalSite) (a : Assignment) : Analysis Assignment := do
  let left ← declareGlobal site a.left
  return { a with left, chained := ← a.chained.mapM (declareGlobal site) }

/-- Declares the globals of a program. -/
def declareGlobals (items : List Item) : Analysis (List Item) :=
  items.zipIdx.mapM fun (item, i) => item.mapAssignments fun part a => declareTargets ⟨i, part⟩ a

/-- Binds the assignments that define globals. -/
def bindDefinitions (items : List Item) : Analysis (List Item) :=
  items.mapM fun item => item.mapAssignments fun _ a =>
    if a.declares.isEmpty then return a else bindAssignment .top a

/-! ## The order of initialization -/

/-- A reference from one global to another. -/
structure Reference where
  target : SymbolId
  span : Span

/-- The references to globals in the definition of every global of a program. -/
abbrev References := List (SymbolId × List Reference)

/-- The references to globals among the variables that are read. -/
def globalReferences : List (SymbolId × Span) → Analysis (List Reference)
  | [] => return []
  | (id, span) :: rest => do
    let rest ← globalReferences rest
    return if (← symbol id).isGlobal then ⟨id, span⟩ :: rest else rest

def references : List Assignment → Analysis References
  | [] => return []
  | a :: rest => do
    let found ← globalReferences a.reads
    return a.declares.map (·, found) ++ (← references rest)

/-- The state of the walk along the references. -/
structure GlobalWalk where
  table : Table
  /-- The references found on a cycle, in the order in which they are reported. -/
  circular : List Span := []
  /-- The globals that are done, in the order of initialization. -/
  order : List SymbolId := []

/-- Records a reference on a cycle unless it is recorded already. -/
def GlobalWalk.addCircular (w : GlobalWalk) (span : Span) : GlobalWalk :=
  if w.circular.contains span then w else { w with circular := w.circular ++ [span] }

/-- Records the references that closed a cycle: `last`, and from the end of the path back to its target. -/
def GlobalWalk.closeCycle (w : GlobalWalk) (path : List Reference) (last : Reference) : GlobalWalk :=
  (path.takeWhile fun step => step.target ≠ last.target).foldl
    (fun w step => w.addCircular step.span) (w.addCircular last.span)

/-- Follows a reference at the end of a path: to a global that nothing has led to yet, which is initialized then, or
back to one on the path, which closes a cycle. -/
def GlobalWalk.follow (w : GlobalWalk) (enter : GlobalWalk → Except Fault GlobalWalk) (path : List Reference)
    (step : Reference) : Except Fault GlobalWalk := do
  match ← w.table.status step.target with
  | .unset => enter w
  | .ordering => return w.closeCycle path step
  | _ => return w

/-- Initializes a global after those it depends on, along paths of at most `limit` globals. The path holds the
references that led here, last one first. -/
def initializeGlobal (refs : References) :
    Nat → List Reference → SymbolId → GlobalWalk → Except Fault GlobalWalk
  | 0, _, _, _ => .error .endless
  | limit + 1, path, id, w => do
    let w := { w with table := ← w.table.setStatus id .ordering }
    let w ← ((refs.lookup id).getD []).foldlM
      (fun w step => w.follow (initializeGlobal refs limit (step :: path) step.target) path step) w
    return { w with table := ← w.table.setStatus id .ready, order := w.order ++ [id] }

/-- Initializes a global that has not been initialized. -/
def initializeUnset (refs : References) (limit : Nat) (w : GlobalWalk) (symbol : Symbol) : Except Fault GlobalWalk := do
  match ← w.table.status symbol.id with
  | .unset => initializeGlobal refs limit [] symbol.id w
  | _ => return w

/-- Initializes every global that has not been initialized, in the order of declaration. -/
def orderGlobals (refs : References) : Analysis (List SymbolId) := do
  let t ← table
  let globals := t.symbols.toList.filter (·.isGlobal)
  let w ← (globals.foldlM (initializeUnset refs (t.symbols.size + 1)) { table := t } : Except Fault GlobalWalk)
  modify fun s => { s with table := w.table }
  w.circular.forM (report .circularReference)
  return w.order

end Binding

end Quasicode
