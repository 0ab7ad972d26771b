import Quasicode.Typing.Context

/-!
Selection of the function that a call runs. A candidate fits the arguments exactly, after widening, or only
after widening to `any`; the best fit wins. Of several best candidates those of the class that comes first
remain, and if there is more than one the call is ambiguous. No diagnostic follows from an argument whose
type is an error.
-/
namespace Quasicode.Typing

open Analysis

/-! ## Ranking -/

/-- How well an argument fits a parameter: 1 exactly, 2 widened, 3 widened to `any`. -/
def argumentRank (argument param : Ty) : Analysis (Option Nat) := do
  if argument.isError || param.isError || argument == param then
    return some 1
  else if (← join argument param) == param then
    return some (if param.isAny then 3 else 2)
  else
    return none

/-- How well arguments fit parameters: as well as the worst of them does. -/
def argumentsRank : List Ty → List Ty → Analysis (Option Nat)
  | a :: as, p :: ps => do
    match ← argumentRank a p with
    | none => return none
    | some rank => return (← argumentsRank as ps).map (max rank)
  | _, _ => return some 1

/-- How well a candidate fits the arguments of a call, if it does. -/
def candidateRank (arguments : List Ty) (candidate : SymbolId) : Analysis (Option Nat) := do
  match (← symbol candidate).function? with
  | none => return none
  | some f => if f.accepts arguments.length then argumentsRank arguments f.params else return none

/-- The candidates that fit, with their ranks. -/
def rankCandidates (arguments : List Ty) : List SymbolId → Analysis (List (SymbolId × Nat))
  | [] => return []
  | id :: ids => do
    let rank ← candidateRank arguments id
    let rest ← rankCandidates arguments ids
    match rank with
    | none => return rest
    | some rank => return (id, rank) :: rest

/-- The candidates of the least rank. -/
def bestRanked (ranked : List (SymbolId × Nat)) : List SymbolId :=
  match (ranked.map (·.2)).min? with
  | none => []
  | some least => (ranked.filter fun entry => entry.2 = least).map (·.1)

/-! ## Selection -/

/-- The class that declares a method; free functions have none. -/
def ownerOf (id : SymbolId) : Analysis (Option SymbolId) := do
  return (← symbol id).method?.map (·.owner)

/-- The functions that the same class declares as a given one. -/
def keepOwner (owner : Option SymbolId) : List SymbolId → Analysis (List SymbolId)
  | [] => return []
  | id :: ids => do
    let rest ← keepOwner owner ids
    return if (← ownerOf id) = owner then id :: rest else rest

/-- Widens arguments to the types of the parameters. -/
def widenArguments : List Expr → List Ty → Analysis (List Expr)
  | a :: as, p :: ps => do
    let a ← widenTo p a
    return a :: (← widenArguments as ps)
  | as, _ => return as

/-- Reports a failed selection unless an argument is to blame. -/
def reportSelection (arguments : List Expr) (cause : Cause) (span : Span) : Analysis Unit := do
  if !arguments.any (·.type.isError) then
    report cause span

/-- The function that a call runs, and the arguments widened for it. -/
def selectOverload (candidates : List SymbolId) (arguments : List Expr) (span : Span) :
    Analysis (Option SymbolId × List Expr) := do
  match bestRanked (← rankCandidates (arguments.map Expr.type) candidates) with
  | [] =>
    reportSelection arguments .noMatchingFunction span
    return (none, arguments)
  | first :: others =>
    let remaining ← keepOwner (← ownerOf first) (first :: others)
    if remaining.length > 1 then
      reportSelection arguments .ambiguousCall span
      return (none, arguments)
    else
      let params := ((← symbol first).function?.map (·.params)).getD []
      return (some first, ← widenArguments arguments params)

/-! ## Constructors -/

/-- The constructors that a class declares. -/
def constructors (cls : SymbolId) : Analysis (List SymbolId) := do
  match (← symbol cls).class? with
  | none => return []
  | some c =>
    match ← lookupLocal c.scope (overloadKey c.plainName) with
    | none => return []
    | some set =>
      match (← symbol set).kind with
      | .overloads set =>
        set.functions.filterM fun id => do
          return (← symbol id).method?.any fun m => m.isConstructor && m.owner = cls
      | _ => return []

/-- The constructor that runs, and the arguments widened for it. A class without constructors takes no
arguments. -/
def selectConstructor (cls : SymbolId) (arguments : List Expr) (span : Span) :
    Analysis (Option SymbolId × List Expr) := do
  match ← constructors cls with
  | [] =>
    if !arguments.isEmpty then
      report .noMatchingFunction span
    return (none, arguments)
  | first :: others => selectOverload (first :: others) arguments span

/-! ## Targets -/

/-- Adds the method of a class to a list in ascending order of classes. -/
def insertByClass (cls method : SymbolId) : List (SymbolId × SymbolId) → List (SymbolId × SymbolId)
  | [] => [(cls, method)]
  | (c, m) :: rest =>
    if cls.index < c.index then (cls, method) :: (c, m) :: rest
    else if cls = c then (cls, method) :: rest
    else (c, m) :: insertByClass cls method rest

/-- Adds methods under the classes that declare them. -/
def insertMethods : List SymbolId → List (SymbolId × SymbolId) → Analysis (List (SymbolId × SymbolId))
  | [], methods => return methods
  | id :: ids, methods => do
    match ← ownerOf id with
    | none => insertMethods ids methods
    | some owner => insertMethods ids (insertByClass owner id methods)

/-- What a call of the selected function runs. An overridden method of an object is chosen by the class of
the object, unless the call goes to the superclass. -/
def callTarget (id : SymbolId) (dispatch : Bool) : Analysis CallTarget := do
  match (← symbol id).method? with
  | none => return .unique id
  | some m =>
    if !dispatch || m.isStatic || m.isConstructor || m.overriders.isEmpty then
      return .unique id
    else
      return .byClass (← insertMethods m.overriders [(m.owner, id)])

end Quasicode.Typing
