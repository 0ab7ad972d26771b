import Quasicode.Flow.Init
import Quasicode.Proofs.TableSymbols

/-!
The paths through a body. Conditions may come out either way, a loop may run any number of times, and an operand
behind a short circuit may be left out. A path is told by the events on it that matter for the object that is being
built, and by where it ends up.
-/
namespace Quasicode

/-- What happens on a path to the fields of the object, or to the object itself. -/
inductive Event where
  | read (field : SymbolId)
  | assign (field : SymbolId)
  /-- The object is used as a whole. -/
  | useThis
  /-- A method of the object runs. -/
  | runMethod
  /-- The body returns. -/
  | finish
deriving DecidableEq, Repr

/-- Where a path through a statement ends up. -/
inductive Outcome where
  /-- After the statement. -/
  | past
  /-- After the innermost loop. -/
  | leave
  /-- At the next round of the innermost loop. -/
  | next
  /-- Nowhere: the run is over. -/
  | ended
deriving DecidableEq, Repr

/-- A set of event lists: those of the paths through an expression. -/
abbrev Traces := List Event → Prop

/-- A set of event lists with outcomes: those of the paths through a statement. -/
abbrev Paths := List Event → Outcome → Prop

namespace Traces

/-- First a path of the one kind, then one of the other. -/
def seq (first second : Traces) : Traces := fun es => ∃ x y, first x ∧ second y ∧ es = x ++ y

/-- A path, or none. -/
def orNot (traces : Traces) : Traces := fun es => es = [] ∨ traces es

/-- The paths that go on after what they pass through. -/
def past (traces : Traces) : Paths := fun es outcome => traces es ∧ outcome = .past

end Traces

namespace Paths

/-- A path through an expression, then one of the given kind. -/
def after (first : Traces) (rest : Paths) : Paths := fun es outcome => ∃ x y, first x ∧ rest y outcome ∧ es = x ++ y

/-- One of two kinds of paths. -/
def either (one other : Paths) : Paths := fun es outcome => one es outcome ∨ other es outcome

/-- A path that stops, or one that goes on to a second. -/
def andThen (first rest : Paths) : Paths := fun es outcome =>
  first es outcome ∧ outcome ≠ .past ∨ ∃ x y, first x .past ∧ rest y outcome ∧ es = x ++ y

/-- The paths of a loop with the given test and body. -/
inductive loop (test : Traces) (body : Paths) : Paths where
  | stop {x : List Event} : test x → loop test body x .past
  | again {x y z : List Event} {outcome result : Outcome} : test x → body y outcome →
      outcome = .past ∨ outcome = .next → loop test body z result → loop test body (x ++ y ++ z) result
  | leave {x y : List Event} : test x → body y .leave → loop test body (x ++ y) .past
  | ended {x y : List Event} : test x → body y .ended → loop test body (x ++ y) .ended

end Paths

/-! ## Paths through expressions -/

/-- Whether a symbol is a field of objects. -/
def Table.isField (t : Table) (id : SymbolId) : Bool :=
  (t.symbol? id).any fun s => s.var?.any fun var => var.kind = .instanceField

/-- Whether a symbol is a method that runs on an object. -/
def Table.isObjectMethod (t : Table) (id : SymbolId) : Bool :=
  (t.symbol? id).any fun s => s.method?.any fun m => !m.isStatic && !m.isConstructor

/-- The methods that a call can run. -/
def CallTarget.methods : CallTarget → List SymbolId
  | .unique id => [id]
  | .byClass methods => methods.map (·.2)

/-- Whether a call runs a method of the object that is being built. -/
def Table.runsOnThis (t : Table) (callee : Callee) (target : Option CallTarget) : Bool :=
  Flow.isOnThis callee && target.any fun target => target.methods.any t.isObjectMethod

def readOf : Option SymbolId → List Event
  | none => []
  | some id => [.read id]

mutual

/-- The paths through an expression. The object itself is not used as a whole where one of its fields is
named or a method called on it. -/
def Expr.traces (t : Table) : Expr → Traces
  | .this _ _ => (· = [.useThis])
  | .var _ _ slot => (· = readOf slot)
  | .member _ object _ field => if object.isThis then (· = readOf field) else object.traces t
  | .call _ callee _ arguments target =>
    ((callee.traces t).seq (tracesOfAll t arguments)).seq
      (· = if t.runsOnThis callee target then [.runMethod] else [])
  | .group _ e | .widen _ e | .unary _ _ e | .cast _ _ e | .isType _ e _ _ => e.traces t
  | .subscript _ a b | .binary _ a _ b => (a.traces t).seq (b.traces t)
  | .logical _ a _ b => (a.traces t).seq (b.traces t).orNot
  | .arrayLiteral _ es | .newArray _ _ es | .newObject _ _ es _ => tracesOfAll t es
  | .literal _ _ | .classRef _ _ _ | .superField _ _ _ _ | .assignee _ _ _ _ _ => (· = [])

def tracesOfAll (t : Table) : List Expr → Traces
  | [] => (· = [])
  | e :: es => (e.traces t).seq (tracesOfAll t es)

def Callee.traces (t : Table) : Callee → Traces
  | .object receiver => if receiver.isThis then (· = []) else receiver.traces t
  | .free | .super | .superConstructor => (· = [])

end

/-- The symbol that a bare name, or a field named on the object itself, stands for. -/
def Expr.ownSlot : Expr → Option SymbolId
  | .var _ _ slot | .assignee _ _ _ slot _ | .member _ (.this _ _) _ slot => slot
  | _ => none

/-- The paths through the target of an assignment. A field of the object is assigned; any other target is
evaluated. -/
def targetTraces (t : Table) (target : Expr) : Traces :=
  match target.ownSlot with
  | some id => if t.isField id then (· = [.assign id]) else target.traces t
  | none => target.traces t

def targetTracesAll (t : Table) : List Expr → Traces
  | [] => (· = [])
  | e :: es => (targetTraces t e).seq (targetTracesAll t es)

/-- The paths through an assignment: the value, then the targets from right to left. -/
def Assignment.traces (t : Table) (a : Assignment) : Traces :=
  (a.value.traces t).seq ((targetTracesAll t a.chained.reverse).seq (targetTraces t a.left))

def assignmentTracesAll (t : Table) : List Assignment → Traces
  | [] => (· = [])
  | a :: rest => (a.traces t).seq (assignmentTracesAll t rest)

/-! ## Paths through statements -/

def ElseIf.testTraces (t : Table) (e : ElseIf) : Traces := e.condition.traces t

mutual

/-- The paths through a statement. -/
def Stmt.paths (t : Table) : Stmt → Paths
  | .eval value => (value.traces t).past
  | .output values _ => (tracesOfAll t values).past
  | .input targets _ => (targetTracesAll t targets).past
  | .ret none _ => fun es outcome => es = [.finish] ∧ outcome = .ended
  | .ret (some value) _ => .after (value.traces t) fun es outcome => es = [.finish] ∧ outcome = .ended
  | .exit _ => fun es outcome => es = [] ∧ outcome = .ended
  | .leave _ => fun es outcome => es = [] ∧ outcome = .leave
  | .next _ => fun es outcome => es = [] ∧ outcome = .next
  | .branch condition body elseIfs otherwise _ =>
    .after (condition.traces t) ((body.paths t).either (elseIfPaths t elseIfs (otherwisePaths t otherwise)))
  | .count _ _ first last body _ =>
    .after ((first.traces t).seq (last.traces t)) (.loop (· = []) (body.paths t))
  | .repeatWhile condition body _ => .loop (condition.traces t) (body.paths t)
  | .assignAll parts _ => (assignmentTracesAll t parts).past
  | .assign part => (part.traces t).past

def pathsOfAll (t : Table) : List Stmt → Paths
  | [] => fun es outcome => es = [] ∧ outcome = .past
  | s :: ss => (s.paths t).andThen (pathsOfAll t ss)

def Block.paths (t : Table) : Block → Paths
  | ⟨stmts, _, _⟩ => pathsOfAll t stmts

/-- The paths through the arms of a branch after the first one; `last` are those through the last arm. -/
def elseIfPaths (t : Table) : List ElseIf → Paths → Paths
  | [], last => last
  | e :: es, last => .after (e.testTraces t) ((e.paths t).either (elseIfPaths t es last))

def ElseIf.paths (t : Table) : ElseIf → Paths
  | ⟨_, block⟩ => block.paths t

/-- The paths through the last arm of a branch; without one, they go past the branch. -/
def otherwisePaths (t : Table) : Option Block → Paths
  | none => fun es outcome => es = [] ∧ outcome = .past
  | some block => block.paths t

end

/-- The whole paths through a body, which returns where its end is reached. -/
def bodyTraces (t : Table) (body : List Stmt) : Traces := fun es =>
  (∃ outcome, pathsOfAll t body es outcome ∧ outcome ≠ .past) ∨ ∃ x, pathsOfAll t body x .past ∧ es = x ++ [.finish]

end Quasicode
