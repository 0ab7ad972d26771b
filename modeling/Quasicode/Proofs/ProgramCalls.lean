import Quasicode.Syntax.Program

/-!
The calls of a program: every call node that stands anywhere in it. What holds of every call of a program is put
together from what holds of the calls of its parts.
-/
namespace Quasicode

mutual

/-- The calls in an expression, each before those inside it. -/
def Expr.calls : Expr → List Expr
  | .literal _ _ | .classRef _ _ _ | .this _ _ | .superField _ _ _ _ | .var _ _ _ | .assignee _ _ _ _ _ => []
  | .group _ e | .widen _ e | .member _ e _ _ | .unary _ _ e | .cast _ _ e | .isType _ e _ _ => e.calls
  | .arrayLiteral _ es | .newArray _ _ es | .newObject _ _ es _ => callsOfAll es
  | .subscript _ a b | .binary _ a _ b | .logical _ a _ b => a.calls ++ b.calls
  | .call info callee name es target => .call info callee name es target :: (callee.calls ++ callsOfAll es)

def callsOfAll : List Expr → List Expr
  | [] => []
  | e :: es => e.calls ++ callsOfAll es

def Callee.calls : Callee → List Expr
  | .object receiver => receiver.calls
  | .free | .super | .superConstructor => []

end

def callsOfOption (e : Option Expr) : List Expr := callsOfAll e.toList

def Assignment.calls (a : Assignment) : List Expr := a.left.calls ++ callsOfAll a.chained ++ a.value.calls

mutual

def Stmt.calls : Stmt → List Expr
  | .eval value => value.calls
  | .branch condition body elseIfs otherwise _ =>
    condition.calls ++ body.calls ++ callsOfElseIfs elseIfs ++ callsOfOtherwise otherwise
  | .output values _ | .input values _ => callsOfAll values
  | .ret value _ => callsOfOption value
  | .count _ _ first last body _ => first.calls ++ last.calls ++ body.calls
  | .repeatWhile condition body _ => condition.calls ++ body.calls
  | .leave _ | .next _ | .exit _ => []
  | .assignAll parts _ => parts.flatMap Assignment.calls
  | .assign part => part.calls

def callsOfStmts : List Stmt → List Expr
  | [] => []
  | s :: ss => s.calls ++ callsOfStmts ss

def Block.calls : Block → List Expr
  | ⟨stmts, _, _⟩ => callsOfStmts stmts

def ElseIf.calls : ElseIf → List Expr
  | ⟨condition, block⟩ => condition.calls ++ block.calls

def callsOfElseIfs : List ElseIf → List Expr
  | [] => []
  | e :: es => e.calls ++ callsOfElseIfs es

def callsOfOtherwise : Option Block → List Expr
  | none => []
  | some block => block.calls

end

def Param.calls (p : Param) : List Expr := callsOfOption p.default

def Function.calls (f : Function) : List Expr := f.params.flatMap Param.calls ++ callsOfStmts f.body

def Field.calls (f : Field) : List Expr := callsOfOption f.initializer

def Class.calls (c : Class) : List Expr := c.fields.flatMap Field.calls ++ c.methods.flatMap (·.function.calls)

def Item.calls : Item → List Expr
  | .cls c => c.calls
  | .function f => f.calls
  | .stmt s => s.calls

/-- Every call of a program. -/
def Program.calls (program : Program) : List Expr := program.items.flatMap Item.calls

/-! ## Properties of all calls -/

variable {P : Expr → Prop}

theorem callsOfAll_eq (es : List Expr) : callsOfAll es = es.flatMap Expr.calls := by
  induction es with
  | nil => rfl
  | cons e es ih => rw [callsOfAll, ih, List.flatMap_cons]

/-- All calls in a list of parts have a property if those of every part do. -/
theorem forall_flatMap {α : Type} {parts : List α} {calls : α → List Expr} :
    (∀ call ∈ parts.flatMap calls, P call) ↔ ∀ part ∈ parts, ∀ call ∈ calls part, P call := by
  simp only [List.mem_flatMap]
  exact ⟨fun all part inside call found => all call ⟨part, inside, found⟩,
    fun all call ⟨part, inside, found⟩ => all part inside call found⟩

theorem forall_callsOfAll {es : List Expr} : (∀ call ∈ callsOfAll es, P call) ↔ ∀ e ∈ es, ∀ call ∈ e.calls, P call := by
  rw [callsOfAll_eq, forall_flatMap]

theorem forall_callsOfOption {e : Option Expr} : (∀ call ∈ callsOfOption e, P call) ↔ ∀ x, e = some x →
    ∀ call ∈ x.calls, P call := by
  cases e <;> simp [callsOfOption, callsOfAll]

end Quasicode
