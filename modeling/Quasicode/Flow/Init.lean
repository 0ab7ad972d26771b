import Quasicode.Analysis.Basic

/-!
Definite initialization. A constructor has to set every field of the object that has no initializer, on
every path, before it reads the field, and all of them before it uses the object as a whole. After a branch
a field is set if every arm that reaches the end sets it. The body of a loop is checked, but what it sets
does not count afterwards.
-/
namespace Quasicode.Flow

open Analysis

/-- The fields that are not set yet. -/
abbrev Unset := List SymbolId

/-! ## Expressions -/

def isInstanceField (id : SymbolId) : Analysis Bool := do
  return (← symbol id).var?.any fun var => var.kind = .instanceField

/-- Reports a field that is read before it is set. -/
def checkRead (unset : Unset) (slot : Option SymbolId) (span : Span) : Analysis Unit := do
  match slot with
  | none => return
  | some id =>
    if unset.contains id then
      report (.fieldBeforeInit (← symbol id).name) span

/-- A method that a call can run. -/
def anyTarget : CallTarget → Option SymbolId
  | .unique id => some id
  | .byClass methods => methods.head?.map (·.2)

/-- Whether a call runs a method of an object. -/
def runsMethod (target : Option CallTarget) : Analysis Bool := do
  match target.bind anyTarget with
  | none => return false
  | some id => return (← symbol id).method?.any fun m => !m.isStatic && !m.isConstructor

/-- Whether a call runs on the object that is being built. -/
def isOnThis : Callee → Bool
  | .free | .super => true
  | .object receiver => receiver.isThis
  | .superConstructor => false

/-- Reports a method that runs on the object before all its fields are set. -/
def checkMethodCall (unset : Unset) (callee : Callee) (target : Option CallTarget) (span : Span) :
    Analysis Unit := do
  if isOnThis callee && !unset.isEmpty then
    if ← runsMethod target then
      report .instanceMethodBeforeInit span

mutual

/-- Checks what an expression reads. -/
def checkExpr (unset : Unset) : Expr → Analysis Unit
  | .this info _ => do
    if !unset.isEmpty then
      report .thisBeforeInit info.span
  | .var info _ slot => checkRead unset slot info.span
  | .member info object _ field =>
    if object.isThis then checkRead unset field info.span else checkExpr unset object
  | .call info callee _ arguments target => do
    checkCallee unset callee
    checkExprs unset arguments
    checkMethodCall unset callee target info.span
  | .group _ e | .widen _ e | .unary _ _ e | .cast _ _ e | .isType _ e _ _ => checkExpr unset e
  | .subscript _ a b | .binary _ a _ b | .logical _ a _ b => do
    checkExpr unset a
    checkExpr unset b
  | .arrayLiteral _ es | .newArray _ _ es | .newObject _ _ es _ => checkExprs unset es
  | .literal _ _ | .classRef _ _ _ | .superField _ _ _ _ | .assignee _ _ _ _ _ => return
termination_by structural e => e

def checkExprs (unset : Unset) : List Expr → Analysis Unit
  | [] => return
  | e :: es => do
    checkExpr unset e
    checkExprs unset es
termination_by structural es => es

/-- Checks the receiver of a call, unless it is the object itself. -/
def checkCallee (unset : Unset) : Callee → Analysis Unit
  | .object receiver => if receiver.isThis then return else checkExpr unset receiver
  | .free | .super | .superConstructor => return
termination_by structural callee => callee

end

/-! ## Statements -/

/-- Checks a target; assigning a field sets it. -/
def checkTarget (unset : Unset) (target : Expr) : Analysis Unset := do
  match target with
  | .var _ _ (some id) | .assignee _ _ _ (some id) _ =>
    return if ← isInstanceField id then unset.filter (· ≠ id) else unset
  | .var _ _ none | .assignee _ _ _ none _ => return unset
  | .member _ (.this _ _) _ field =>
    return match field with
      | some id => unset.filter (· ≠ id)
      | none => unset
  | other =>
    checkExpr unset other
    return unset

/-- Checks the value first, then the targets from right to left. -/
def checkAssignment (unset : Unset) (a : Assignment) : Analysis Unset := do
  checkExpr unset a.value
  let unset ← a.chained.reverse.foldlM checkTarget unset
  checkTarget unset a.left

/-- What is not set where two paths meet. -/
def meet : Option Unset → Option Unset → Option Unset
  | some a, some b => some (a ++ b.filter (!a.contains ·))
  | some a, none => some a
  | none, b => b

mutual

/-- Checks a statement: what is not set after it, or nothing if control never gets there. -/
def checkStmt (unset : Unset) : Stmt → Analysis (Option Unset)
  | .eval value => do
    checkExpr unset value
    return some unset
  | .output values _ => do
    checkExprs unset values
    return some unset
  | .input targets _ => return some (← targets.foldlM checkTarget unset)
  | .ret value span => do
    value.forM (checkExpr unset)
    if !unset.isEmpty then
      report .returnBeforeInit span
    return none
  | .exit _ | .leave _ | .next _ => return none
  | .branch condition body elseIfs otherwise _ => do
    checkExpr unset condition
    checkConditions unset elseIfs
    let first ← checkBlock unset body
    let middle ← checkElseIfs unset elseIfs
    let last ← checkOtherwise unset otherwise
    return meet first (meet middle last)
  | .count _ _ first last body _ => do
    checkExpr unset first
    checkExpr unset last
    let _ ← checkBlock unset body
    return some unset
  | .repeatWhile condition body _ => do
    checkExpr unset condition
    let _ ← checkBlock unset body
    return some unset
  | .assignAll parts _ => return some (← parts.foldlM checkAssignment unset)
  | .assign part => return some (← checkAssignment unset part)
termination_by structural s => s

/-- Checks statements up to the first one that control does not get past. -/
def checkStmts (unset : Unset) : List Stmt → Analysis (Option Unset)
  | [] => return some unset
  | s :: ss => do
    match ← checkStmt unset s with
    | none => return none
    | some unset => checkStmts unset ss
termination_by structural ss => ss

def checkBlock (unset : Unset) : Block → Analysis (Option Unset)
  | ⟨stmts, _, _⟩ => checkStmts unset stmts
termination_by structural block => block

def checkElseIf (unset : Unset) : ElseIf → Analysis (Option Unset)
  | ⟨_, block⟩ => checkBlock unset block
termination_by structural elseIf => elseIf

/-- Checks the arms of a branch, each from the same start. -/
def checkElseIfs (unset : Unset) : List ElseIf → Analysis (Option Unset)
  | [] => return none
  | e :: es => do
    let first ← checkElseIf unset e
    return meet first (← checkElseIfs unset es)
termination_by structural es => es

/-- Checks the last arm of a branch; without one control may go past the branch. -/
def checkOtherwise (unset : Unset) : Option Block → Analysis (Option Unset)
  | none => return some unset
  | some block => checkBlock unset block
termination_by structural otherwise => otherwise

/-- Checks the conditions of a branch after the first one. -/
def checkConditions (unset : Unset) : List ElseIf → Analysis Unit
  | [] => return
  | ⟨condition, _⟩ :: es => do
    checkExpr unset condition
    checkConditions unset es

end

/-! ## Constructors -/

/-- The fields that a constructor has to set. -/
def requiredFields (c : Class) : Unset :=
  c.fields.filterMap fun f => if !f.isStatic && f.initializer.isNone then f.symbol else none

/-- Checks the body of a constructor. -/
def checkConstructor (required : Unset) (f : Function) : Analysis Unit := do
  match ← checkStmts required f.body with
  | none => return
  | some unset =>
    if !unset.isEmpty then
      report .implicitReturnBeforeInit f.endSpan

/-- Whether a method has been declared and bound as a constructor. -/
def isConstructor (f : Function) : Analysis Bool := do
  match f.symbol with
  | none => return false
  | some id => return f.scope.isSome && (← symbol id).method?.any (·.isConstructor)

def checkItemInit : Item → Analysis Unit
  | .cls c => do
    let required := requiredFields c
    if c.symbol.isSome && !required.isEmpty then
      c.methods.forM fun m => do
        if ← isConstructor m.function then
          checkConstructor required m.function
  | _ => return

/-- Checks every constructor of a typed program. -/
def checkProgramInit (program : Program) : Analysis Unit :=
  program.items.forM checkItemInit

end Quasicode.Flow
