import Quasicode.Typing.Expr

/-! Typing of statements. -/
namespace Quasicode.Typing

open Analysis

/-! ## Assignments -/

/-- The type of an assigned variable. Where it is declared it takes the written type or that of the
value. -/
def assigneeType (id : SymbolId) (typeName : Option TypeName) (first : Bool) (value : Expr) :
    Analysis Ty := do
  if !first then
    variableType id
  else
    let ty ← match typeName with
      | some type => writtenType type
      | none =>
        if value.type.isVoid then
          report .voidInitializer value.span
          pure .error
        else
          pure value.type
    setVariableType id ty
    return ty

/-- Types a target and widens the typed value for it. -/
def typeTarget (context : Context) (target value : Expr) : Analysis (Expr × Expr) := do
  match target with
  | .assignee info name typeName slot first =>
    match slot with
    | none => return (target.typed { type := .error }, value)
    | some id =>
      let ty ← assigneeType id typeName (first.getD false) value
      let target := Expr.assignee info name typeName slot first
      return (target.typed { type := ty, assignable := true }, ← widenTo ty value)
  | target =>
    let target ← typeExpr context target
    if target.type.isError then
      return (target, value)
    else if !target.valueTy.assignable then
      report .immutableAssign target.span
      return (target, value)
    else
      return (target, ← widenTo target.type value)

/-- Types targets from left to right, widening the value for one after the other. -/
def typeTargets (context : Context) : List Expr → Expr → Analysis (List Expr × Expr)
  | [], value => return ([], value)
  | target :: targets, value => do
    let (target, value) ← typeTarget context target value
    let (targets, value) ← typeTargets context targets value
    return (target :: targets, value)

/-- Types the value first, then the targets from right to left. -/
def typeAssignment (context : Context) (a : Assignment) : Analysis Assignment := do
  let value ← typeExpr context a.value
  let (chained, value) ← typeTargets context a.chained.reverse value
  let (left, value) ← typeTarget context a.left value
  return { a with left, chained := chained.reverse, value }

/-! ## Other statements -/

def typeCondition (context : Context) (condition : Expr) : Analysis Expr := do
  let condition ← typeExpr context condition
  if !condition.type.isError && !(condition.type == .boolean) then
    report (.notBoolean condition.type.text) condition.span
  return condition

/-- Types a bound of a counting loop. -/
def typeBound (context : Context) (bound : Expr) : Analysis Expr := do
  let bound ← typeExpr context bound
  checkInt (.notInt bound.type.text) bound
  return bound

/-- Reports a loop variable that is not an integer. -/
def checkCounter (counter : Ident) (slot : Option SymbolId) : Analysis Unit := do
  match slot with
  | none => return
  | some id =>
    let ty ← variableType id
    if !ty.isError && !(ty == .int) then
      report (.notInt ty.text) counter.span

/-- Types a target of input: a place that holds a number, a string or anything. -/
def typeInput (context : Context) (target : Expr) : Analysis Expr := do
  let target ← typeExpr context target
  let ty := target.type
  if ty.isError then
    return target
  else if !target.valueTy.assignable then
    report .immutableAssign target.span
    return target
  else
    if !(ty.isNumeric || ty.isAny || (← isString ty)) then
      report (.cannotInput ty.text) target.span
    return target

/-- Types the value of a return. -/
def typeReturnValue (context : Context) (value : Expr) : Analysis Expr := do
  let value ← typeExpr context value
  match context.frame with
  | none => return value
  | some frame =>
    if frame.isConstructor then
      return value
    else if frame.returns.isVoid then
      if !value.type.isError then
        report .unexpectedReturnValue value.span
      return value
    else
      widenTo frame.returns value

/-- Reports a return without a value where one is expected. -/
def checkBareReturn (context : Context) (span : Span) : Analysis Unit := do
  match context.frame with
  | none => return
  | some frame =>
    if !frame.isConstructor && !frame.returns.isVoid && !frame.returns.isError then
      report .missingReturnValue span

def typeReturn (context : Context) (value : Option Expr) (span : Span) : Analysis (Option Expr) := do
  match value with
  | some value => return some (← typeReturnValue context value)
  | none =>
    checkBareReturn context span
    return none

mutual

def typeStmt (context : Context) : Stmt → Analysis Stmt
  | .eval value => return .eval (← typeExpr context value)
  | .branch condition body elseIfs otherwise span => do
    let condition ← typeCondition context condition
    let body ← typeBlock context body
    let elseIfs ← typeElseIfs context elseIfs
    let otherwise ← typeOtherwise context otherwise
    return .branch condition body elseIfs otherwise span
  | .output values span => return .output (← typeExprs context values) span
  | .input targets span => return .input (← targets.mapM (typeInput context)) span
  | .ret value span => return .ret (← typeReturn context value span) span
  | .count counter slot first last body span => do
    let first ← typeBound context first
    let last ← typeBound context last
    checkCounter counter slot
    let body ← typeBlock context body
    return .count counter slot first last body span
  | .repeatWhile condition body span => do
    let condition ← typeCondition context condition
    let body ← typeBlock context body
    return .repeatWhile condition body span
  | .leave span => return .leave span
  | .next span => return .next span
  | .exit span => return .exit span
  | .assignAll parts span => return .assignAll (← parts.mapM (typeAssignment context)) span
  | .assign part => return .assign (← typeAssignment context part)
termination_by structural s => s

def typeStmts (context : Context) : List Stmt → Analysis (List Stmt)
  | [] => return []
  | s :: ss => do
    let s ← typeStmt context s
    return s :: (← typeStmts context ss)
termination_by structural ss => ss

def typeBlock (context : Context) : Block → Analysis Block
  | ⟨stmts, scope, span⟩ => do
    let stmts ← typeStmts { context with scope := scope.getD context.scope } stmts
    return ⟨stmts, scope, span⟩
termination_by structural block => block

def typeElseIf (context : Context) : ElseIf → Analysis ElseIf
  | ⟨condition, block⟩ => do
    let condition ← typeCondition context condition
    return ⟨condition, ← typeBlock context block⟩
termination_by structural elseIf => elseIf

def typeElseIfs (context : Context) : List ElseIf → Analysis (List ElseIf)
  | [] => return []
  | e :: es => do
    let e ← typeElseIf context e
    return e :: (← typeElseIfs context es)
termination_by structural es => es

def typeOtherwise (context : Context) : Option Block → Analysis (Option Block)
  | none => return none
  | some block => return some (← typeBlock context block)
termination_by structural otherwise => otherwise

end

end Quasicode.Typing
