import Quasicode.Binding.Expr

/-! Binding of statements. Every block gets a scope of its own under the scope around it. -/
namespace Quasicode.Binding

open Analysis

/-- Binds the value first, then the targets from right to left. -/
def bindAssignment (context : Context) (a : Assignment) : Analysis Assignment := do
  let value ← bindExpr context a.value
  let chained ← bindExprs context a.chained.reverse
  let left ← bindExpr context a.left
  return { a with left, chained := chained.reverse, value }

/-- The variable that a loop counts with: a known one, or one declared in the current scope. -/
def bindCounter (context : Context) (counter : Ident) : Analysis SymbolId := do
  let known ← lookupChain context.scope counter.name
  let isVariable ← match known with
    | none => pure false
    | some id => pure (← symbol id).var?.isSome
  match known, isVariable with
  | some id, true => return id
  | _, _ =>
    declare context.scope counter.name counter.span
      (.variable { type := some .int, status := .ready, kind := .localVar })

/-- Reports a return that cannot stand in its body. -/
def checkReturn (context : Context) (value : Option Expr) (span : Span) : Analysis Unit := do
  match context.body with
  | .topLevel => report .returnAtTopLevel span
  | .constructor => if value.isSome then report .returnValueFromConstructor span
  | _ => return

mutual

def bindStmt (context : Context) : Stmt → Analysis Stmt
  | .eval value => return .eval (← bindExpr context value)
  | .branch condition body elseIfs otherwise span => do
    let condition ← bindExpr context condition
    let body ← bindBlock context body
    let elseIfs ← bindElseIfs context elseIfs
    let otherwise ← bindOtherwise context otherwise
    return .branch condition body elseIfs otherwise span
  | .output values span => return .output (← bindExprs context values) span
  | .input targets span => return .input (← bindExprs context targets) span
  | .ret value span => do
    checkReturn context value span
    return .ret (← value.mapM (bindExpr context)) span
  | .count counter _ first last body span => do
    let first ← bindExpr context first
    let last ← bindExpr context last
    let id ← bindCounter context counter
    let body ← bindBlock { context with inLoop := true } body
    return .count counter (some id) first last body span
  | .repeatWhile condition body span => do
    let condition ← bindExpr context condition
    let body ← bindBlock { context with inLoop := true } body
    return .repeatWhile condition body span
  | .leave span => do
    if !context.inLoop then
      report .breakOutsideLoop span
    return .leave span
  | .next span => do
    if !context.inLoop then
      report .continueOutsideLoop span
    return .next span
  | .exit span => return .exit span
  | .assignAll parts span => return .assignAll (← parts.mapM (bindAssignment context)) span
  | .assign part => return .assign (← bindAssignment context part)
termination_by structural s => s

def bindStmts (context : Context) : List Stmt → Analysis (List Stmt)
  | [] => return []
  | s :: ss => do
    let s ← bindStmt context s
    return s :: (← bindStmts context ss)
termination_by structural ss => ss

def bindBlock (context : Context) : Block → Analysis Block
  | ⟨stmts, _, span⟩ => do
    let scope ← createScope context.scope
    return ⟨← bindStmts { context with scope } stmts, some scope, span⟩
termination_by structural block => block

def bindElseIf (context : Context) : ElseIf → Analysis ElseIf
  | ⟨condition, block⟩ => do
    let condition ← bindExpr context condition
    return ⟨condition, ← bindBlock context block⟩
termination_by structural elseIf => elseIf

def bindElseIfs (context : Context) : List ElseIf → Analysis (List ElseIf)
  | [] => return []
  | e :: es => do
    let e ← bindElseIf context e
    return e :: (← bindElseIfs context es)
termination_by structural es => es

def bindOtherwise (context : Context) : Option Block → Analysis (Option Block)
  | none => return none
  | some block => return some (← bindBlock context block)
termination_by structural otherwise => otherwise

end

end Quasicode.Binding
