import Quasicode.Parse.Expr

/-!
Reading statements and blocks. A block goes on to the line that closes it. If the header of a block inside it
was rejected, the next closing line belongs to that header and is skipped. Classes and functions inside a
block are rejected.
-/
namespace Quasicode.Parse

/-- The values that `value` is followed by in a chain of equals signs: all but the last of them, then the
last one. -/
def chain : Nat → Expr → Parse (List Expr × Expr)
  | 0, _ => throw (.faulted .endless)
  | fuel + 1, value => do
    if ← accept (.sign .eq) then
      let following ← expr fuel
      let (rest, last) ← chain fuel following
      return (value :: rest, last)
    else
      return ([], value)

/-- A plain variable on the left of an assignment is the variable to be set. -/
def toAssignee (typeName : Option TypeName) : Expr → Expr
  | .var info name _ =>
    let span := match typeName with
      | some type => info.span.merge type.span
      | none => info.span
    .assignee { span } name typeName none none
  | other => other

/-- Reads the rest of the assignment of which `left` has been read. -/
def assignment (fuel : Nat) (left : Expr) : Parse Assignment := do
  let typeName ← do
    if ← accept (.sign .colon) then
      let colon := (← get).previous.span
      let type ← requireType fuel
      if !left.isVar then report .retypedExpression colon
      pure (some type)
    else
      pure none
  let _ ← expect (.sign .eq) .equalsSign
  let first ← expr fuel
  let (chained, value) ← chain fuel first
  let left := toAssignee typeName left
  return { left, chained, value, span := left.span.merge value.span }

/-- Reads the assignments after a comma. -/
def moreAssignments : Nat → Parse (List Assignment)
  | 0 => throw (.faulted .endless)
  | fuel + 1 => do
    if ← accept (.sign .comma) then
      let left ← writable fuel
      let part ← assignment fuel left
      return part :: (← moreAssignments fuel)
    else
      return []

/-- Reads an expression or the assignments that start with it. -/
def exprOrAssignment (fuel : Nat) : Parse Stmt := do
  let value ← expr fuel
  let kind ← currentKind
  if kind == .sign .colon || kind == .sign .eq then
    let part ← assignment fuel value
    if ← atKind (.sign .comma) then
      let rest ← moreAssignments fuel
      let span ← spanFrom value.span
      expectEol .setStatement
      return .assignAll (part :: rest) span
    else
      expectEol .setStatement
      return .assign part
  else
    expectEol .expression
    return .eval value

/-- Reads the targets of an input statement. -/
def targets : Nat → Parse (List Expr)
  | 0 => throw (.faulted .endless)
  | fuel + 1 => do
    let first ← writable fuel
    if ← accept (.sign .comma) then
      return first :: (← targets fuel)
    else
      return [first]

/-- Reads a statement that opens no block. -/
def simpleStmt (fuel : Nat) : Parse Stmt := do
  let token := (← get).current
  match token.kind with
  | .keyword .output => do
    let _ ← advance
    let values ← exprs fuel
    let span ← spanFrom token.span
    expectEol .outputStatement
    return .output values span
  | .keyword .input => do
    let _ ← advance
    let places ← targets fuel
    let span ← spanFrom token.span
    expectEol .inputStatement
    return .input places span
  | .keyword .«return» => do
    let _ ← advance
    let value ← do
      if ← atKind .eol then pure none else pure (some (← expr fuel))
    let span ← spanFrom token.span
    expectEol .returnStatement
    return .ret value span
  | .keyword .«break» => do
    let _ ← advance
    expectEol (.jump token.lexeme)
    return .leave token.span
  | .keyword .«continue» => do
    let _ ← advance
    expectEol (.jump token.lexeme)
    return .next token.span
  | .keyword .exit => do
    let _ ← advance
    expectEol (.jump token.lexeme)
    return .exit token.span
  | _ => exprOrAssignment fuel

/-- Reads a condition with the rest of its line; the place after the condition. -/
def condition (fuel : Nat) (start : Span) : Parse (Expr × Span) := do
  let value ← expr fuel
  let _ ← expect (.keyword .«then») .thenAfterCondition
  let span ← spanFrom start
  expectEol .ifCondition
  return (value, span)

/-- The header of a loop. -/
inductive LoopHeader where
  | whileTrue (condition : Expr)
  | counting (counter : Ident) (first last : Expr)

/-- Reads the header of a loop with the rest of its line. A loop that runs until a condition holds runs while
it does not hold. -/
def loopHeader (fuel : Nat) (start : Span) : Parse (LoopHeader × Span) := do
  let token := (← get).current
  match token.kind with
  | .keyword .«while» => do
    let _ ← advance
    let value ← expr fuel
    let span ← spanFrom start
    expectEol .loopCondition
    return (.whileTrue value, span)
  | .keyword .«until» => do
    let _ ← advance
    let value ← expr fuel
    let span ← spanFrom start
    expectEol .loopCondition
    return (.whileTrue (.unary { span := token.span.merge value.span } .not value), span)
  | _ => do
    let counter ← expectIdent .loopVariable
    if (← get).isClassName counter.name then
      rejectAt (.grammar .loopVariable) counter.span
    let _ ← expect (.keyword .«from») .fromAfterVariable
    let first ← expr fuel
    let _ ← expect (.keyword .«to») .toAfterRange
    let last ← expr fuel
    let span ← spanFrom start
    expectEol .upperRange
    return (.counting counter first last, span)

/-- Rejects a class or a function inside a block. -/
def refuseNested : Parse Unit := do
  let s ← get
  if 0 < s.nesting then
    match s.kind with
    | .keyword .«class» => do
      let word ← advance
      rejectAt (.grammar .classNotGlobal) word.span
    | .keyword .function => reject .functionNotGlobal
    | _ => return ()

mutual

/-- Reads a block up to the line that closes it; with `orElse`, an `else` closes it too. -/
def block : Nat → Bool → Parse Block
  | 0, _ => throw (.faulted .endless)
  | fuel + 1, orElse => do
    let start ← currentSpan
    openBlock
    let stmts ← blockEntries fuel orElse
    closeBlock
    return { stmts, scope := none, span := ← spanFrom start }
termination_by structural fuel => fuel

def blockEntries : Nat → Bool → Parse (List Stmt)
  | 0, _ => throw (.faulted .endless)
  | fuel + 1, orElse => do
    let s ← get
    let closes := s.kind == .keyword .«end» || (orElse && s.kind == .keyword .«else»)
    if s.atEnd || (closes && s.orphanedEnds == 0) then
      return []
    else
      let stmt? ← entry (nestedStmt fuel)
      return stmt?.toList ++ (← blockEntries fuel orElse)
termination_by structural fuel => fuel

/-- Reads a statement inside a block. -/
def nestedStmt : Nat → Parse Stmt
  | 0 => throw (.faulted .endless)
  | fuel + 1 => do
    refuseNested
    stmt fuel
termination_by structural fuel => fuel

def stmt : Nat → Parse Stmt
  | 0 => throw (.faulted .endless)
  | fuel + 1 => do
    match ← currentKind with
    | .keyword .«if» => do
      let start := (← advance).span
      let (test, span) ← condition fuel start
      let body ← block fuel true
      let (elseIfs, otherwise) ← elseBranches fuel
      let _ ← expectEnd .«if» .ifEnd
      expectEol .endIf
      return .branch test body elseIfs otherwise span
    | .keyword .loop => do
      let start := (← advance).span
      let (header, span) ← loopHeader fuel start
      let body ← block fuel false
      let _ ← expectEnd .loop .loopEnd
      expectEol .endLoop
      match header with
      | .whileTrue test => return .repeatWhile test body span
      | .counting counter first last => return .count counter none first last body span
    | _ => simpleStmt fuel
termination_by structural fuel => fuel

/-- Reads the alternatives of a condition. -/
def elseBranches : Nat → Parse (List ElseIf × Option Block)
  | 0 => throw (.faulted .endless)
  | fuel + 1 => do
    if ← accept (.keyword .«else») then
      let start ← currentSpan
      if ← accept (.keyword .«if») then
        let (test, _) ← condition fuel start
        let body ← block fuel true
        let (elseIfs, otherwise) ← elseBranches fuel
        return (⟨test, body⟩ :: elseIfs, otherwise)
      else
        expectEol .elseKeyword
        return ([], some (← block fuel true))
    else
      return ([], none)
termination_by structural fuel => fuel

end

end Quasicode.Parse
