import Quasicode.Parse.TypeName

/-!
Reading expressions. Binary operators are read by climbing precedences: `climb` reads one operand and then
every operator that binds at least as tightly as asked, each with a right operand that binds more tightly
than it. Every function spends one unit of its budget on each call.
-/
namespace Quasicode.Parse

/-- The node of an operator between its operands. -/
def applyOperator (op : Operator) (left right : Expr) : Expr :=
  let info : NodeInfo := { span := left.span.merge right.span }
  match op with
  | .binary op => .binary info left op right
  | .logical op => .logical info left op right

/-- The literal that a token writes. -/
def literal? : TokenKind → Option Literal
  | .intLit n => some (.int n)
  | .doubleLit d => some (.double d)
  | .stringLit s => some (.string s)
  | .keyword .true => some (.bool true)
  | .keyword .false => some (.bool false)
  | _ => none

/-- The call of what an expression denotes, with its arguments. -/
def finishCall (callee : Expr) (arguments : List Expr) : Parse Expr := do
  let _ ← expect (.sign .rightParen) .argumentsClose
  let info : NodeInfo := { span := ← spanFrom callee.span }
  match callee with
  | .var _ name _ => return .call info .free name arguments none
  | .member _ object property _ => return .call info (.object object) property arguments none
  | .superField _ property _ _ => return .call info .super property arguments none
  | _ => rejectAt (.grammar .notCallable) callee.span

mutual

def expr : Nat → Parse Expr
  | 0 => throw (.faulted .endless)
  | fuel + 1 => climb fuel 0
termination_by structural fuel => fuel

/-- Reads an operand and the operators after it that bind at least as tightly as `least`. -/
def climb : Nat → Nat → Parse Expr
  | 0, _ => throw (.faulted .endless)
  | fuel + 1, least => do
    let left ← unary fuel
    operators fuel least left
termination_by structural fuel => fuel

/-- Reads the operators after the operand `left` that bind at least as tightly as `least`. -/
def operators : Nat → Nat → Expr → Parse Expr
  | 0, _, _ => throw (.faulted .endless)
  | fuel + 1, least, left => do
    let kind ← currentKind
    if kind == .keyword .is then
      if Operator.isPrecedence < least then
        return left
      else
        let _ ← advance
        let type ← requireType fuel
        operators fuel least (.isType { span := left.span.merge type.span } left type none)
    else
      match kind.binaryPrecedence with
      | none => return left
      | some precedence =>
        if precedence < least then
          return left
        else
          let _ ← advance
          let right ← climb fuel (precedence + 1)
          match kind.operator? with
          | none => throw (.faulted .notOperator)
          | some op => operators fuel least (applyOperator op left right)
termination_by structural fuel => fuel

/-- Reads an operand with its unary operators. A type in parentheses is a cast of what follows it. -/
def unary : Nat → Parse Expr
  | 0 => throw (.faulted .endless)
  | fuel + 1 => do
    let s ← get
    let start := s.current.span
    match s.kind with
    | .keyword .new => allocation fuel
    | .sign .minus => do
      let _ ← advance
      let operand ← unary fuel
      return .unary { span := start.merge operand.span } .neg operand
    | .keyword .not => do
      let _ ← advance
      let operand ← unary fuel
      return .unary { span := start.merge operand.span } .not operand
    | .sign .leftParen => do
      match (typeName? fuel true).run.run s.advance with
      | (.error (.faulted fault), _) => throw (.faulted fault)
      | (.ok (some target), after) =>
        if after.kind == .sign .rightParen then
          set after.advance
          let value ← unary fuel
          return .cast { span := start.merge value.span } target value
        else
          writable fuel
      | _ => writable fuel
    | _ => writable fuel
termination_by structural fuel => fuel

/-- Reads what can stand on the left of an assignment: an operand with its suffixes. -/
def writable : Nat → Parse Expr
  | 0 => throw (.faulted .endless)
  | fuel + 1 => do
    let operand ← primary fuel
    suffixes fuel operand
termination_by structural fuel => fuel

/-- Reads the calls, members and subscripts after an operand. -/
def suffixes : Nat → Expr → Parse Expr
  | 0, _ => throw (.faulted .endless)
  | fuel + 1, operand => do
    if ← accept (.sign .leftParen) then
      let args ← arguments fuel
      suffixes fuel (← finishCall operand args)
    else if ← accept (.sign .dot) then
      let property ← expectIdent .propertyName
      suffixes fuel (.member { span := operand.span.merge property.span } operand property none)
    else if ← accept (.sign .leftBracket) then
      let index ← expr fuel
      let _ ← expect (.sign .rightBracket) .bracketClose
      suffixes fuel (.subscript { span := ← spanFrom operand.span } operand index)
    else
      return operand
termination_by structural fuel => fuel

/-- Reads the arguments of a call up to the closing parenthesis. -/
def arguments : Nat → Parse (List Expr)
  | 0 => throw (.faulted .endless)
  | fuel + 1 => do
    if ← atKind (.sign .rightParen) then return [] else exprs fuel
termination_by structural fuel => fuel

/-- Reads one expression and, after every comma, another. -/
def exprs : Nat → Parse (List Expr)
  | 0 => throw (.faulted .endless)
  | fuel + 1 => do
    let first ← expr fuel
    if ← accept (.sign .comma) then
      return first :: (← exprs fuel)
    else
      return [first]
termination_by structural fuel => fuel

/-- Reads the allocation of an array or of an object. -/
def allocation : Nat → Parse Expr
  | 0 => throw (.faulted .endless)
  | fuel + 1 => do
    let start := (← advance).span
    let base ← currentSpan
    match ← typeName? fuel false with
    | none => rejectAt (.grammar .typeAfterNew) base
    | some type =>
      if ← atKind (.sign .leftBracket) then
        let (type, sizes) ← capacities fuel base type
        return .newArray { span := ← spanFrom start } type sizes
      else if ← accept (.sign .leftParen) then
        match type with
        | .ofClass _ _ _ => do
          let args ← arguments fuel
          let _ ← expect (.sign .rightParen) .allocationClose
          return .newObject { span := ← spanFrom start } type args none
        | _ => rejectAt (.grammar .classToAllocate) base
      else
        rejectAt .expectedExpr (← currentSpan)
termination_by structural fuel => fuel

/-- Reads the capacities of an array, each of which makes one more array around the type. -/
def capacities : Nat → Span → TypeName → Parse (TypeName × List Expr)
  | 0, _, _ => throw (.faulted .endless)
  | fuel + 1, base, type => do
    if ← accept (.sign .leftBracket) then
      let size ← expr fuel
      let _ ← expect (.sign .rightBracket) .bracketClose
      let (type, sizes) ← capacities fuel base (.array type (← spanFrom base))
      return (type, size :: sizes)
    else
      return (type, [])
termination_by structural fuel => fuel

/-- Reads an operand without operators and suffixes. -/
def primary : Nat → Parse Expr
  | 0 => throw (.faulted .endless)
  | fuel + 1 => do
    let s ← get
    let start := s.current.span
    match literal? s.kind with
    | some value => do
      let _ ← advance
      return .literal { span := start } value
    | none =>
      match s.kind with
      | .keyword .this => do
        let _ ← advance
        return .this { span := start } none
      | .ident name =>
        if s.isClassName name then
          match ← typeName? fuel false with
          | none => rejectAt .expectedType start
          | some type => do
            let _ ← expect (.sign .dot) .memberOfType
            let property ← expectIdent .memberName
            return .member { span := type.span.merge property.span }
              (.classRef { span := type.span } type none) property none
        else
          let _ ← advance
          return .var { span := start } ⟨name, start⟩ none
      | .sign .leftBrace => do
        let _ ← advance
        if ← accept (.sign .rightBrace) then
          return .arrayLiteral { span := ← spanFrom start } []
        else
          let values ← exprs fuel
          let _ ← expect (.sign .rightBrace) .braceClose
          return .arrayLiteral { span := ← spanFrom start } values
      | .keyword .super => do
        let _ ← advance
        if ← accept (.sign .dot) then
          let property ← expectIdent .memberName
          return .superField { span := start.merge property.span } property none none
        else if ← accept (.sign .leftParen) then
          let args ← arguments fuel
          let _ ← expect (.sign .rightParen) .argumentsClose
          return .call { span := ← spanFrom start } .superConstructor ⟨"super", start⟩ args none
        else
          reject .superMember
      | .sign .leftParen => do
        let _ ← advance
        let inner ← expr fuel
        let _ ← expect (.sign .rightParen) .groupClose
        if inner.isVar then
          return inner
        else
          return .group { span := ← spanFrom start } inner
      | _ => rejectAt .expectedExpr start
termination_by structural fuel => fuel

end

end Quasicode.Parse
