import Quasicode.Parse.Stmt

/-!
Reading functions, classes and whole programs. Class names are collected before anything is read, so that a
class can be used above its declaration.
-/
namespace Quasicode.Parse

/-- Reads the parameters of a function, of which there is at least one. -/
def params : Nat → Parse (List Param)
  | 0 => throw (.faulted .endless)
  | fuel + 1 => do
    let name ← expectIdent .parameterName
    let typeName ← do
      if ← accept (.sign .colon) then pure (some (← requireType fuel)) else pure none
    let default ← do
      if ← accept (.sign .eq) then pure (some (← expr fuel)) else pure none
    let first : Param := { name, typeName, default }
    if ← accept (.sign .comma) then
      return first :: (← params fuel)
    else
      return [first]

/-- Reads a function from its keyword to the line that closes it. -/
def function (fuel : Nat) : Parse Function := do
  let start := (← advance).span
  let name ← expectIdent .functionName
  let _ ← expect (.sign .leftParen) .parametersOpen
  let params ← do
    if ← atKind (.sign .rightParen) then pure [] else params fuel
  let _ ← expect (.sign .rightParen) .parametersClose
  let returns ← do
    if ← accept (.sign .colon) then pure (some (← requireType fuel)) else pure none
  let span ← spanFrom start
  expectEol .functionSignature
  let body ← block fuel false
  let closing ← expectEnd .function .functionEnd
  let endSpan ← spanFrom closing
  expectEol .endFunction
  return { name, params, returns, body := body.stmts, endSpan, span }

/-- Reads a field from its name to the end of its line. -/
def field (fuel : Nat) (isStatic : Bool) (visibility : Visibility) : Parse Field := do
  let name ← expectIdent .fieldName
  let _ ← expect (.sign .colon) .fieldType
  let typeName ← requireType fuel
  let initializer ← do
    if ← accept (.sign .eq) then pure (some (← expr fuel)) else pure none
  if isStatic && initializer.isNone then report .staticFieldValue name.span
  expectEol .fieldDeclaration
  return { name, isStatic, visibility, typeName, initializer }

/-- The modifiers in front of a member. -/
structure Modifiers where
  visibility : Option Visibility := none
  staticSpan : Option Span := none

/-- Reads the modifiers after those already read. -/
def modifiers : Nat → Modifiers → Parse Modifiers
  | 0, _ => throw (.faulted .endless)
  | fuel + 1, found => do
    let token := (← get).current
    let visibility (v : Visibility) : Parse Modifiers := do
      let _ ← advance
      if found.visibility.isSome then
        rejectAt (.grammar .repeatedVisibility) token.span
      else
        modifiers fuel { found with visibility := some v }
    match token.kind with
    | .keyword .«public» => visibility .exposed
    | .keyword .«private» => visibility .hidden
    | .keyword .static => do
      let _ ← advance
      if found.staticSpan.isSome then
        rejectAt (.grammar .repeatedStatic) token.span
      else
        modifiers fuel { found with staticSpan := some token.span }
    | _ => return found

/-- Reads a field; a rejected one is reported and left out. -/
def recoveredField (fuel : Nat) (isStatic : Bool) (visibility : Visibility) :
    Parse (Option Field) := do
  try
    return some (← field fuel isStatic visibility)
  catch
    | .faulted fault => throw (.faulted fault)
    | .rejected d =>
      modify (·.recover d false)
      return none

/-- Reads the members of a class up to the line that closes it. -/
def members : Nat → Parse (List Method × List Field)
  | 0 => throw (.faulted .endless)
  | fuel + 1 => do
    let s ← get
    if s.kind == .keyword .«end» || s.atEnd then
      return ([], [])
    else if ← accept .eol then
      members fuel
    else
      let found ← modifiers fuel {}
      let visibility := found.visibility.getD .exposed
      match ← currentKind with
      | .keyword .function => do
        let function ← function fuel
        let (methods, fields) ← members fuel
        return ({ staticSpan := found.staticSpan, visibility, function } :: methods, fields)
      | .ident _ => do
        let field? ← recoveredField fuel found.staticSpan.isSome visibility
        let (methods, fields) ← members fuel
        return (methods, field?.toList ++ fields)
      | _ => reject .memberDeclaration

/-- Reads the rest of a class after its name and template parameters. -/
def classRest (fuel : Nat) (start : Span) (name : Ident) (templateParams : List Ident) :
    Parse Class := do
  let superclass ← do
    if ← accept (.keyword .«extends») then
      let word := (← get).previous.span
      match ← typeName? fuel false with
      | some (.ofClass name arguments span) => pure (some (.ofClass name arguments span))
      | some other => rejectAt (.grammar .classExtendsOther) other.span
      | none => rejectAt (.grammar .superclassName) word
    else
      pure none
  let span ← spanFrom start
  expectEol .classSignature
  let (methods, fields) ← members fuel
  let _ ← expectEnd .«class» .classEnd
  expectEol .endClass
  return { name, templateParams, superclass, methods, fields, span }

/-- Reads template parameters, of which there is at least one. -/
def templateParams : Nat → Parse (List Ident)
  | 0 => throw (.faulted .endless)
  | fuel + 1 => do
    let first ← expectIdent .templateParameter
    if ← accept (.sign .comma) then
      return first :: (← templateParams fuel)
    else
      return [first]

/-- Reads a class from its keyword to the line that closes it. -/
def cls (fuel : Nat) : Parse Class := do
  let start := (← advance).span
  let name ← expectIdent .className
  let params ← do
    if ← accept (.sign .lt) then
      let params ← templateParams fuel
      let _ ← expect (.sign .gt) .templateParametersClose
      pure params
    else
      pure []
  inClass ⟨name.name, params.map (·.name)⟩ (classRest fuel start name params)

/-- Reads a class, a function or a statement; classes and functions only at the top level. -/
def item (fuel : Nat) : Parse Item := do
  refuseNested
  match ← currentKind with
  | .keyword .«class» => return .cls (← cls fuel)
  | .keyword .function => return .function (← function fuel)
  | _ => return .stmt (← stmt fuel)

/-- Reads items up to the end of the file. -/
def items : Nat → Parse (List Item)
  | 0 => throw (.faulted .endless)
  | fuel + 1 => do
    if (← get).atEnd then
      return []
    else
      let item? ← entry (item fuel)
      return item?.toList ++ (← items fuel)

/-- The names that follow the keyword `class`. -/
def declaredClasses : List Token → List String
  | [] => []
  | [_] => []
  | t :: u :: rest =>
    match t.kind, u.kind with
    | .keyword .«class», .ident name => name :: declaredClasses (u :: rest)
    | _, _ => declaredClasses (u :: rest)

/-- Enough steps for a token list of the given length: no chain of calls that reads nothing is longer than
the factor. -/
def budget (count : Nat) : Nat := 32 * (count + 1)

/-- The state before anything is read, for a token list that closes with the end of the file. -/
def start? (tokens : List Token) (builtins : List String) : Option State := do
  let last ← tokens.getLast?
  let first ← tokens.head?
  if last.kind = .eof then
    return {
      previous := first
      ahead := tokens.dropLast
      finish := last.span
      classNames := builtins ++ declaredClasses tokens }
  else
    none

end Quasicode.Parse

namespace Quasicode

/-- A program and what was rejected while it was read. -/
structure Parsed where
  program : Program
  problems : List Diagnostic

/-- Reads a program from a token list that closes with the end of the file. The names in `builtins` are class
names besides those that the tokens declare. -/
def parse (tokens : List Token) (builtins : List String) : Except Fault Parsed :=
  match Parse.start? tokens builtins with
  | none => .error .unfinishedTokens
  | some start =>
    match (Parse.items (Parse.budget tokens.length)).run.run start with
    | (.ok items, s) => .ok { program := ⟨items⟩, problems := s.problems }
    | (.error (.faulted fault), _) => .error fault
    | (.error (.rejected _), _) => .error .endless

end Quasicode
