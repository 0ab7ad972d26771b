import Quasicode.Parse.State

/-! Reading type names. A name is a type only if it is the name of a class or of a template parameter of the
class around it; an opening angle bracket after it belongs to it only if a type follows. -/
namespace Quasicode.Parse

/-- The type that a single token names. -/
def State.plainType? (s : State) : Option TypeName :=
  let span := s.current.span
  match s.kind with
  | .keyword .int => some (.int span)
  | .keyword .double => some (.double span)
  | .keyword .boolean => some (.boolean span)
  | .keyword .any => some (.any span)
  | .ident name =>
    if s.isClassName name then some (.ofClass name [] span)
    else if s.isTemplateParam name then
      some (.parameter name ((s.owner.map (·.name)).getD "") span)
    else none
  | _ => none

/-- Whether template arguments start here. -/
def State.opensTemplate (s : State) : Bool :=
  s.kind == .sign .lt && match s.second.kind with
    | .keyword .int | .keyword .double | .keyword .boolean | .keyword .any => true
    | .ident name => s.isClassName name || s.isTemplateParam name
    | _ => false

/-- The suffixes `[]` of a type that started at `start`. -/
def arraySuffixes : Nat → Span → TypeName → Parse TypeName
  | 0, _, _ => throw (.faulted .endless)
  | fuel + 1, start, type => do
    let s ← get
    if s.kind == .sign .leftBracket && s.second.kind == .sign .rightBracket then
      set s.advance.advance
      arraySuffixes fuel start (.array type (← spanFrom start))
    else
      return type

mutual

/-- Reads a type if one starts here; with `arrays` also its suffixes `[]`. -/
def typeName? : Nat → Bool → Parse (Option TypeName)
  | 0, _ => throw (.faulted .endless)
  | fuel + 1, arrays => do
    let s ← get
    let start := s.current.span
    match s.plainType? with
    | none => return none
    | some plain => do
      let _ ← advance
      let type ← do
        if (← get).opensTemplate then
          let _ ← advance
          match plain with
          | .ofClass name _ _ => do
            let arguments ← typeArguments fuel
            let _ ← expect (.sign .gt) .templateClose
            pure (.ofClass name arguments (← spanFrom start))
          | _ => reject .templatedNonClass
        else
          pure plain
      if arrays then
        return some (← arraySuffixes fuel start type)
      else
        return some type
termination_by structural fuel => fuel

def requireType : Nat → Parse TypeName
  | 0 => throw (.faulted .endless)
  | fuel + 1 => do
    match ← typeName? fuel true with
    | some type => return type
    | none => rejectAt .expectedType (← currentSpan)
termination_by structural fuel => fuel

/-- One type and, after every comma, another. -/
def typeArguments : Nat → Parse (List TypeName)
  | 0 => throw (.faulted .endless)
  | fuel + 1 => do
    let first ← requireType fuel
    if ← accept (.sign .comma) then
      return first :: (← typeArguments fuel)
    else
      return [first]
termination_by structural fuel => fuel

end

end Quasicode.Parse
