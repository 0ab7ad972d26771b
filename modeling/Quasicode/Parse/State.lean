import Quasicode.Syntax.Program
import Quasicode.Token

/-!
The state of reading a program from tokens: the tokens that lie ahead, the one just behind, and what has
been found wrong so far. Reading never leaves the list, since past its last token there is always the end of
the file. A step either succeeds, or stops with the diagnostic that rejects the statement being read; the
state it reached is kept in both cases.
-/
namespace Quasicode.Parse

/-- The class whose members are being read. -/
structure Owner where
  name : String
  params : List String

structure State where
  /-- The token just behind; at the start, the first token. -/
  previous : Token
  /-- The tokens ahead, without the one that ends the file. -/
  ahead : List Token
  /-- The place of the end of the file. -/
  finish : Span
  problems : List Diagnostic := []
  /-- Every class name of the source and the builtin ones. -/
  classNames : List String
  owner : Option Owner := none
  /-- How many blocks lie around what is read next. -/
  nesting : Nat := 0
  /-- How many blocks have been opened; tells a failed header from a failed body. -/
  blocksOpened : Nat := 0
  /-- How many headers failed before their body; the lines that close them are skipped. -/
  orphanedEnds : Nat := 0

namespace State

/-- The token to be read next. -/
def current (s : State) : Token :=
  match s.ahead with
  | [] => .eof s.finish
  | t :: _ => t

def kind (s : State) : TokenKind := s.current.kind

/-- The token after the next one. -/
def second (s : State) : Token :=
  match s.ahead with
  | _ :: t :: _ => t
  | _ => .eof s.finish

def atEnd (s : State) : Bool := s.kind == .eof

/-- Moves past the next token; the end of the file is never passed. -/
def advance (s : State) : State :=
  match s.ahead with
  | [] => s
  | t :: ts => { s with previous := t, ahead := ts }

def report (s : State) (d : Diagnostic) : State := { s with problems := s.problems ++ [d] }

/-- Moves past the next end of a line, or to the end of the file. -/
def skipLineFrom (s : State) (previous : Token) : List Token → State
  | [] => { s with previous, ahead := [] }
  | t :: ts =>
    if t.kind = .eof then { s with previous, ahead := t :: ts }
    else if t.kind = .eol then { s with previous := t, ahead := ts }
    else skipLineFrom s t ts

def skipLine (s : State) : State := s.skipLineFrom s.previous s.ahead

/-- Keywords with which a new statement certainly starts. -/
def startsStatement : TokenKind → Bool
  | .keyword .«if» | .keyword .output | .keyword .input | .keyword .«return» | .keyword .loop
  | .keyword .«continue» | .keyword .«break» | .keyword .exit => true
  | _ => false

/-- Moves to the start of the next line, or to a keyword that starts a statement before it. -/
def resumeFrom (s : State) (previous : Token) : List Token → State
  | [] => { s with previous, ahead := [] }
  | t :: ts =>
    if t.kind = .eof || previous.kind = .eol || startsStatement t.kind then
      { s with previous, ahead := t :: ts }
    else resumeFrom s t ts

/-- Leaves a rejected statement: past one token at least, and on to the start of the next statement. -/
def resume (s : State) : State :=
  let s := s.advance
  s.resumeFrom s.previous s.ahead

/-- Keywords that open a block with the line they start. -/
def opensBlock : TokenKind → Bool
  | .keyword .«if» | .keyword .loop | .keyword .function | .keyword .«class» => true
  | _ => false

/-- Reports a rejected entry and leaves it; the line that closes a `headless` one is still to come. -/
def recover (s : State) (d : Diagnostic) (headless : Bool) : State :=
  { (s.report d).resume with orphanedEnds := s.orphanedEnds + if headless then 1 else 0 }

def isClassName (s : State) (name : String) : Bool := s.classNames.contains name

def isTemplateParam (s : State) (name : String) : Bool :=
  s.owner.any fun owner => owner.params.contains name

end State

/-- Why reading stopped. -/
inductive Stop where
  | rejected (d : Diagnostic)
  /-- A fault, which never happens. The number of steps does not run out: see `Parse.budget`. -/
  | faulted (fault : Fault)
deriving DecidableEq, Repr

end Quasicode.Parse

namespace Quasicode

/-- A step of reading. -/
abbrev Parse (α : Type) := ExceptT Parse.Stop (StateM Parse.State) α

end Quasicode

namespace Quasicode.Parse

def advance : Parse Token := do
  let s ← get
  set s.advance
  return s.current

def currentSpan : Parse Span := do return (← get).current.span

def currentKind : Parse TokenKind := do return (← get).kind

def atKind (kind : TokenKind) : Parse Bool := do return (← get).kind == kind

/-- The least span that covers `start` and the last token read. -/
def spanFrom (start : Span) : Parse Span := do return start.merge (← get).previous.span

def rejectAt {α : Type} (cause : Cause) (span : Span) : Parse α := throw (.rejected ⟨cause, span⟩)

/-- Rejects the next token. -/
def reject {α : Type} (error : GrammarError) : Parse α := do rejectAt (.grammar error) (← currentSpan)

def report (error : GrammarError) (span : Span) : Parse Unit :=
  modify (·.report (.grammar error span))

/-- Moves past the next token if it is of the given kind. -/
def accept (kind : TokenKind) : Parse Bool := do
  if ← atKind kind then
    let _ ← advance
    return true
  else
    return false

def expect (kind : TokenKind) (error : GrammarError) : Parse Token := do
  if ← atKind kind then advance else reject error

def expectIdent (error : GrammarError) : Parse Ident := do
  let token := (← get).current
  match token.kind with
  | .ident name => do
    let _ ← advance
    return ⟨name, token.span⟩
  | _ => reject error

def expectEol (after : LineEnding) : Parse Unit := do
  let _ ← expect .eol (.lineEnd after)

/-- Expects `end` and the keyword of the block; the place of `end`. -/
def expectEnd (word : Keyword) (error : GrammarError) : Parse Span := do
  let token ← expect (.keyword .«end») error
  let _ ← expect (.keyword word) error
  return token.span

/-- Enters a block. -/
def openBlock : Parse Unit :=
  modify fun s => { s with nesting := s.nesting + 1, blocksOpened := s.blocksOpened + 1 }

/-- Leaves the block that was entered last. -/
def closeBlock : Parse Unit := do
  let s ← get
  match s.nesting with
  | 0 => throw (.faulted .unopenedBlock)
  | outer + 1 => set { s with nesting := outer }

/-- Runs a step within a class and leaves the class afterwards, whether or not the step succeeds. -/
def inClass {α : Type} (owner : Owner) (step : Parse α) : Parse α := fun s =>
  let (result, s) := step.run.run { s with owner := some owner }
  (result, { s with owner := none })

/-- One entry of a list of statements. Empty lines, and the closing lines of a block whose header was
rejected, hold no entry. A rejected entry is reported and reading resumes at the next statement. -/
def entry {α : Type} (step : Parse α) : Parse (Option α) := do
  if ← accept .eol then return none
  let before ← get
  if 0 < before.orphanedEnds && before.kind == .keyword .«end» then
    set { before.skipLine with orphanedEnds := before.orphanedEnds - 1 }
    return none
  if 0 < before.orphanedEnds && before.kind == .keyword .«else» then
    set before.skipLine
    return none
  try
    return some (← step)
  catch
    | .faulted fault => throw (.faulted fault)
    | .rejected d =>
      let s ← get
      set (s.recover d (State.opensBlock before.kind && s.blocksOpened == before.blocksOpened))
      return none

end Quasicode.Parse
