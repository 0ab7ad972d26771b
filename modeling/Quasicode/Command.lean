import Quasicode.Report.Feedback
import Quasicode.Report.Symbols

/-!
The command line as a function: from the arguments and what reading a file yields to what is printed and the
exit status. The status is 0 if the source text has no problem, 1 if it has one or cannot be read, and 2 if
the arguments do not say what to do.
-/
namespace Quasicode

/-! ## Arguments -/

inductive Command where
  | check (file : String) (json : Bool)
  | symbols (file : String)
  | tokens (file : String)
  | version
deriving DecidableEq, Repr

/-- The command that arguments stand for; a file alone is to be checked. -/
def Command.ofArgs : List String → Option Command
  | ["version"] => some .version
  | ["check", "--json", file] => some (.check file true)
  | ["check", file, "--json"] => some (.check file true)
  | ["check", file] => some (.check file false)
  | ["symbols", file] => some (.symbols file)
  | ["tokens", file] => some (.tokens file)
  | [file] => some (.check file false)
  | _ => none

/-! ## Reading -/

/-- Why a file cannot be read as a text. -/
inductive ReadError where
  | notFound
  | permissionDenied
  | notDirectory
  | isDirectory
  | invalidText
  | other (reason : String)
deriving DecidableEq, Repr

def ReadError.message : ReadError → String
  | notFound => "No such file or directory (os error 2)"
  | permissionDenied => "Permission denied (os error 13)"
  | notDirectory => "Not a directory (os error 20)"
  | isDirectory => "Is a directory (os error 21)"
  | invalidText => "stream did not contain valid UTF-8"
  | other reason => reason

/-- A source text is UTF-8. -/
def decodeSource (bytes : ByteArray) : Except ReadError String :=
  match String.fromUTF8? bytes with
  | some source => .ok source
  | none => .error .invalidText

/-! ## Output -/

/-- What a run prints, and its exit status. -/
structure Output where
  status : Nat
  out : String := ""
  err : String := ""
deriving DecidableEq, Repr

/-- Text of which every line is ended. -/
def lineText (lines : List String) : String := String.join (lines.map (· ++ "\n"))

/-- The status of a run that found the given problems. -/
def statusOf (problems : List Diagnostic) : Nat := if problems.isEmpty then 0 else 1

/-- A diagnostic with its place in a file. -/
def diagnosticLine (file : String) (lines : LineMap) (d : Diagnostic) : Except Fault String := do
  let place ← lines.locate d.span.start
  return s!"{file}:{place.line}:{place.column}: error: {d.message}"

/-- A token with its place, its kind and its spelling. -/
def tokenLine (lines : LineMap) (t : Token) : Except Fault String := do
  let place ← lines.locate t.span.start
  let line := Text.padLeft 4 (toString place.line)
  let column := Text.padRight 3 (toString place.column)
  return s!"{line}:{column} {Text.padRight 12 t.kind.text} {Text.quoted t.lexeme}"

/-! ## Running -/

def checkSource (file source : String) : Except Fault Output := do
  let compiled ← compile source
  let lines ← compiled.problems.mapM (diagnosticLine file (.ofSource source))
  return { status := statusOf compiled.problems, err := lineText lines }

/-- Checks a source text and prints the feedback as a JSON document. -/
def checkSourceJson (file source : String) : Except Fault Output := do
  let feedback ← (← compile source).feedback file source
  return { status := if feedback.success then 0 else 1, out := lineText [feedback.toJson.render] }

def printSymbols (source : String) : Except Fault Output := do
  let compiled ← compile source
  return { status := statusOf compiled.problems, out := lineText [compiled.table.toJson.render] }

def printTokens (file source : String) : Except Fault Output := do
  let scanned := scan source
  let lines ← scanned.tokens.mapM (tokenLine (.ofSource source))
  return {
    status := statusOf scanned.problems
    out := lineText lines
    err := lineText (scanned.problems.map fun d => s!"{file}: error: {d.message}") }

/-- The program and what it is. -/
def versionText : List String := ["qsc 0.1.0", "Quasicode front end"]

/-- What to do if the arguments do not tell. -/
def usageText : List String :=
  ["Error: No input file specified", "Usage: qsc <FILE> or qsc check <FILE>"]

namespace Command

/-- The file that a command reads. -/
def file? : Command → Option String
  | check file _ | symbols file | tokens file => some file
  | version => none

/-- Runs a command on the text of its file. -/
def runOn (source : String) : Command → Except Fault Output
  | check file false => checkSource file source
  | check file true => checkSourceJson file source
  | symbols _ => printSymbols source
  | tokens file => printTokens file source
  | version => return { status := 0, out := lineText versionText }

/-- Runs a command, given what its file holds. -/
def run (command : Command) (content : Except ReadError ByteArray) : Except Fault Output :=
  match command.file? with
  | none => command.runOn ""
  | some file =>
    match content.bind decodeSource with
    | .ok source => command.runOn source
    | .error reason =>
      return { status := 1, err := lineText [s!"Error: failed to read {file}: {reason.message}"] }

end Command

/-- What is printed if the arguments name no command. -/
def usage : Output := { status := 2, err := lineText usageText }

end Quasicode
