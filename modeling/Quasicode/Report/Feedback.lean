import Quasicode.Report.Stats
import Quasicode.Report.Suggestion
import Quasicode.Source.Lines
import Quasicode.Text.Json

/-! Feedback: everything that is to be said about one source file, and its JSON document. -/
namespace Quasicode

inductive Severity where
  | error
  | warning
deriving DecidableEq, Repr

def Severity.text : Severity → String
  | error => "Error"
  | warning => "Warning"

/-- A place in a file, from its first line and column to the one after its last. -/
structure Location where
  file : String
  start : Position
  stop : Position

/-- One problem as it is reported. -/
structure ProblemReport where
  code : String
  severity : Severity
  message : String
  location : Option Location
  suggestions : List Suggestion

structure Feedback where
  success : Bool
  sourceFile : String
  reports : List ProblemReport
  stats : Stats

def Location.ofSpan (file : String) (lines : LineMap) (span : Span) : Except Fault Location := do
  return { file, start := ← lines.locate span.start, stop := ← lines.locate span.stop }

/-- The report of a problem in a file, the most likely suggestion first. -/
def Problem.report (file : String) (lines : LineMap) (problem : Problem) :
    Except Fault ProblemReport := do
  return {
    code := problem.code
    severity := .error
    message := problem.message
    location := ← problem.span?.mapM (Location.ofSpan file lines)
    suggestions := sortSuggestions problem.suggestions }

/-- The feedback on a source text; it is a success if there are no problems. -/
def Feedback.ofProblems (file source : String) (problems : List Problem) (stats : Stats) :
    Except Fault Feedback := do
  let reports ← problems.mapM (Problem.report file (.ofSource source))
  return { success := reports.isEmpty, sourceFile := file, reports, stats }

/-- The feedback on a compiled source text. -/
def Compiled.feedback (c : Compiled) (file source : String) : Except Fault Feedback := do
  Feedback.ofProblems file source (c.problems.map Problem.inSource) (← c.stats source)

/-! ## The document -/

def Location.toJson (l : Location) : Json := .object [
  ("file", .string l.file),
  ("line", .nat l.start.line),
  ("column", .nat l.start.column),
  ("end_line", .nat l.stop.line),
  ("end_column", .nat l.stop.column)]

def Suggestion.toJson (s : Suggestion) : Json := .object [
  ("message", .string s.message),
  ("confidence", .number s.confidence.text)]

/-- A report without suggestions has no field for them. -/
def ProblemReport.toJson (r : ProblemReport) : Json := .object ([
  ("code", .string r.code),
  ("severity", .string r.severity.text),
  ("message", .string r.message),
  ("location", .optional Location.toJson r.location)] ++
  if r.suggestions.isEmpty then [] else [("suggestions", .list Suggestion.toJson r.suggestions)])

def Stats.toJson (s : Stats) : Json := .object [
  ("token_count", .nat s.tokenCount),
  ("statement_count", .nat s.statementCount),
  ("symbol_count", .nat s.symbolCount),
  ("class_count", .nat s.classCount),
  ("function_count", .nat s.functionCount),
  ("loc", .nat s.loc)]

def Feedback.toJson (f : Feedback) : Json := .object [
  ("success", .bool f.success),
  ("source_file", .string f.sourceFile),
  ("diagnostics", .list ProblemReport.toJson f.reports),
  ("stats", f.stats.toJson)]

end Quasicode
