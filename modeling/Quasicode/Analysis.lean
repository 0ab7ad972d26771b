import Quasicode.Binding.Program
import Quasicode.Flow.Init
import Quasicode.Flow.Return
import Quasicode.Parse.Program
import Quasicode.Token.Scan
import Quasicode.Typing.Program

/-!
The whole analysis of a program: binding, typing, and the checks of control flow. Every part reports and
goes on, so that one run collects all diagnostics. A table carries over from one program to the next.
-/
namespace Quasicode

/-- What the analysis of a program yields. -/
structure Analyzed where
  program : Program
  /-- The globals of the program in the order of their initialization. -/
  order : List SymbolId
  problems : List Diagnostic
  table : Table

/-- All parts of the analysis, one after the other. -/
def analysis (program : Program) : Analysis (Program × List SymbolId) := do
  let (program, order) ← Binding.bind program
  let program ← Typing.typeProgram program order
  Flow.checkProgramReturns program
  Flow.checkProgramInit program
  return (program, order)

/-- Analyzes a program with the symbols of a table. -/
def analyze (table : Table) (program : Program) : Except Fault Analyzed := do
  let ((program, order), state) ← (analysis program).run { table := table.resetToRoot }
  return { program, order, problems := state.problems, table := state.table }

/-- The table with which the analysis of the first program begins. -/
def Table.initial : Except Fault Table := do
  return (← Builtin.declare .empty).2

/-- What a whole source text yields. -/
structure Compiled where
  tokens : List Token
  program : Program
  order : List SymbolId
  problems : List Diagnostic
  table : Table

/-- Reads and analyzes a source text on its own. -/
def compile (source : String) : Except Fault Compiled := do
  let scanned := scan source
  let parsed ← parse scanned.tokens Builtin.classNames
  let analyzed ← analyze (← Table.initial) parsed.program
  return {
    tokens := scanned.tokens
    program := analyzed.program
    order := analyzed.order
    problems := scanned.problems ++ parsed.problems ++ analyzed.problems
    table := analyzed.table }

/-- Reads and analyzes a source text after others whose symbols a table holds. -/
def analyzeSource (classNames : List String) (table : Table) (source : String) :
    Except Fault Analyzed := do
  let parsed ← parse (scan source).tokens (Builtin.classNames ++ classNames)
  analyze table parsed.program

/-- Analyzes source texts one after the other, each with the symbols of those before it. -/
def analyzeAll (classNames : List String) : Table → List String → Except Fault (List Analyzed)
  | _, [] => return []
  | table, source :: sources => do
    let analyzed ← analyzeSource classNames table source
    return analyzed :: (← analyzeAll classNames analyzed.table sources)

end Quasicode
