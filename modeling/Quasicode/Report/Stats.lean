import Quasicode.Analysis

/-! Figures about a source text and its analysis. -/
namespace Quasicode

structure Stats where
  tokenCount : Nat
  /-- The number of items at the top level. -/
  statementCount : Nat
  /-- The number of all symbols, builtin ones included. -/
  symbolCount : Nat
  /-- The number of classes that are not builtin. -/
  classCount : Nat
  /-- The number of functions, and of methods of classes that are not builtin. -/
  functionCount : Nat
  /-- The number of lines that are not blank. -/
  loc : Nat
deriving DecidableEq, Repr

/-- Counts the lines with a character that is not blank; `seen` tells whether the first line had one. -/
def countLines (seen : Bool) : List Char → Nat
  | [] => seen.toNat
  | '\n' :: cs => seen.toNat + countLines false cs
  | c :: cs => countLines (seen || !Text.isBlank c) cs

namespace Table

def isBuiltinClass (t : Table) (id : SymbolId) : Except Fault Bool := do
  return (← t.get id).class?.any (·.builtin)

/-- Whether a symbol is a function that no builtin class declares. -/
def isOwnFunction (t : Table) (s : Symbol) : Except Fault Bool := do
  match s.method? with
  | some m => return !(← t.isBuiltinClass m.owner)
  | none => return s.function?.isSome

end Table

namespace Compiled

/-- The figures of a compiled source text. -/
def stats (c : Compiled) (source : String) : Except Fault Stats := do
  let symbols := c.table.symbols.toList
  let functions ← symbols.filterM c.table.isOwnFunction
  return {
    tokenCount := c.tokens.length
    statementCount := c.program.items.length
    symbolCount := symbols.length
    classCount := symbols.countP fun s => s.class?.any fun cls => !cls.builtin
    functionCount := functions.length
    loc := countLines false source.toList }

end Compiled

end Quasicode
