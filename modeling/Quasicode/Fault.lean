/-!
Faults are broken preconditions of the library's own operations: a scope or symbol id that was never
handed out, a span that runs backwards, a walk over links that never ends. A fault is not a diagnostic.
Diagnostics are about the analyzed program and are collected; a fault ends the computation that meets it.
-/
namespace Quasicode

/-- The preconditions that an operation can find broken. -/
inductive Fault where
  /-- A scope id that names no scope. -/
  | missingScope
  /-- A symbol id that names no symbol. -/
  | missingSymbol
  /-- The root scope was to be placed under another scope. -/
  | rootMoved
  /-- An overload key is bound to something that is not an overload set. -/
  | notOverloads
  /-- An inheritance edge leaves a symbol that is not a class. -/
  | notClass
  /-- Two class chains that should have met at one depth did not. -/
  | unevenDepths
  /-- A template parameter was met outside an instantiation. -/
  | templateParameter
  /-- A global names a defining statement that is not an assignment. -/
  | missingSite
  /-- A span ends before it starts. -/
  | reversedSpan
  /-- A line or column does not fit in a machine word. -/
  | positionOverflow
  /-- An element outside a partition. -/
  | missingElement
  /-- A token list that does not close with the end of the file. -/
  | unfinishedTokens
  /-- A token binds its operands but writes no operator. -/
  | notOperator
  /-- A block was left that had not been entered. -/
  | unopenedBlock
  /-- An offset before the first line. -/
  | beforeFirstLine
  /-- A walk over links went on for longer than there are nodes. -/
  | endless
deriving DecidableEq, Repr

end Quasicode
