import Quasicode.Diagnostic

/-! What can be reported about a run: a diagnostic of the source text, or that a text could not be read. -/
namespace Quasicode

inductive Problem where
  | inSource (diagnostic : Diagnostic)
  | io (reason : String)
deriving DecidableEq, Repr

namespace Problem

def message : Problem → String
  | inSource d => d.message
  | io reason => "IO error: " ++ reason

def code : Problem → String
  | inSource d => d.cause.code
  | io _ => "E0901"

def phase : Problem → Phase
  | inSource d => d.cause.phase
  | io _ => .surroundings

/-- The place of a problem in the source text. -/
def span? : Problem → Option Span
  | inSource d => some d.span
  | io _ => none

end Problem

end Quasicode
