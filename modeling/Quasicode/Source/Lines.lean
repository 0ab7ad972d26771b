import Quasicode.Source.Span

/-! Lines turn character offsets into the one-based line and column that a person reads. Only a newline
ends a line. Positions are held in 32-bit words: the distance into the line is cut to a word before one
is added to it. -/
namespace Quasicode

/-- A one-based line and column. -/
structure Position where
  line : Nat
  column : Nat
deriving DecidableEq, Repr

/-- The offsets at which lines after the first one start, in ascending order. -/
structure LineMap where
  later : List Nat
deriving Repr

namespace LineMap

/-- One more than the offset of every newline in `cs`, whose first character has offset `offset`. -/
def newlineEnds (offset : Nat) : List Char → List Nat
  | [] => []
  | c :: cs =>
    if c = '\n' then (offset + 1) :: newlineEnds (offset + 1) cs else newlineEnds (offset + 1) cs

def ofSource (source : String) : LineMap := ⟨newlineEnds 0 source.toList⟩

/-- The values of a machine word run below this bound. -/
def wordBound : Nat := Nat.pow 2 32

/-- The word after `n`, when `n` is first cut to a word. -/
def succWord (n : Nat) : Except Fault Nat :=
  let word := n % wordBound
  if word + 1 = wordBound then .error .positionOverflow else .ok (word + 1)

/-- The line and column of an offset, which may lie past the end of the source. -/
def locate (lines : LineMap) (offset : Nat) : Except Fault Position := do
  match (0 :: lines.later).takeWhile (· ≤ offset) with
  | [] => throw .beforeFirstLine
  | first :: passed =>
    let line ← succWord passed.length
    let column ← succWord (← Span.length ⟨passed.getLastD first, offset, 0⟩)
    return ⟨line, column⟩

end LineMap

end Quasicode
