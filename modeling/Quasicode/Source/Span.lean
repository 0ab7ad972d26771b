import Quasicode.Fault

/-! Spans are ranges of character offsets in one source file. They order nothing and promise nothing:
a merged span covers both of its parts, and only the length asks that a span runs forwards. -/
namespace Quasicode

/-- The characters from `start` up to, and without, `stop` of the file numbered `file`. -/
structure Span where
  start : Nat
  stop : Nat
  file : Nat := 0
deriving DecidableEq, Repr, Inhabited

namespace Span

/-- The span of declarations that no source text holds. -/
def none : Span := ⟨0, 0, 0⟩

/-- The least span that covers both; the file is that of the first. -/
def merge (a b : Span) : Span :=
  ⟨min a.start b.start, max a.stop b.stop, a.file⟩

/-- The number of characters covered. -/
def length (s : Span) : Except Fault Nat :=
  if s.stop < s.start then .error .reversedSpan else .ok (s.stop - s.start)

def isEmpty (s : Span) : Bool := s.start == s.stop

@[simp] theorem merge_start (a b : Span) : (a.merge b).start = min a.start b.start := rfl

@[simp] theorem merge_stop (a b : Span) : (a.merge b).stop = max a.stop b.stop := rfl

end Span

end Quasicode
