import Quasicode.Fault

/-!
Partitions of the numbers below a bound into disjoint sets. Every number points to another of its set or, if
it stands for the set, to itself. Looking a number up makes it, and those on the way, point straight at the
one that stands for the set.
-/
namespace Quasicode

structure Partition where
  parent : Array Nat
deriving Repr

namespace Partition

/-- Every number below `size` in a set of its own. -/
def discrete (size : Nat) : Partition := ⟨(List.range size).toArray⟩

/-- Follows the pointers from `x`, at most `limit` of them. -/
def rootWithin (p : Partition) : Nat → Nat → Except Fault Nat
  | 0, _ => .error .endless
  | limit + 1, x =>
    match p.parent[x]? with
    | none => .error .missingElement
    | some up => if up = x then .ok x else p.rootWithin limit up

/-- The number that stands for the set of `x`. -/
def root (p : Partition) (x : Nat) : Except Fault Nat := p.rootWithin (p.parent.size + 1) x

/-- Points `x` and those above it straight at `root`. -/
def compressWithin (root : Nat) : Nat → Nat → Partition → Partition
  | 0, _, p => p
  | limit + 1, x, p =>
    match p.parent[x]? with
    | none => p
    | some up =>
      if up = root then p
      else compressWithin root limit up ⟨p.parent.setIfInBounds x root⟩

/-- The number that stands for the set of `x`, and the partition with the way to it shortened. -/
def find (p : Partition) (x : Nat) : Except Fault (Nat × Partition) := do
  let root ← p.root x
  return (root, compressWithin root p.parent.size x p)

/-- Merges the sets of `a` and `b`; the one that stands for the set of `a` stands for both. The answer is
false if they were one set before. -/
def unite (p : Partition) (a b : Nat) : Except Fault (Bool × Partition) := do
  let (rootA, p) ← p.find a
  let (rootB, p) ← p.find b
  if rootA = rootB then
    return (false, p)
  else
    return (true, ⟨p.parent.setIfInBounds rootB rootA⟩)

/-- Whether `a` and `b` are in one set. -/
def same (p : Partition) (a b : Nat) : Except Fault (Bool × Partition) := do
  let (rootA, p) ← p.find a
  let (rootB, p) ← p.find b
  return (rootA == rootB, p)

end Partition

end Quasicode
