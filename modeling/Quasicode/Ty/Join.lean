import Quasicode.Fault
import Quasicode.Ty

/-!
The join of two types is the least type that both widen to: `int` widens to `double`, an array with its
elements, a class to its ancestors, and everything else to `any`. What is needed of the classes is a view:
the class declared under a signature, and the link from a class to the one above it.

Ancestors are found at equal depths. The deeper class first climbs to the depth of the other, and from
there both climb together until they meet.
-/
namespace Quasicode

/-- One class in an inheritance chain. -/
structure ClassLink where
  name : String
  /-- The number of classes from the top of the chain down to this one. -/
  depth : Nat
  upper : Option SymbolId
deriving DecidableEq, Repr

/-- What the join of types needs to know about the declared classes. -/
structure ClassView where
  bySignature : String → Option SymbolId
  /-- The link of a class; `none` for what is no class or has no place in a chain yet. -/
  link : SymbolId → Option ClassLink
  /-- No chain has more classes than this. -/
  count : Nat

namespace ClassView

/-- A class and its ancestors, nearest first, at most `limit` of them. -/
def climb (view : ClassView) : Nat → SymbolId → List (SymbolId × ClassLink)
  | 0, _ => []
  | limit + 1, id =>
    match view.link id with
    | none => []
    | some link =>
      (id, link) :: match link.upper with
        | none => []
        | some upper => climb view limit upper

/-- A class and all its ancestors, nearest first. -/
def chain (view : ClassView) (id : SymbolId) : List (SymbolId × ClassLink) :=
  view.climb view.count id

/-- The first class at which two chains stand at the same place. -/
def firstShared :
    List (SymbolId × ClassLink) → List (SymbolId × ClassLink) → Option (SymbolId × ClassLink)
  | (a, link) :: as, (b, _) :: bs => if a = b then some (a, link) else firstShared as bs
  | _, _ => none

/-- The nearest common ancestor, when the first class is at least as deep as the second. -/
def meetFrom (view : ClassView) (deep shallow : SymbolId) (depth : Nat) :
    Except Fault (Option (SymbolId × ClassLink)) :=
  match (view.chain deep).dropWhile fun (_, link) => depth < link.depth with
  | [] => .ok none
  | (id, link) :: _ =>
    if link.depth = depth then .ok (firstShared (view.chain id) (view.chain shallow))
    else .error .unevenDepths

/-- The nearest common ancestor of two classes, if they have one. -/
def meet (view : ClassView) (a b : SymbolId) : Except Fault (Option (SymbolId × ClassLink)) :=
  match view.link a, view.link b with
  | some aLink, some bLink =>
    if aLink.depth < bLink.depth then view.meetFrom b a aLink.depth
    else view.meetFrom a b bLink.depth
  | _, _ => .ok none

end ClassView

namespace Ty

/-- The least type that both types widen to. An error stays an error, and nothing is gained from a void. -/
def join (view : ClassView) (a b : Ty) : Except Fault Ty :=
  if a.isError || b.isError then .ok .error
  else if a.isVoid || b.isVoid then .ok .void
  else if a == b then .ok a
  else if a.isAny || b.isAny then .ok .any
  else
    match a, b with
    | int, double => .ok .double
    | double, int => .ok .double
    | array x, array y => do return .array (← join view x y)
    | ofClass _ x, ofClass _ y => do
      match ← view.meet x y with
      | some (id, link) => return .ofClass link.name id
      | none => return .any
    | _, _ => .ok .any

end Ty

end Quasicode
