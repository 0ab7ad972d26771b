import Mathlib.Logic.Relation
import Quasicode.Proofs.PartitionSets
import Quasicode.Symbol.Table

/-!
The ancestors of a class, and the nearest one that two classes share. Where every class lies one deeper than the
class above it, chains are complete, climbing from the deeper class meets the depth of the other, and from equal
depths the two chains meet at the nearest common ancestor or not at all.
-/
namespace Quasicode.ClassView

open Relation

/-- A class has no superclass and depth one, or a registered superclass and a depth one more. -/
def Placed (view : ClassView) : Prop :=
  ∀ {id link}, view.link id = some link → link.upper = none ∧ link.depth = 1 ∨
    ∃ upper above, link.upper = some upper ∧ view.link upper = some above ∧ link.depth = above.depth + 1

/-- Every class is in its place, and none lies deeper than the view counts. -/
structure Registered (view : ClassView) : Prop where
  placed : view.Placed
  counted : ∀ {id link}, view.link id = some link → link.depth ≤ view.count

/-- `upper` is the superclass of `id`. -/
def Up (view : ClassView) (id upper : SymbolId) : Prop := ∃ link, view.link id = some link ∧ link.upper = some upper

/-- `ancestor` is the class itself or one above it. -/
abbrev Ancestor (view : ClassView) : SymbolId → SymbolId → Prop := ReflTransGen view.Up

/-- An ancestor of both classes that lies below every other one. -/
structure Nearest (view : ClassView) (a b shared : SymbolId) : Prop where
  left : view.Ancestor a shared
  right : view.Ancestor b shared
  below : ∀ {x}, view.Ancestor a x → view.Ancestor b x → view.Ancestor shared x

variable {view : ClassView} {a b id upper x y : SymbolId} {link above : ClassLink} {limit n : Nat}

theorem up_unique (first : view.Up id x) (second : view.Up id y) : x = y := by
  obtain ⟨link, held, upper⟩ := first
  obtain ⟨link', held', upper'⟩ := second
  obtain rfl := Option.some.inj (held.symm.trans held')
  exact Option.some.inj (upper.symm.trans upper')

/-- A class without a superclass is its only ancestor. -/
theorem ancestor_top (held : view.link id = some link) (top : link.upper = none) (path : view.Ancestor id x) :
    x = id := by
  rcases path.cases_head with same | ⟨y, ⟨link', held', up⟩, _⟩
  · exact same.symm
  · obtain rfl := Option.some.inj (held.symm.trans held')
    rw [top] at up
    cases up

/-- The ancestors of a class are the class and those of its superclass. -/
theorem ancestor_up (held : view.link id = some link) (up : link.upper = some upper) :
    view.Ancestor id x ↔ id = x ∨ view.Ancestor upper x := by
  constructor
  · intro path
    rcases path.cases_head with same | ⟨y, step, rest⟩
    · exact .inl same
    · exact .inr (up_unique step ⟨link, held, up⟩ ▸ rest)
  · rintro (rfl | rest)
    · exact .refl
    · exact .head ⟨link, held, up⟩ rest

namespace Registered

variable (registered : view.Registered)
variable {linkA linkB : ClassLink}
include registered

theorem positive (held : view.link id = some link) : 1 ≤ link.depth := by
  rcases registered.placed held with ⟨_, one⟩ | ⟨_, _, _, _, next⟩ <;> omega

theorem top_iff (held : view.link id = some link) : link.upper = none ↔ link.depth = 1 := by
  rcases registered.placed held with ⟨none_, one⟩ | ⟨upper, above, up, heldAbove, next⟩
  · simp [none_, one]
  · have := registered.positive heldAbove
    simp only [up, reduceCtorEq, false_iff]
    omega

/-- The superclass of a class that lies deeper than one. -/
theorem up_deep (held : view.link id = some link) (deep : link.depth = n + 2) :
    ∃ upper above, link.upper = some upper ∧ view.link upper = some above ∧ above.depth = n + 1 := by
  rcases registered.placed held with ⟨_, one⟩ | ⟨upper, above, up, heldAbove, next⟩
  · omega
  · exact ⟨upper, above, up, heldAbove, by omega⟩

/-- An ancestor is registered and lies no deeper; one of the same depth is the class itself. -/
theorem ancestor_depth (held : view.link id = some link) (path : view.Ancestor id x) :
    ∃ above, view.link x = some above ∧ above.depth ≤ link.depth ∧ (above.depth = link.depth → x = id) := by
  induction path with
  | refl => exact ⟨link, held, Nat.le_refl _, fun _ => rfl⟩
  | tail _ step ih =>
    obtain ⟨between, heldBetween, le, _⟩ := ih
    obtain ⟨between', heldBetween', up⟩ := step
    obtain rfl := Option.some.inj (heldBetween.symm.trans heldBetween')
    rcases registered.placed heldBetween with ⟨none_, _⟩ | ⟨upper, above, up', heldAbove, next⟩
    · rw [none_] at up
      cases up
    · obtain rfl := Option.some.inj (up.symm.trans up')
      exact ⟨above, heldAbove, by omega, fun same => by omega⟩

theorem ancestor_level (held : view.link id = some link) (heldX : view.link x = some above)
    (level : above.depth = link.depth) (path : view.Ancestor id x) : x = id := by
  obtain ⟨above', heldX', _, onlySelf⟩ := registered.ancestor_depth held path
  obtain rfl := Option.some.inj (heldX.symm.trans heldX')
  exact onlySelf level

/-- No class is an ancestor of one of its ancestors but itself. -/
theorem ancestor_antisymm (held : view.link a = some link) (up : view.Ancestor a b)
    (down : view.Ancestor b a) : a = b := by
  obtain ⟨above, heldAbove, le, _⟩ := registered.ancestor_depth held up
  obtain ⟨link', held', ge, same⟩ := registered.ancestor_depth heldAbove down
  obtain rfl := Option.some.inj (held.symm.trans held')
  exact same (by omega)

/-! ## Chains -/

/-- Room for more than the depth of a class changes nothing. -/
theorem climb_enough {limit' : Nat} (held : view.link id = some link) (enough : link.depth ≤ limit)
    (enough' : link.depth ≤ limit') : view.climb limit id = view.climb limit' id := by
  have positive := registered.positive held
  induction limit generalizing limit' id link with
  | zero => omega
  | succ limit ih =>
    obtain ⟨limit', rfl⟩ : ∃ k, limit' = k + 1 := ⟨limit' - 1, by omega⟩
    simp only [climb, held]
    rcases registered.placed held with ⟨none_, _⟩ | ⟨upper, above, up, heldAbove, next⟩
    · simp [none_]
    · simp only [up]
      have enoughAbove : above.depth ≤ limit ∧ above.depth ≤ limit' := by omega
      rw [ih heldAbove enoughAbove.1 enoughAbove.2 (registered.positive heldAbove)]

theorem chain_top (held : view.link id = some link) (one : link.depth = 1) : view.chain id = [(id, link)] := by
  have enough := registered.counted held
  obtain ⟨count, isCount⟩ : ∃ k, view.count = k + 1 := ⟨view.count - 1, by omega⟩
  rw [chain, isCount]
  simp [climb, held, (registered.top_iff held).mpr one]

theorem chain_up (held : view.link id = some link) (up : link.upper = some upper)
    (heldAbove : view.link upper = some above) : view.chain id = (id, link) :: view.chain upper := by
  have enough := registered.counted held
  have positive := registered.positive held
  have next : link.depth = above.depth + 1 := by
    rcases registered.placed held with ⟨none_, _⟩ | ⟨upper', above', up', heldAbove', next⟩
    · rw [none_] at up
      cases up
    · obtain rfl := Option.some.inj (up.symm.trans up')
      obtain rfl := Option.some.inj (heldAbove.symm.trans heldAbove')
      exact next
  obtain ⟨count, isCount⟩ : ∃ k, view.count = k + 1 := ⟨view.count - 1, by omega⟩
  have whole := registered.climb_enough heldAbove (by omega : above.depth ≤ count) (registered.counted heldAbove)
  rw [chain, isCount]
  simp only [climb, held, up]
  rw [whole, chain]

/-! ## The nearest common ancestor -/

/-- From equal depths, the chains meet first at the nearest common ancestor, or there is none. -/
theorem firstShared_chain (heldA : view.link a = some linkA)
    (heldB : view.link b = some linkB) (depthA : linkA.depth = n + 1) (depthB : linkB.depth = n + 1) :
    (∃ shared link, firstShared (view.chain a) (view.chain b) = some (shared, link) ∧
      view.link shared = some link ∧ view.Nearest a b shared) ∨
    firstShared (view.chain a) (view.chain b) = none ∧ ∀ x, view.Ancestor a x → ¬ view.Ancestor b x := by
  induction n generalizing a b linkA linkB with
  | zero =>
    rw [registered.chain_top heldA depthA, registered.chain_top heldB depthB]
    by_cases same : a = b
    · subst same
      exact .inl ⟨a, linkA, by simp [firstShared], heldA, .refl, .refl, fun path _ => path⟩
    · refine .inr ⟨by simp [firstShared, same], fun x left right => same ?_⟩
      rw [← ancestor_top heldA ((registered.top_iff heldA).mpr depthA) left,
        ← ancestor_top heldB ((registered.top_iff heldB).mpr depthB) right]
  | succ n ih =>
    obtain ⟨upperA, aboveA, upA, heldAboveA, nextA⟩ := registered.up_deep heldA depthA
    obtain ⟨upperB, aboveB, upB, heldAboveB, nextB⟩ := registered.up_deep heldB depthB
    rw [registered.chain_up heldA upA heldAboveA, registered.chain_up heldB upB heldAboveB]
    by_cases same : a = b
    · subst same
      exact .inl ⟨a, linkA, by simp [firstShared], heldA, .refl, .refl, fun path _ => path⟩
    · simp only [firstShared, same, if_false]
      -- Two classes at one depth are no ancestors of each other, so what they share lies above both.
      have shared {x : SymbolId} (left : view.Ancestor a x) (right : view.Ancestor b x) :
          view.Ancestor upperA x ∧ view.Ancestor upperB x := by
        constructor
        · rcases (ancestor_up heldA upA).mp left with rfl | rest
          · exact absurd (registered.ancestor_level heldB heldA (by omega) right) same
          · exact rest
        · rcases (ancestor_up heldB upB).mp right with rfl | rest
          · exact absurd (registered.ancestor_level heldA heldB (by omega) left) (Ne.symm same)
          · exact rest
      rcases ih heldAboveA heldAboveB nextA nextB with ⟨found, link, isFirst, held, nearest⟩ | ⟨none_, apart⟩
      · refine .inl ⟨found, link, isFirst, held, ?_, ?_, fun left right => ?_⟩
        · exact (ancestor_up heldA upA).mpr (.inr nearest.left)
        · exact (ancestor_up heldB upB).mpr (.inr nearest.right)
        · obtain ⟨left, right⟩ := shared left right
          exact nearest.below left right
      · refine .inr ⟨none_, fun x left right => ?_⟩
        obtain ⟨left, right⟩ := shared left right
        exact apart x left right

/-- Climbing stops at the ancestor that lies at the wanted depth. -/
theorem dropWhile_chain {depth : Nat} (held : view.link id = some link) (wanted : depth + 1 ≤ link.depth) :
    ∃ ancestor above rest,
      ((view.chain id).dropWhile fun (_, link) => depth + 1 < link.depth) = (ancestor, above) :: rest ∧
      view.Ancestor id ancestor ∧ view.link ancestor = some above ∧ above.depth = depth + 1 := by
  obtain ⟨more, isMore⟩ : ∃ k, link.depth = depth + 1 + k := ⟨link.depth - (depth + 1), by omega⟩
  induction more generalizing id link with
  | zero =>
    have stays : ∃ rest, view.chain id = (id, link) :: rest := by
      rcases registered.placed held with ⟨_, one⟩ | ⟨upper, above, up, heldAbove, _⟩
      · exact ⟨[], registered.chain_top held one⟩
      · exact ⟨_, registered.chain_up held up heldAbove⟩
    obtain ⟨rest, chain_⟩ := stays
    exact ⟨id, link, rest, by simp [chain_, isMore], .refl, held, by omega⟩
  | succ more ih =>
    obtain ⟨upper, above, up, heldAbove, next⟩ :=
      registered.up_deep held (by omega : link.depth = (depth + more) + 2)
    obtain ⟨ancestor, link', rest, drops, path, held', depth'⟩ := ih heldAbove (by omega) (by omega)
    refine ⟨ancestor, link', rest, ?_, .head ⟨link, held, up⟩ path, held', depth'⟩
    have deeper : depth + 1 < link.depth := by omega
    rw [registered.chain_up held up heldAbove, List.dropWhile_cons_of_pos (by simpa using deeper)]
    exact drops

/-- **Meeting.** The nearest common ancestor is found wherever there is one, and no depths are uneven. -/
theorem meetFrom_nearest (heldA : view.link a = some linkA) (heldB : view.link b = some linkB)
    (deeper : linkB.depth ≤ linkA.depth) :
    (∃ shared link, view.meetFrom a b linkB.depth = .ok (some (shared, link)) ∧
      view.link shared = some link ∧ view.Nearest a b shared) ∨
    view.meetFrom a b linkB.depth = .ok none ∧ ∀ x, view.Ancestor a x → ¬ view.Ancestor b x := by
  have positive := registered.positive heldB
  obtain ⟨depth, isDepth⟩ : ∃ k, linkB.depth = k + 1 := ⟨linkB.depth - 1, by omega⟩
  obtain ⟨ancestor, above, rest, drops, path, held, depth'⟩ :=
    registered.dropWhile_chain heldA (by omega : depth + 1 ≤ linkA.depth)
  have meets : view.meetFrom a b linkB.depth = .ok (firstShared (view.chain ancestor) (view.chain b)) := by
    unfold meetFrom
    rw [isDepth, drops]
    simp [depth']
  -- What `a` shares with `b` lies no deeper than `b`, so it lies above the ancestor of `a` at that depth.
  have through {x : SymbolId} (left : view.Ancestor a x) (right : view.Ancestor b x) :
      view.Ancestor ancestor x := by
    have unique : Relator.RightUnique view.Up := fun _ _ _ first second => up_unique first second
    rcases ReflTransGen.total_of_right_unique unique path left with after | before
    · exact after
    · obtain ⟨linkX, heldX, le, _⟩ := registered.ancestor_depth heldB right
      obtain ⟨above', held', ge, _⟩ := registered.ancestor_depth heldX before
      obtain rfl := Option.some.inj (held.symm.trans held')
      exact registered.ancestor_level heldX held (by omega) before ▸ .refl
  rw [meets]
  rcases registered.firstShared_chain held heldB depth' isDepth with
    ⟨shared, link, isFirst, heldShared, nearest⟩ | ⟨none_, apart⟩
  · exact .inl ⟨shared, link, by rw [isFirst], heldShared, path.trans nearest.left, nearest.right,
      fun left right => nearest.below (through left right) right⟩
  · exact .inr ⟨by rw [none_], fun x left right => apart x (through left right) right⟩

theorem meet_nearest (heldA : view.link a = some linkA) (heldB : view.link b = some linkB) :
    (∃ shared link, view.meet a b = .ok (some (shared, link)) ∧
      view.link shared = some link ∧ view.Nearest a b shared) ∨
    view.meet a b = .ok none ∧ ∀ x, view.Ancestor a x → ¬ view.Ancestor b x := by
  simp only [meet, heldA, heldB]
  split
  · rename_i shallower
    rcases registered.meetFrom_nearest heldB heldA (by omega) with
      ⟨shared, link, isMeet, held, nearest⟩ | ⟨none_, apart⟩
    · exact .inl ⟨shared, link, isMeet, held, nearest.right, nearest.left,
        fun left right => nearest.below right left⟩
    · exact .inr ⟨none_, fun x left right => apart x right left⟩
  · rename_i deeper
    exact registered.meetFrom_nearest heldA heldB (by omega)

end Registered

/-! ## The classes of a table -/

/-- Every smaller depth is that of an ancestor. -/
theorem Placed.shallower (placed : view.Placed) (held : view.link id = some link) (smaller : n < link.depth) :
    ∃ ancestor above, view.link ancestor = some above ∧ above.depth = n + 1 := by
  obtain ⟨more, isMore⟩ : ∃ k, link.depth = n + 1 + k := ⟨link.depth - (n + 1), by omega⟩
  induction more generalizing id link with
  | zero => exact ⟨id, link, held, by omega⟩
  | succ more ih =>
    rcases placed held with ⟨_, one⟩ | ⟨upper, above, _, heldAbove, next⟩
    · omega
    · exact ih heldAbove (by omega) (by omega)

/-- A table has a symbol for every class, so it has no more depths than symbols. -/
theorem registered_classes {t : Table} (placed : t.classes.Placed) : t.classes.Registered := by
  refine ⟨placed, fun {id link} held => ?_⟩
  refine levels_bound (P := fun i x => ∃ link, t.classLink ⟨x⟩ = some link ∧ link.depth = i + 1)
    (fun i lt => ?_) ?_
  · obtain ⟨ancestor, above, heldAbove, depth⟩ := placed.shallower held lt
    refine ⟨ancestor.index, ?_, above, heldAbove, depth⟩
    obtain ⟨sym, found, _⟩ := Option.bind_eq_some_iff.mp heldAbove
    exact (Array.getElem?_eq_some_iff.mp found).1
  · rintro i j x ⟨link, held, depth⟩ ⟨link', held', depth'⟩
    obtain rfl := Option.some.inj (held.symm.trans held')
    omega

end Quasicode.ClassView
