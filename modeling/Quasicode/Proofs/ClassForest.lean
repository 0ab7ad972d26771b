import Quasicode.Proofs.HierarchyAttach

/-!
The classes of a table as a forest. Where no class lies above itself, going up from a class ends at one without a
superclass, and the number of classes on the way is its depth.
-/
namespace Quasicode

open Relation

namespace Table

/-- The class `c` has the superclass `d`. -/
def Under (t : Table) (c d : SymbolId) : Prop := ∃ k, t.class? c = some k ∧ k.upper = some d

/-- The superclasses lead to classes and never back, and every class knows the classes below it. -/
structure Forest (t : Table) : Prop where
  closed : ∀ {c d}, t.Under c d → (t.class? d).isSome
  acyclic : ∀ c, ¬ TransGen t.Under c c
  children : ∀ {c d u}, t.class? d = some u → (c ∈ u.children ↔ t.Under c d)
  distinct : ∀ {d u}, t.class? d = some u → u.children.Nodup

/-- `DepthOf t c n`: there are `n` classes from the top down to `c`. -/
inductive DepthOf (t : Table) : SymbolId → Nat → Prop where
  | root {c : SymbolId} {k : ClassSymbol} : t.class? c = some k → k.upper = none → DepthOf t c 1
  | step {c d : SymbolId} {n : Nat} : t.Under c d → DepthOf t d n → DepthOf t c (n + 1)

variable {t t' : Table} {c d x : SymbolId} {m n : Nat} {k : ClassSymbol}

theorem under_unique (first : t.Under c d) (second : t.Under c x) : d = x := by
  obtain ⟨k, held, upper⟩ := first
  obtain ⟨k', held', upper'⟩ := second
  rw [held] at held'
  cases held'
  exact Option.some.inj (upper.symm.trans upper')

theorem depth_unique (first : t.DepthOf c m) (second : t.DepthOf c n) : m = n := by
  induction first generalizing n with
  | root held top =>
    cases second with
    | root _ _ => rfl
    | step under _ =>
      obtain ⟨k, held', upper⟩ := under
      rw [held] at held'
      cases held'
      rw [top] at upper
      cases upper
  | step under _ ih =>
    cases second with
    | root held' top =>
      obtain ⟨k, held, upper⟩ := under
      rw [held] at held'
      cases held'
      rw [top] at upper
      cases upper
    | step under' rest =>
      obtain rfl := under_unique under under'
      rw [ih rest]

/-- The depth of a class by its superclass. -/
theorem depth_upper (held : t.class? c = some k) (depth : t.DepthOf c n) :
    (k.upper = none → n = 1) ∧ ∀ d, k.upper = some d → ∃ m, t.DepthOf d m ∧ n = m + 1 := by
  cases depth with
  | root held' top =>
    obtain rfl := Option.some.inj (held.symm.trans held')
    simp [top]
  | step under rest =>
    obtain ⟨k', held', upper⟩ := under
    obtain rfl := Option.some.inj (held.symm.trans held')
    refine ⟨by simp [upper], fun d' upper' => ?_⟩
    obtain rfl := Option.some.inj (upper.symm.trans upper')
    exact ⟨_, rest, rfl⟩

theorem depth_class (depth : t.DepthOf c n) : (t.class? c).isSome := by
  cases depth with
  | root held _ => simp [held]
  | step under _ =>
    obtain ⟨k, held, _⟩ := under
    simp [held]

theorem depth_positive (depth : t.DepthOf c n) : 1 ≤ n := by
  cases depth <;> omega

theorem class_bound (isClass : (t.class? c).isSome) : c.index < t.symbols.size := by
  obtain ⟨k, held⟩ := Option.isSome_iff_exists.mp isClass
  obtain ⟨s, found, _⟩ := class_symbol held
  exact symbol_bound found

/-- Every smaller depth is that of a class above. -/
theorem depth_smaller (depth : t.DepthOf c n) : ∀ i < n, ∃ x, t.DepthOf x (i + 1) := by
  induction depth with
  | root held top =>
    intro i lt
    obtain rfl := Nat.lt_one_iff.mp lt
    exact ⟨_, .root held top⟩
  | step under rest ih =>
    intro i lt
    rcases Nat.lt_or_eq_of_le (Nat.le_of_lt_succ lt) with lt | rfl
    · exact ih i lt
    · exact ⟨_, .step under rest⟩

/-- No class lies deeper than there are symbols. -/
theorem depth_bound (depth : t.DepthOf c n) : n ≤ t.symbols.size := by
  refine levels_bound (P := fun i x => t.DepthOf ⟨x⟩ (i + 1)) (fun i lt => ?_) fun first second =>
    Nat.succ.inj (depth_unique first second)
  obtain ⟨x, smaller⟩ := depth_smaller depth i lt
  exact ⟨x.index, class_bound (depth_class smaller), smaller⟩

namespace Forest

variable (forest : t.Forest)
include forest

theorem depth_exists (isClass : (t.class? c).isSome) : ∃ n, t.DepthOf c n := by
  have bound := class_bound isClass
  have claim : ∀ i : Fin t.symbols.size, (t.class? ⟨i⟩).isSome → ∃ n, t.DepthOf ⟨i⟩ n := by
    intro i
    induction i using (acyclic_wellFounded (fun i : Fin t.symbols.size => SymbolId.mk i) forest.acyclic).induction with
    | _ i ih =>
      intro isClass
      obtain ⟨k, held⟩ := Option.isSome_iff_exists.mp isClass
      cases upper : k.upper with
      | none => exact ⟨1, .root held upper⟩
      | some d =>
        have under : t.Under ⟨i⟩ d := ⟨k, held, upper⟩
        have isSuper := forest.closed under
        obtain ⟨n, depth⟩ := ih ⟨d.index, class_bound isSuper⟩ (.single under) isSuper
        exact ⟨n + 1, .step under depth⟩
  exact claim ⟨c.index, bound⟩ isClass

/-- Every class lies below one without a superclass. -/
theorem root_above (isClass : (t.class? c).isSome) :
    ∃ r, ReflTransGen t.Under c r ∧ t.DepthOf r 1 := by
  obtain ⟨n, depth⟩ := forest.depth_exists isClass
  induction depth with
  | root held top => exact ⟨_, .refl, .root held top⟩
  | step under rest ih =>
    obtain ⟨r, path, top⟩ := ih (depth_class rest)
    exact ⟨r, .head under path, top⟩

end Forest

/-! ## Tables with the same links -/

/-- The classes of both tables are linked in the same way. -/
def SameLinks (t t' : Table) : Prop :=
  ∀ id, (t'.class? id).map (fun k => (k.upper, k.children)) = (t.class? id).map fun k => (k.upper, k.children)

namespace SameLinks

variable (same : SameLinks t t')
include same

theorem symm : SameLinks t' t := fun id => (same id).symm

theorem class_linked (held : t.class? c = some k) : ∃ k', t'.class? c = some k' ∧ k'.upper = k.upper ∧
    k'.children = k.children := by
  have links := same c
  rw [held] at links
  obtain ⟨k', held', linksEq⟩ := Option.map_eq_some_iff.mp links
  exact ⟨k', held', congrArg Prod.fst linksEq, congrArg Prod.snd linksEq⟩

theorem under (up : t.Under c d) : t'.Under c d := by
  obtain ⟨k, held, upper⟩ := up
  obtain ⟨k', held', sameUpper, _⟩ := same.class_linked held
  exact ⟨k', held', sameUpper.trans upper⟩

theorem under_iff : t'.Under c d ↔ t.Under c d := ⟨same.symm.under, same.under⟩

theorem depthOf (depth : t.DepthOf c n) : t'.DepthOf c n := by
  induction depth with
  | root held top =>
    obtain ⟨k', held', sameUpper, _⟩ := same.class_linked held
    exact .root held' (sameUpper.trans top)
  | step up _ ih => exact .step (same.under up) ih

theorem forest (forest : t.Forest) : t'.Forest := by
  refine ⟨fun {c d} up => ?_, fun c cycle => ?_, fun {c d u} held => ?_, fun {d u} held => ?_⟩
  · obtain ⟨k, held⟩ := Option.isSome_iff_exists.mp (forest.closed (same.symm.under up))
    obtain ⟨k', held', _⟩ := same.class_linked held
    simp [held']
  · exact forest.acyclic c (TransGen.mono (fun _ _ => same.symm.under) _ _ cycle)
  · obtain ⟨k, held', _, sameChildren⟩ := same.symm.class_linked held
    rw [same.under_iff, ← sameChildren]
    exact forest.children held'
  · obtain ⟨k, held', _, sameChildren⟩ := same.symm.class_linked held
    exact sameChildren ▸ forest.distinct held'

end SameLinks

end Table

end Quasicode
