import Quasicode.Proofs.ClassForest

/-!
The run that gives every class its depth. From the classes without a superclass it goes down along the children;
it reaches every class, and the bound on its levels is never met because no class lies deeper than there are
symbols.
-/
namespace Quasicode.Hierarchy

open Relation Analysis

variable {kept : List Edge} {t t' : Table} {c d id x : SymbolId} {n limit : Nat}
variable {depths : SymbolId → Option Nat}

/-! ## The forest of the kept edges -/

theorem linked_class (linked : Linked kept t t') :
    t'.class? id = (t.class? id).map fun c => { c with upper := upperIn kept id, children := childrenIn kept id } :=
  linked.edited.class_mapped id

/-- The superclasses in a linked table are those of the kept edges. -/
theorem under_iff (linked : Linked kept t t') (once : (kept.map Edge.cls).Nodup)
    (classes : ∀ e ∈ kept, IsClass t e.cls) : t'.Under c d ↔ Extends kept c d := by
  unfold Table.Under
  rw [linked_class linked, ← upperIn_eq_some_iff once]
  constructor
  · rintro ⟨k, held, upper⟩
    obtain ⟨k', _, rfl⟩ := Option.map_eq_some_iff.mp held
    exact upper
  · intro upper
    obtain ⟨e, member, rfl, _⟩ := extends_upperIn upper
    obtain ⟨k, held⟩ := Option.isSome_iff_exists.mp (classes e member)
    exact ⟨_, by rw [held]; rfl, upper⟩

theorem linked_forest (linked : Linked kept t t') (once : (kept.map Edge.cls).Nodup)
    (classes : ∀ e ∈ kept, IsClass t e.cls) (supers : ∀ e ∈ kept, ∀ s, e.superclass = some s → IsClass t s)
    (acyclic : Acyclic kept) : t'.Forest := by
  have under {c d : SymbolId} : t'.Under c d ↔ Extends kept c d := under_iff linked once classes
  have children {d : SymbolId} {u : ClassSymbol} (held : t'.class? d = some u) :
      u.children = childrenIn kept d := by
    rw [linked_class linked] at held
    obtain ⟨u', _, rfl⟩ := Option.map_eq_some_iff.mp held
    rfl
  refine ⟨?_, ?_, ?_, ?_⟩
  · intro c d up
    obtain ⟨e, member, _, super⟩ := under.mp up
    rw [linked_class linked, Option.isSome_map]
    exact supers e member d super
  · intro c cycle
    exact acyclic c (TransGen.mono (fun _ _ => under.mp) _ _ cycle)
  · intro c d u held
    rw [children held, mem_childrenIn, under]
  · intro d u held
    rw [children held]
    exact childrenIn_nodup once

/-! ## The run -/

/-- Gives a class a depth, or takes it away. -/
def setDepth (depth : Option Nat) : SymbolKind → SymbolKind := SymbolKind.mapClass fun c => { c with depth }

/-- Between `t` and `t'` every class has been given the depth that `depths` tells. -/
structure Deep (depths : SymbolId → Option Nat) (t t' : Table) : Prop where
  edited : Table.Edited (fun id => setDepth (depths id)) t t'
  scopes : t'.scopes = t.scopes

theorem deep_class (deep : Deep depths t t') :
    t'.class? id = (t.class? id).map fun c => { c with depth := depths id } :=
  deep.edited.class_mapped id

theorem deep_refl (t : Table) : Deep (fun id => (t.class? id).bind ClassSymbol.depth) t t := by
  refine ⟨(Table.Edited.refl t).congr fun id sym held => ?_, rfl⟩
  cases kind : sym.kind <;>
    simp [Table.class?, held, Symbol.class?, kind, SymbolKind.class?, setDepth, SymbolKind.mapClass]

theorem Deep.set (deep : Deep depths t t') (id : SymbolId) (n : Nat) :
    Deep (fun x => if x = id then some n else depths x) t (t'.edit id (setDepth (some n))) := by
  refine ⟨(deep.edited.trans (Table.Edited.edit t' id (setDepth (some n)))).congr fun x sym _ => ?_, deep.scopes⟩
  by_cases same : x = id <;> simp [same, setDepth, SymbolKind.mapClass_mapClass]

/-- `Descends t r x n`: the class `x` lies `n` steps below `r`. -/
inductive Descends (t : Table) (r : SymbolId) : SymbolId → Nat → Prop where
  | here : Descends t r r 0
  | step {x y : SymbolId} {n : Nat} : t.Under x y → Descends t r y n → Descends t r x (n + 1)

namespace Descends

variable {r : SymbolId} {m : Nat}

theorem depth (descends : Descends t r x n) (depth : t.DepthOf r m) : t.DepthOf x (m + n) := by
  induction descends with
  | here => exact depth
  | step up _ ih => exact .step up ih

/-- The class right below the start, if the way has a step. -/
theorem child (descends : Descends t r x (n + 1)) : ∃ child, t.Under child r ∧ Descends t child x n := by
  induction n generalizing x with
  | zero =>
    cases descends with
    | step up rest =>
      cases rest with
      | here => exact ⟨x, up, .here⟩
  | succ n ih =>
    cases descends with
    | step up rest =>
      obtain ⟨child, first, rest⟩ := ih rest
      exact ⟨child, first, .step up rest⟩

theorem under (descends : Descends t c x n) (up : t.Under c r) : Descends t r x (n + 1) := by
  induction descends with
  | here => exact .step up .here
  | step up' _ ih => exact .step up' ih

theorem of_path (path : ReflTransGen t.Under x r) : ∃ n, Descends t r x n := by
  induction path using ReflTransGen.head_induction_on with
  | refl => exact ⟨0, .here⟩
  | head up _ ih =>
    obtain ⟨n, descends⟩ := ih
    exact ⟨n + 1, .step up descends⟩

end Descends

/-- What a pass from one class does to the depths: below the class they count from `n` on, elsewhere they stay. -/
structure CountsFrom (t : Table) (n : Nat) (r : SymbolId) (depths depths' : SymbolId → Option Nat) : Prop where
  below : ∀ {x m}, Descends t r x m → depths' x = some (n + m)
  others : ∀ {x}, (∀ m, ¬ Descends t r x m) → depths' x = depths x

/-- One of the starts is the class, or lies above it. -/
def Met (t : Table) (starts : List SymbolId) (x : SymbolId) : Prop := ∃ r ∈ starts, ∃ m, Descends t r x m

/-- What passes from several classes do to the depths: the last one that meets a class decides. -/
structure Counts (t : Table) (n : Nat) (starts : List SymbolId) (depths depths' : SymbolId → Option Nat) : Prop where
  below : ∀ {x}, Met t starts x → ∃ front r back m, starts = front ++ r :: back ∧ Descends t r x m ∧ ¬ Met t back x ∧
    depths' x = some (n + m)
  others : ∀ {x}, ¬ Met t starts x → depths' x = depths x

theorem Counts.cons {depths between after : SymbolId → Option Nat} {r : SymbolId} {starts : List SymbolId}
    (first : CountsFrom t n r depths between) (rest : Counts t n starts between after) :
    Counts t n (r :: starts) depths after := by
  refine ⟨fun {x} met => ?_, fun {x} unmet => ?_⟩
  · by_cases again : Met t starts x
    · obtain ⟨front, r', back, m, rfl, found⟩ := rest.below again
      exact ⟨r :: front, r', back, m, rfl, found⟩
    · obtain ⟨r', inside, m, descends⟩ := met
      rcases List.mem_cons.mp inside with rfl | inside
      · exact ⟨[], r', starts, m, rfl, descends, again, (rest.others again).trans (first.below descends)⟩
      · exact absurd ⟨r', inside, m, descends⟩ again
  · rw [rest.others fun ⟨r', inside, met⟩ => unmet ⟨r', List.mem_cons_of_mem _ inside, met⟩]
    exact first.others fun m descends => unmet ⟨r, List.mem_cons_self, m, descends⟩

/-- What the run from a class does to the depths. -/
def FillsFrom (t : Table) (limit n : Nat) (id : SymbolId) : Prop :=
  ∀ {s : AnalysisState} {depths : SymbolId → Option Nat}, Deep depths t s.table →
    ∃ depths' t', (fillDepth limit n id).run s = .ok ((), { s with table := t' }) ∧ Deep depths' t t' ∧
      CountsFrom t n id depths depths'

/-- The runs from several classes, one after the other. -/
theorem fillAll_run {ids : List SymbolId} (each : ∀ id ∈ ids, FillsFrom t limit n id) {s : AnalysisState}
    {depths : SymbolId → Option Nat} (deep : Deep depths t s.table) :
    ∃ depths' t', (ids.forM (fillDepth limit n)).run s = .ok ((), { s with table := t' }) ∧ Deep depths' t t' ∧
      Counts t n ids depths depths' := by
  induction ids generalizing s depths with
  | nil => exact ⟨depths, s.table, rfl, deep, by simp [Met], fun _ => rfl⟩
  | cons id ids ih =>
    obtain ⟨between, t₁, ran, deep₁, counts₁⟩ := each id (by simp) deep
    obtain ⟨after, t₂, ran₂, deep₂, counts₂⟩ :=
      @ih (fun x inside => each x (List.mem_cons_of_mem _ inside)) { s with table := t₁ } between deep₁
    refine ⟨after, t₂, ?_, deep₂, .cons counts₁ counts₂⟩
    rw [List.forM, run_seq ran]
    exact ran₂

/-- **Depths.** The run from a class counts the classes below it, whatever the depth of the class itself. -/
theorem fillDepth_run {level : Nat} (forest : t.Forest) (depth : t.DepthOf id level)
    (enough : t.symbols.size < limit + level) :
    FillsFrom t limit n id := by
  induction limit generalizing id n level with
  | zero =>
    have bound := Table.depth_bound depth
    omega
  | succ limit ih =>
    intro s depths deep
    obtain ⟨k, held⟩ := Option.isSome_iff_exists.mp (Table.depth_class depth)
    obtain ⟨sym, found, isClass⟩ := Table.class_symbol (deep_class deep ▸ by rw [held]; rfl :
      s.table.class? id = some { k with depth := depths id })
    have under {child : SymbolId} (inside : child ∈ k.children) : t.Under child id := (forest.children held).mp inside
    have eachChild : ∀ child ∈ k.children, FillsFrom t limit (n + 1) child := fun child inside =>
      ih (.step (under inside) depth) (by omega)
    obtain ⟨after, t', ran, deep', counts⟩ :=
      @fillAll_run _ _ _ _ eachChild { s with table := s.table.edit id (setDepth (some n)) } _ (deep.set id n)
    refine ⟨after, t', ?_, deep', fun {x m} descends => ?_, fun {x} outside => ?_⟩
    · simp only [fillDepth]
      rw [run_seq (run_symbol found)]
      simp only [isClass]
      rw [run_seq (run_modifySymbol found)]
      exact ran
    · cases m with
      | zero =>
        cases descends
        rw [counts.others, if_pos rfl, Nat.add_zero]
        rintro ⟨child, inside, m, descends⟩
        have same := Table.depth_unique depth ((descends.under (under inside)).depth depth)
        omega
      | succ m =>
        obtain ⟨child, up, below⟩ := descends.child
        obtain ⟨_, child', _, m', split, below', _, counted⟩ :=
          counts.below ⟨child, (forest.children held).mpr up, m, below⟩
        have up' := under (split ▸ List.mem_append_right _ List.mem_cons_self)
        -- The class lies as deep as either way to it is long.
        have same := Table.depth_unique (descends.depth depth) ((below'.under up').depth depth)
        rw [counted]
        congr 1
        omega
    · rw [counts.others fun ⟨child, inside, m, descends⟩ => outside (m + 1) (descends.under (under inside)), if_neg]
      rintro rfl
      exact outside 0 .here

end Quasicode.Hierarchy
