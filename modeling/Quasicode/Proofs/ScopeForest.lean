import Mathlib.Algebra.Order.BigOperators.Group.List
import Mathlib.Algebra.Order.Group.Nat
import Quasicode.Proofs.AnalysisPhases

/-!
The scopes of a table form a tree. Classes are hung under their superclasses long after their scopes
were made, and a superclass may have been declared after the class that extends it, so the numbers of
scopes tell nothing about the way up. What does is the forest of classes: the scope of a class lies
under the scope of its superclass. The tables of a session of sources are followed one operation at a
time, so this holds at every point once the hierarchy is built, and every look-up ends there.
-/
namespace Quasicode

open Relation Analysis
open Binding (Outward)

namespace Table

variable {bound : Nat} {t u : Table} {scope : ScopeId} {n : Nat}

/-- Every scope leads to the root, the scope of a class by way of the scopes of its
superclasses, and every look-up ends. -/
structure ScopeForest (t : Table) : Prop where
  top : t.parent? .root = some none
  leads : ∀ scope : ScopeId, scope.index < t.scopes.size → ReflTransGen (Outward t) scope .root
  inherits : ∀ {id c}, t.class? id = some c → ∀ upper, c.upper = some upper →
    ∃ k, t.class? upper = some k ∧ t.parent? c.scope = some (some k.scope)
  alone : ∀ {id c}, t.class? id = some c → c.upper = none → t.parent? c.scope = some (some .root)
  chain : ∀ scope : ScopeId, scope.index < t.scopes.size → ∀ name, ∃ found, t.lookupChain scope name = .ok found
  overloads : ∀ scope : ScopeId, scope.index < t.scopes.size → ∀ name, ∃ ids, t.overloads scope name = .ok ids

/-- A way up ends at the root and nowhere else. -/
theorem Arranged.leads (arranged : t.Arranged) (rises : t.Rises scope n) : ReflTransGen (Outward t) scope .root := by
  induction rises with
  | @top scope up =>
    by_cases isRoot : scope = .root
    · rw [isRoot]
    · obtain ⟨_, ⟨⟩, _⟩ := arranged.upward isRoot up
  | step up _ ih => exact .head up ih

theorem Intact.scopeForest (intact : t.Intact bound) : t.ScopeForest := by
  refine ⟨intact.sound.root, fun scope inside => ?_, fun held upper above => ?_, fun held top => ?_,
    fun scope inside name => ?_, fun scope inside name => ?_⟩
  · obtain ⟨n, rises⟩ := intact.rooted scope inside
    exact intact.arranged.leads rises
  · rcases intact.arranged.hung held with ⟨none, _⟩ | ⟨upper', k, some, isClass, up⟩
    · cases none.symm.trans above
    · cases some.symm.trans above
      exact ⟨k, isClass, up⟩
  · rcases intact.arranged.hung held with ⟨_, up⟩ | ⟨upper, k, some, _⟩
    · exact up
    · cases some.symm.trans top
  · obtain ⟨found, ran, _⟩ := intact.sound.lookupChain intact.rooted inside name
    exact ⟨found, ran⟩
  · obtain ⟨ids, ran, _⟩ := intact.sound.overloads intact.rooted inside name
    exact ⟨ids, ran⟩

/-- How far globals have come is of no account for scopes. -/
theorem Steady.scopeForest (steady : t.Steady bound) : t.ScopeForest := by
  obtain ⟨u, intact, recolors⟩ := steady
  obtain ⟨top, leads, inherits, alone, chain, overloads⟩ := intact.scopeForest
  have parents (scope : ScopeId) : t.parent? scope = u.parent? scope := parent?_congr recolors.scopes
  have outward : Outward t = Outward u := by
    funext inner outer
    rw [Outward, Outward, parents]
  have classes (id : SymbolId) : t.class? id = u.class? id := by
    obtain ⟨status, same⟩ := recolors.symbols id
    unfold class?
    rw [same]
    cases u.symbol? id with
    | none => rfl
    | some s => exact SymbolKind.class_mapVariable _ s.kind
  refine ⟨(parents _).trans top, ?_, ?_, ?_, ?_, ?_⟩
  · rw [outward, recolors.scopes]
    exact leads
  · simp only [classes, parents]
    exact inherits
  · simp only [classes, parents]
    exact alone
  · rw [recolors.scopes]
    intro scope inside name
    rw [lookupChain_congr recolors.scopes]
    exact chain scope inside name
  · rw [recolors.scopes]
    intro scope inside name
    have kinds (id : SymbolId) : ∃ f, t.symbol? id = (u.symbol? id).map
        (Symbol.mapKind (SymbolKind.mapVariable f)) := by
      obtain ⟨status, same⟩ := recolors.symbols id
      exact ⟨_, same⟩
    rw [overloads_congr recolors.scopes kinds]
    exact overloads scope inside name

end Table

/-! ## Every point of an analysis -/

/-- The analysis of a program that leads from `t` to `t'` at every point but those within the build of the hierarchy:
after each operation before the build, at its end, and after each operation from then on, the table is as `P` says. -/
def Throughout (P : Table → Prop) (t : Table) (program : Program) (t' : Table) : Prop :=
  ∃ items declared built,
    (Binding.declareAll program.items).run ⟨t.resetToRoot, []⟩ = .ok (items, declared) ∧ t.Course P declared.table ∧
    (Binding.declareItems program.items).run ⟨t.resetToRoot, []⟩ = .ok (items, built) ∧ P built.table ∧
    built.table.Course P t'

variable {bound : Nat} {t : Table} {program program' : Program} {order : List SymbolId} {s : AnalysisState}

theorem Throughout.mono {P Q : Table → Prop} {t' : Table} (implies : ∀ u, P u → Q u)
    (throughout : Throughout P t program t') :
    Throughout Q t program t' := by
  obtain ⟨items, declared, built, declares, before, builds, there, after⟩ := throughout
  exact ⟨items, declared, built, declares, before.mono implies, builds, implies _ there, after.mono implies⟩

/-- **The course of an analysis.** Its operations leave the table intact, but for the globals
while they are put in order. -/
theorem analysis_throughout (standing : t.resetToRoot.Standing bound) (fresh : ∀ item ∈ program.items, item.Fresh bound)
    (ran : (analysis program).run ⟨t.resetToRoot, []⟩ = .ok ((program', order), s)) :
    Throughout (Table.Steady bound) t program s.table := by
  obtain ⟨program₁, s₁, s₂, phases⟩ := analysis_phased standing fresh ran
  obtain ⟨_, _, _, _, _, _, binds', -, -, -, -, items, built, builds, intact, bindCourse, -⟩ :=
    Binding.bind_run standing.intact standing.ready fresh []
  cases binds'.symm.trans phases.binds
  obtain ⟨declared, _, _, declares, lays, _⟩ := Binding.declareItems_parts standing.intact fresh builds
  have begun : t.Course (Table.Steady bound) t.resetToRoot := .single .resetToRoot standing.intact.steady
  refine ⟨items, declared, built, declares, begun.trans (lays.course.mono fun _ intact => intact.steady),
    builds, intact.steady, ?_⟩
  rw [phases.table]
  exact bindCourse.trans (phases.reached.course.mono fun _ intact => intact.steady)

/-! ## Sessions -/

theorem analyzeAll_throughout (classNames : List String) {sources : List String}
    (near : ∀ source ∈ sources, source.length + 2 ≤ bound) (standing : t.resetToRoot.Standing bound) :
    ∃ results, analyzeAll classNames t sources = .ok results ∧ ∀ (i : Nat) source, sources[i]? = some source →
      ∃ before parsed result, (t :: results.map Analyzed.table)[i]? = some before ∧ results[i]? = some result ∧
      parse (scan source).tokens (Builtin.classNames ++ classNames) = .ok parsed ∧
      analyze before parsed.program = .ok result ∧
      Throughout (Table.Steady bound) before parsed.program result.table := by
  induction sources generalizing t with
  | nil => exact ⟨[], rfl, by simp⟩
  | cons source sources ih =>
    obtain ⟨here, others⟩ := List.forall_mem_cons.mp near
    obtain ⟨parsed, read, fresh, -⟩ := source_within source (Builtin.classNames ++ classNames) here
    obtain ⟨program', order, s, ran, standing', -⟩ := analysis_run standing fresh
    obtain ⟨results, rest, each⟩ := ih others standing'.reset
    have one := analyze_eq ran
    refine ⟨⟨program', order, s.problems, s.table⟩ :: results, ?_, fun i source' found => ?_⟩
    · rw [analyzeAll, analyzeSource, read, ok_bind, one, ok_bind, rest, ok_bind, pure_eq_ok]
    · cases i with
      | zero =>
        cases found
        exact ⟨t, parsed, _, rfl, rfl, read, one, analysis_throughout standing fresh ran⟩
      | succ i => exact each i source' found

/-- **A forest of scopes.** Whatever sources are analyzed one after the other, at every point outside the build of a
hierarchy every scope leads to the root, the scope of a class lies under the scope of its superclass or, if it has none,
under the root, and the look-up of a name ends. -/
theorem scopes_forested (classNames sources : List String) :
    ∃ t results, Table.initial = .ok t ∧ analyzeAll classNames t sources = .ok results ∧
      ∀ (i : Nat) source, sources[i]? = some source → ∃ before parsed result,
        (t :: results.map Analyzed.table)[i]? = some before ∧ results[i]? = some result ∧
        parse (scan source).tokens (Builtin.classNames ++ classNames) = .ok parsed ∧
        analyze before parsed.program = .ok result ∧
        Throughout Table.ScopeForest before parsed.program result.table := by
  have near : ∀ source ∈ sources, source.length + 2 ≤ (sources.map String.length).sum + 2 := fun source inside =>
    Nat.add_le_add_right (List.le_sum_of_mem (List.mem_map_of_mem inside)) 2
  obtain ⟨t, initial, standing, -⟩ := Table.initial_standing ((sources.map String.length).sum + 2)
  obtain ⟨results, ran, each⟩ := analyzeAll_throughout classNames near standing
  refine ⟨t, results, initial, ran, fun i source found => ?_⟩
  obtain ⟨before, parsed, result, held, here, read, analyzed, throughout⟩ := each i source found
  exact ⟨before, parsed, result, held, here, read, analyzed, throughout.mono fun _ steady => steady.scopeForest⟩

/-- A class that comes before its superclass, and a later source with one below it. -/
def forwardClasses : List String := ["class B extends A
end class
class A
end class
", "class C extends B
end class
"]

theorem forwardClasses_forested :
    ∃ t results, Table.initial = .ok t ∧ analyzeAll ["A", "B"] t forwardClasses = .ok results ∧ ∃ before parsed result,
      (t :: results.map Analyzed.table)[1]? = some before ∧ results[1]? = some result ∧
      parse (scan "class C extends B\nend class\n").tokens (Builtin.classNames ++ ["A", "B"]) = .ok parsed ∧
      analyze before parsed.program = .ok result ∧ Throughout Table.ScopeForest before parsed.program result.table := by
  obtain ⟨t, results, initial, ran, each⟩ := scopes_forested ["A", "B"] forwardClasses
  exact ⟨t, results, initial, ran, each 1 _ rfl⟩

end Quasicode
