import Quasicode.Proofs.InitializationOrder

/-!
Which references on cycles are reported. A reference closes a cycle if its target is not initialized before the global
that refers to it. Every such reference is reported, together with a whole cycle that it lies on; so on every cycle the
global that is initialized first and the one that is initialized last are reported in their own definitions. A global in
between need not be: the walk may find it again on a way that it has finished.
-/
namespace Quasicode.Binding

open Analysis
open Relation (ReflTransGen TransGen)

/-- A reference to `h` in the definition of `g` is reported to lie on a cycle. -/
def Flags (program : Program) (s : AnalysisState) (g h : SymbolId) : Prop :=
  ∃ span, program.Refers s.table g h span ∧ ⟨.circularReference, span⟩ ∈ s.problems

/-- The global `g` lies on a cycle of dependencies between globals like `P`. -/
def CycleThrough (program : Program) (t : Table) (P : SymbolId → Prop) (g : SymbolId) : Prop :=
  TransGen (fun x y => program.Depends t x y ∧ P y) g g

/-- What is reported about the cycles of dependencies, given the order of initialization. -/
structure FlagsCycles (program : Program) (order : List SymbolId) (s : AnalysisState) : Prop where
  closing : ∀ g h span, program.Refers s.table g h span → order.idxOf g ≤ order.idxOf h →
    ⟨.circularReference, span⟩ ∈ s.problems ∧ ReflTransGen (Flags program s) h g
  first : ∀ g, CycleThrough program s.table (fun h => order.idxOf g ≤ order.idxOf h) g → ∃ h, Flags program s g h
  last : ∀ g, CycleThrough program s.table (fun h => order.idxOf h ≤ order.idxOf g) g → ∃ h, Flags program s g h
  both : ∀ g h, program.Depends s.table g h → program.Depends s.table h g → ∃ k, Flags program s g k

variable {program : Program} {order : List SymbolId} {s : AnalysisState}

/-- All that is reported about cycles follows from the references that close them. -/
theorem FlagsCycles.of_closing (closing : ∀ g h span, program.Refers s.table g h span → order.idxOf g ≤ order.idxOf h →
    ⟨.circularReference, span⟩ ∈ s.problems ∧ ReflTransGen (Flags program s) h g) : FlagsCycles program order s := by
  have flags {g h : SymbolId} (depends : program.Depends s.table g h) (later : order.idxOf g ≤ order.idxOf h) :
      Flags program s g h ∧ ∃ k, Flags program s h k := by
    obtain ⟨span, refers⟩ := depends
    obtain ⟨reported, back⟩ := closing g h span refers later
    have here : Flags program s g h := ⟨span, refers, reported⟩
    refine ⟨here, ?_⟩
    rcases back.cases_head with rfl | ⟨k, step, _⟩
    · exact ⟨h, here⟩
    · exact ⟨k, step⟩
  refine ⟨closing, fun g cycle => ?_, fun g cycle => ?_, fun g h onward back => ?_⟩
  · obtain ⟨h, ⟨depends, later⟩, _⟩ := TransGen.head'_iff.mp cycle
    exact ⟨h, (flags depends later).1⟩
  · obtain ⟨p, way, depends, _⟩ := TransGen.tail'_iff.mp cycle
    refine (flags depends ?_).2
    rcases way.cases_tail with rfl | ⟨_, _, _, earlier⟩
    · exact Nat.le_refl _
    · exact earlier
  · rcases Nat.le_total (order.idxOf g) (order.idxOf h) with later | earlier
    · exact ⟨h, (flags onward later).1⟩
    · exact (flags back earlier).2

/-- What binding leaves of a program says which references are reported, if there were no globals before. -/
theorem Binds.flags {bound : Nat} {t t' : Table} {before after : List Diagnostic} {circular : List Span}
    (binds : Binds bound t t' program order circular) (noGlobals : ∀ id, ¬ t.IsGlobal id) :
    FlagsCycles program order ⟨t', before ++ circular.map (Diagnostic.mk .circularReference) ++ after⟩ := by
  have reported {span : Span} (found : span ∈ circular) :
      ⟨.circularReference, span⟩ ∈ before ++ circular.map (Diagnostic.mk .circularReference) ++ after := by
    simp [found]
  apply FlagsCycles.of_closing
  intro g h span refers later
  obtain ⟨a, inside, declares, _, isGlobal⟩ := id refers
  obtain ⟨front, rest, split⟩ := List.append_of_mem ((binds.ordered.defined g).mpr ⟨a, inside, declares⟩)
  rcases binds.ordered.earlier front g rest split h span refers with ⟨found, back⟩ | early | unlisted
  · refine ⟨reported found, ReflTransGen.mono (fun x y marked => ?_) _ _ back⟩
    obtain ⟨place, found, refers⟩ := marked
    exact ⟨place, refers, reported found⟩
  · -- what is listed before `g` has a smaller index
    have once := binds.ordered.once
    rw [split, List.nodup_append] at once
    have new : g ∉ front := fun inside => once.2.2 g inside g List.mem_cons_self rfl
    rw [split, List.idxOf_append_of_mem early, List.idxOf_append_of_notMem new] at later
    have place := List.idxOf_lt_length_of_mem early
    omega
  · exact absurd ((binds.all_listed noGlobals h).mpr isGlobal) unlisted

/-- **Every reference that closes a cycle is reported** with a whole cycle around it, so that the globals initialized
first and last on a cycle are reported in their own definitions. -/
theorem cycles_flagged (classNames : List String) (source : String) :
    ∃ t parsed program order s, Table.initial = .ok t ∧
      parse (scan source).tokens (Builtin.classNames ++ classNames) = .ok parsed ∧
      (bind parsed.program).run ⟨t.resetToRoot, []⟩ = .ok ((program, order), s) ∧ FlagsCycles program order s := by
  obtain ⟨t, initial, intact, _, _, noGlobals⟩ := Table.initial_intact (source.length + 2)
  obtain ⟨parsed, read, fresh, _⟩ := source_read source (Builtin.classNames ++ classNames)
  have ready : t.resetToRoot.GlobalsReady := fun id s held isGlobal => absurd ⟨s, held, isGlobal⟩ (noGlobals id)
  obtain ⟨program, order, t', before, circular, after, ran, _, binds, _⟩ := bind_run intact ready fresh []
  exact ⟨t, parsed, program, order, _, initial, read, ran, binds.flags noGlobals⟩

/-- Two cycles that share a reference. -/
def sharedReference : String := "a = b + c
b = a
c = b
"

/-- The references in the definition of `g`. -/
def referencesOf (program : Program) (t : Table) (g : SymbolId) : List Reference :=
  (program.assignments.filter (·.declares.contains g)).flatMap (·.references t)

theorem refers_iff {t : Table} {g h : SymbolId} {span : Span}
    (plain : ∀ a ∈ program.assignments, a.chained = [] ∧ a.left.reads = []) :
    program.Refers t g h span ↔ ⟨h, span⟩ ∈ referencesOf program t g := by
  simp only [Program.Refers, referencesOf, List.mem_flatMap, List.mem_filter, List.contains_iff_mem, and_assoc,
    Assignment.mem_references]
  refine exists_congr fun a => and_congr_right fun inside => and_congr_right fun _ => and_congr_left fun _ => ?_
  obtain ⟨chained, left⟩ := plain a inside
  simp [Assignment.Mentions, Assignment.reads, chained, left, Expr.readsAll, Expr.mem_reads_iff]

/-- Three globals refer to each other in turn, and no reference of the first one is reported. -/
def missed (program : Program) (s : AnalysisState) (a b c : SymbolId) : Bool :=
  let refers (g h : SymbolId) := ((referencesOf program s.table g).map Reference.target).contains h
  refers a b && refers b c && refers c a &&
    (referencesOf program s.table a).all fun r => !s.problems.contains ⟨.circularReference, r.span⟩

theorem missed_unflagged {a b c : SymbolId} (plain : ∀ a ∈ program.assignments, a.chained = [] ∧ a.left.reads = [])
    (found : missed program s a b c) : TransGen (program.Depends s.table) a a ∧ ∀ h, ¬ Flags program s a h := by
  have depends {g h : SymbolId} (listed : h ∈ (referencesOf program s.table g).map Reference.target) :
      program.Depends s.table g h := by
    obtain ⟨r, inside, rfl⟩ := List.mem_map.mp listed
    exact ⟨r.span, (refers_iff plain).mpr inside⟩
  simp only [missed, Bool.and_eq_true, List.contains_iff_mem, List.all_eq_true, Bool.not_eq_true',
    ← Bool.not_eq_true] at found
  obtain ⟨⟨⟨ab, bc⟩, ca⟩, silent⟩ := found
  refine ⟨.tail (.tail (.single (depends ab)) (depends bc)) (depends ca), fun h => ?_⟩
  rintro ⟨span, refers, reported⟩
  exact silent _ ((refers_iff plain).mp refers) reported

/-- Reads a source and binds it on its own. -/
def resolve (source : String) : Except Fault ((Program × List SymbolId) × AnalysisState) := do
  let t ← Table.initial
  let parsed ← parse (scan source).tokens (Builtin.classNames ++ [])
  (bind parsed.program).run ⟨t.resetToRoot, []⟩

/-- A global on a cycle need not be reported in its own definition. -/
theorem participant_unflagged : ∃ t parsed program order s, Table.initial = .ok t ∧
    parse (scan sharedReference).tokens (Builtin.classNames ++ []) = .ok parsed ∧
    (bind parsed.program).run ⟨t.resetToRoot, []⟩ = .ok ((program, order), s) ∧
    ∃ g, TransGen (program.Depends s.table) g g ∧ ∀ h, ¬ Flags program s g h := by
  have shown : (resolve sharedReference).toOption.any fun result =>
      (result.1.1.assignments.all fun a => a.chained.isEmpty && a.left.reads.isEmpty) &&
        result.1.2.any fun a => result.1.2.any fun b => result.1.2.any fun c => missed result.1.1 result.2 a b c := by
    decide +kernel
  obtain ⟨t, initial, _⟩ := Table.initial_intact 0
  obtain ⟨parsed, read, _⟩ := source_read sharedReference (Builtin.classNames ++ [])
  rw [resolve, initial, ok_bind, read, ok_bind] at shown
  cases ran : (bind parsed.program).run ⟨t.resetToRoot, []⟩ with
  | error fault => simp [ran, Except.toOption] at shown
  | ok result =>
    obtain ⟨⟨program, order⟩, s⟩ := result
    rw [ran] at shown
    simp only [Except.toOption, Option.any_some, Bool.and_eq_true, List.all_eq_true, List.any_eq_true,
      List.isEmpty_iff] at shown
    obtain ⟨plain, a, _, b, _, c, _, found⟩ := shown
    exact ⟨t, parsed, program, order, s, initial, read, ran, a, missed_unflagged plain found⟩

end Quasicode.Binding
