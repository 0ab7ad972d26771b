import Quasicode.Proofs.BindPhase
import Quasicode.Proofs.InitialTable
import Quasicode.Proofs.SourceRead

/-!
The initialization of globals. Every global of a program is initialized once. Without a cycle of
dependencies it comes after all that it depends on; where there are cycles, some of the
references on them are reported, each of them once, and nothing else is.
-/
namespace Quasicode

open Analysis
open Relation (ReflTransGen TransGen)

namespace Program.Ordered

variable {t : Table} {program : Program} {order : List SymbolId} {circular : List Span} {g h : SymbolId}

/-- Without references on cycles a global comes after those that it depends on. -/
theorem precedes (ordered : program.Ordered t order []) (depends : program.Depends t g h) (listed : h ∈ order) :
    order.idxOf h < order.idxOf g := by
  obtain ⟨span, refers⟩ := depends
  obtain ⟨a, inside, declares, _⟩ := id refers
  obtain ⟨before, after, split⟩ := List.append_of_mem ((ordered.defined g).mpr ⟨a, inside, declares⟩)
  have early : h ∈ before := by
    rcases ordered.earlier before g after split h span refers with ⟨found, _⟩ | early | unlisted
    · simp at found
    · exact early
    · exact absurd listed unlisted
  have once := ordered.once
  rw [split, List.nodup_append] at once
  have new : g ∉ before := fun inside => once.2.2 g inside g List.mem_cons_self rfl
  rw [split, List.idxOf_append_of_mem early, List.idxOf_append_of_notMem new]
  exact Nat.lt_of_lt_of_le (List.idxOf_lt_length_of_mem early) (Nat.le_add_right _ _)

/-- Without references on cycles there are no cycles. -/
theorem acyclic (ordered : program.Ordered t order []) (listed : ∀ h, t.IsGlobal h → h ∈ order) :
    ¬ TransGen (program.Depends t) g g := by
  have descends {g h : SymbolId} (path : TransGen (program.Depends t) g h) : order.idxOf h < order.idxOf g := by
    induction path with
    | single depends =>
      obtain ⟨_, _, _, _, _, isGlobal⟩ := id depends
      exact ordered.precedes depends (listed _ isGlobal)
    | tail _ depends ih =>
      obtain ⟨_, _, _, _, _, isGlobal⟩ := id depends
      exact Nat.lt_trans (ordered.precedes depends (listed _ isGlobal)) ih
  exact fun cycle => Nat.lt_irrefl _ (descends cycle)

end Program.Ordered

namespace Binding

variable {bound : Nat} {program : Program} {order : List SymbolId} {circular : List Span}

/-- The globals of a program are initialized in the order of their dependencies, and cycles of these are reported. -/
structure Initializes (program : Program) (order : List SymbolId) (s : AnalysisState) : Prop where
  once : order.Nodup
  listed : ∀ g, g ∈ order ↔ s.table.IsGlobal g
  finished : ∀ g, s.table.IsGlobal g → s.table.status g = .ok .ready
  precede : (∀ g, ¬ TransGen (program.Depends s.table) g g) →
    (∀ d ∈ s.problems, d.cause ≠ .circularReference) ∧
      ∀ g h, program.Depends s.table g h → order.idxOf h < order.idxOf g
  reported : ∀ g, TransGen (program.Depends s.table) g g → ∃ d ∈ s.problems, d.cause = .circularReference
  cyclic : ∀ d ∈ s.problems, d.cause = .circularReference →
    ∃ g h, program.Refers s.table g h d.span ∧ ReflTransGen (program.Depends s.table) h g
  distinct : s.problems.Pairwise fun d d' =>
    d.cause = .circularReference → d'.cause = .circularReference → d.span ≠ d'.span

/-- All globals are initialized, if there were none before. -/
theorem Binds.all_listed {t t' : Table}
    (binds : Binds bound t t' program order circular) (noGlobals : ∀ id, ¬ t.IsGlobal id) (g : SymbolId) :
    g ∈ order ↔ t'.IsGlobal g := by
  rw [binds.listed g]
  refine ⟨And.left, fun isGlobal => ⟨isGlobal, Nat.le_of_not_lt fun old => noGlobals g ?_⟩⟩
  obtain ⟨s', held', isGlobal⟩ := isGlobal
  obtain ⟨s, held⟩ := Table.symbol_exists old
  obtain ⟨kind, found, core⟩ := binds.persists.symbols held
  cases held'.symm.trans found
  exact ⟨s, held, by rw [Symbol.isGlobal, ← SymbolKind.isGlobal_core, ← core, SymbolKind.isGlobal_core]; exact isGlobal⟩

/-- What binding leaves of a program says all about the initialization of its globals, if there were none before. -/
theorem Binds.initializes {t t' : Table} {before after : List Diagnostic}
    (binds : Binds bound t t' program order circular) (noGlobals : ∀ id, ¬ t.IsGlobal id)
    (fine : ∀ d ∈ before ++ after, d.Fine bound) :
    Initializes program order ⟨t', before ++ circular.map (Diagnostic.mk .circularReference) ++ after⟩ := by
  have ordered := binds.ordered
  have all := binds.all_listed noGlobals
  -- The only diagnostics on cycles are those in the middle.
  have about {d : Diagnostic} (inside : d ∈ before ++ circular.map (Diagnostic.mk .circularReference) ++ after)
      (cause : d.cause = .circularReference) : d.span ∈ circular := by
    simp only [List.mem_append, List.mem_map] at inside
    rcases inside with (early | ⟨span, inside, rfl⟩) | late
    · exact absurd cause (fine d (List.mem_append_left _ early)).acyclic
    · exact inside
    · exact absurd cause (fine d (List.mem_append_right _ late)).acyclic
  have cycles (span : Span) (inside : span ∈ circular) : ∃ g, TransGen (program.Depends t') g g := by
    obtain ⟨g, h, refers, back⟩ := ordered.cyclic span inside
    exact ⟨g, .head' ⟨span, refers⟩ back⟩
  refine ⟨ordered.once, all, fun g isGlobal => ?_, fun acyclic => ?_, fun g cycle => ?_, fun d inside cause => ?_, ?_⟩
  · obtain ⟨s, held, isGlobal⟩ := isGlobal
    obtain ⟨v, isVar, ready⟩ := binds.ready g s held isGlobal
    rw [Table.status_eq held, Table.statusOf, Table.var_of held, isVar]
    exact congrArg Except.ok ready
  · have none : circular = [] := List.eq_nil_iff_forall_not_mem.mpr fun span inside =>
      (cycles span inside).elim fun g => acyclic g
    subst none
    refine ⟨fun d inside cause => absurd (about inside cause) List.not_mem_nil, fun g h depends => ?_⟩
    obtain ⟨_, _, _, _, _, isGlobal⟩ := id depends
    exact ordered.precedes depends ((all h).mpr isGlobal)
  · rcases circular with _ | ⟨span, rest⟩
    · exact absurd cycle (ordered.acyclic fun h isGlobal => (all h).mpr isGlobal)
    · exact ⟨⟨.circularReference, span⟩, by simp, rfl⟩
  · exact ordered.cyclic d.span (about inside cause)
  · rw [List.pairwise_append, List.pairwise_append]
    refine ⟨⟨?_, ?_, ?_⟩, ?_, ?_⟩
    · exact List.pairwise_of_forall_mem_list fun d inside _ _ cause =>
        absurd cause (fine d (List.mem_append_left _ inside)).acyclic
    · exact List.pairwise_map.mpr (ordered.distinct.imp fun apart _ _ => apart)
    · exact fun d inside _ _ cause => absurd cause (fine d (List.mem_append_left _ inside)).acyclic
    · exact List.pairwise_of_forall_mem_list fun d inside _ _ cause =>
        absurd cause (fine d (List.mem_append_right _ inside)).acyclic
    · exact fun _ _ d inside _ cause => absurd cause (fine d (List.mem_append_right _ inside)).acyclic

/-- **Globals are initialized in the order of their dependencies.** -/
theorem globals_initialized (classNames : List String) (source : String) :
      ∃ t parsed program order s, Table.initial = .ok t ∧
      parse (scan source).tokens (Builtin.classNames ++ classNames) = .ok parsed ∧
      (bind parsed.program).run ⟨t.resetToRoot, []⟩ = .ok ((program, order), s) ∧ Initializes program order s := by
  obtain ⟨t, initial, intact, _, _, noGlobals⟩ := Table.initial_intact (source.length + 2)
  obtain ⟨parsed, read, fresh, _⟩ := source_read source (Builtin.classNames ++ classNames)
  have ready : t.resetToRoot.GlobalsReady := fun id s held isGlobal => absurd ⟨s, held, isGlobal⟩ (noGlobals id)
  obtain ⟨program, order, t', before, circular, after, ran, fine, binds, _⟩ := bind_run intact ready fresh []
  exact ⟨t, parsed, program, order, _, initial, read, ran, binds.initializes noGlobals fine⟩

end Binding

end Quasicode
