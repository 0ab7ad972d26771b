import Quasicode.Analysis
import Quasicode.Proofs.FlowTotality
import Quasicode.Proofs.InitialTable
import Quasicode.Proofs.SourceRead
import Quasicode.Proofs.TypingPhase

/-!
The whole analysis of a program. From a table that another analysis may have left behind, all phases go through and
leave one from which the next analysis can begin. If nothing is reported, the program that they leave has no gap.

An analysis decorates a program: it fills slots, notes types and wraps values in conversions,
and everything else stays as it was read. A conversion is there only where one type widens to
another, and what a call records was chosen among the methods that were declared.
-/
namespace Quasicode

open Analysis
open Table (Reached)

variable {program' : Program} {order : List SymbolId} {s : AnalysisState}

/-! ## Typed programs over the last table -/

section Retyped

variable {given : SymbolId → Option Ty} {t t' : Table} (retyped : t.Retyped given t')
variable {ty : Ty} {owner : Option Binding.MethodOwner} {f : Function}
include retyped

theorem TypeName.Means.later {otherwise : Ty} {type : Option TypeName} (means : TypeName.Means t otherwise type ty) :
    TypeName.Means t' otherwise type ty := by
  cases type with
  | none => exact means
  | some type => exact (congrArg type.resolve retyped.classes_eq).trans means

theorem Function.Signed.later (signed : f.Signed t owner) : f.Signed t' owner := by
  obtain ⟨set, sameSet, s₁, overloads, heldSet, kind⟩ := signed.grouped
  obtain ⟨id, s₂, g, same, held, core, returns, params⟩ := signed.symbol
  refine ⟨⟨set, sameSet, s₁, overloads,
    retyped.symbol_kept heldSet (by simp [Symbol.var?, kind, SymbolKind.var?]), kind⟩,
    id, s₂, g, same, retyped.symbol_kept held ?_, core, returns.later retyped,
    params.imp fun _ _ means => means.later retyped⟩
  have none := congrArg SymbolKind.var? core
  rw [SymbolKind.var_core, SymbolKind.var_core] at none
  have other : (Binding.functionKind f g owner).var? = .none := by cases owner <;> rfl
  rw [other, Option.map_none, Option.map_eq_none_iff] at none
  exact none

/-- A variable that was declared with a type keeps it. -/
theorem Table.Retyped.var_kept {id : SymbolId} {v : VariableSymbol} (held : t.var? id = some v)
    (type : v.type = some ty) :
    ∃ v', t'.var? id = some v' ∧ v'.type = some ty := by
  refine ⟨v.given (given id), ?_, by simp [VariableSymbol.given, type]⟩
  rw [retyped.var_eq, held]
  rfl

theorem Expr.All.complete_later {e : Expr} (complete : e.All (Expr.Complete t)) : e.All (Expr.Complete t') :=
  complete.mono fun _ => (Expr.complete_retyped retyped).mpr

theorem Param.Complete.later {p : Param} (complete : p.Complete t) : p.Complete t' := by
  obtain ⟨id, v, ty, same, held, type, means, default⟩ := complete.symbol
  obtain ⟨v', held', type'⟩ := retyped.var_kept held type
  exact ⟨id, v', ty, same, held', type', means.later retyped,
    fun e same => ⟨(default e same).1.complete_later retyped, (default e same).2⟩⟩

theorem Field.Complete.later {f : Field} (complete : f.Complete t) : f.Complete t' := by
  obtain ⟨id, v, ty, same, held, type, resolved, initializer⟩ := complete.symbol
  obtain ⟨v', held', type'⟩ := retyped.var_kept held type
  exact ⟨id, v', ty, same, held', type', (congrArg f.typeName.resolve retyped.classes_eq).trans resolved,
    fun e same => ⟨(initializer e same).1.complete_later retyped, (initializer e same).2⟩⟩

theorem Checks.complete_retyped {frame : Option Typing.Frame} :
    (Checks.complete t frame).Implies (.complete t' frame) := by
  have more : ∀ e : Expr, e.All (Expr.Complete t) → e.All (Expr.Complete t') :=
    fun e complete => complete.complete_later retyped
  refine ⟨more, fun a ⟨left, chained, value, agrees⟩ => ⟨more _ left, fun e inside => more e (chained e inside),
    more _ value, agrees⟩, fun _ returned e same => ⟨more e (returned e same).1, (returned e same).2⟩,
    fun _ slot ⟨id, same, isVar⟩ =>
    ⟨id, same, retyped.isVar.mpr isVar⟩, fun scope ⟨id, same, inside⟩ => ⟨id, same, retyped.scopes ▸ inside⟩,
      fun _ _ => trivial⟩

theorem Function.Complete.later (complete : f.Complete t owner) :
    f.Complete t' owner := by
  obtain ⟨scope, isScope, inside⟩ := complete.scope
  obtain ⟨id, s, frame, same, held, isFrame, body⟩ := complete.body
  have other : s.var? = none := by
    rw [Symbol.var?]
    cases kind : s.kind with
    | «variable» | globalVariable =>
      rw [kind] at isFrame
      cases isFrame
    | _ => rfl
  exact ⟨complete.signed.later retyped, ⟨scope, isScope, retyped.scopes ▸ inside⟩,
    fun p inside => (complete.params p inside).later retyped,
    id, s, frame, same, retyped.symbol_kept held other, isFrame, holdsInAll_mono (Checks.complete_retyped retyped) body⟩

theorem Class.Complete.later {c : Class} (complete : c.Complete t) : c.Complete t' := by
  obtain ⟨id, same, isClass, methods⟩ := complete.symbol
  obtain ⟨scope, isScope, inside⟩ := complete.scope
  obtain ⟨object, sameObject, isObject⟩ := complete.object
  obtain ⟨itself, sameItself, isItself⟩ := complete.itself
  exact ⟨⟨id, same, retyped.class_eq ▸ isClass, fun m inside => (methods m inside).later retyped⟩,
    fun f inside => (complete.fields f inside).later retyped, ⟨scope, isScope, retyped.scopes ▸ inside⟩,
    ⟨object, sameObject, retyped.isVar.mpr isObject⟩, ⟨itself, sameItself, retyped.isVar.mpr isItself⟩⟩

theorem Item.Complete.later {item : Item} (complete : item.Complete t) : item.Complete t' :=
  Item.Are.mono complete (fun _ complete => complete.later retyped) (fun _ complete => complete.later retyped)
    fun _ complete => complete.mono (Checks.complete_retyped retyped)

theorem Expr.Linked.later {e : Expr} {spot : Binding.Spot} {cls : Option SymbolId} {object : Bool}
    (linked : e.Linked t spot cls object) :
    e.Linked t' spot cls object :=
  ⟨(Expr.uses_retyped retyped).mpr linked.uses, (Expr.chosen_retyped retyped).mpr linked.chosen⟩

theorem Checks.linked_later {spot : Binding.Spot} {cls : Option SymbolId} {object : Bool} :
    (Checks.linked t spot cls object).Implies (.linked t' spot cls object) := by
  have nodes := Checks.nodes_mono (P := Expr.Linked t spot cls object) (Q := Expr.Linked t' spot cls object)
    fun _ linked =>
    linked.later retyped
  exact ⟨nodes.value, nodes.assignment, nodes.returned, fun _ _ seen id same => retyped.inSight_iff.mpr (seen id same),
    nodes.scope, nodes.place⟩

theorem Function.Linked.later {spot : Binding.Spot} {cls : Option SymbolId} (linked : f.Linked t spot cls) :
    f.Linked t' spot cls := by
  have object : f.hasObject t' = f.hasObject t := by
    have same : t'.method? = t.method? := funext fun _ => retyped.method_eq
    rw [Function.hasObject, same]
    rfl
  refine ⟨?_, ?_⟩
  · rw [object]
    exact fun p inside e same => (linked.params p inside e same).mono fun _ linked => linked.later retyped
  · rw [object]
    exact holdsInAll_mono (Checks.linked_later retyped) linked.body

theorem Class.Linked.later {c : Class} {waiting : SymbolId → Prop} (linked : c.Linked t waiting) :
    c.Linked t' waiting :=
  ⟨fun scope isScope f inside e same => (linked.fields scope isScope f inside e same).mono
    fun _ linked => linked.later retyped,
    fun scope isScope m inside => ⟨(linked.methods scope isScope m inside).function.later retyped,
    (linked.methods scope isScope m inside).static⟩⟩

theorem Program.Linked.later {program : Program} (linked : program.Linked t) : program.Linked t' := fun i item here =>
  Item.Are.mono (linked i item here) (fun _ linked => linked.later retyped) (fun _ linked => linked.later retyped)
    fun _ holds => holds.mono (Checks.linked_later retyped)

end Retyped

/-! ## All phases -/

/-- A table from which an analysis can begin. -/
structure Table.Standing (bound : Nat) (t : Table) : Prop where
  intact : t.Intact bound
  ready : t.GlobalsReady
  typed : t.Typed 0 t.symbols.size

variable {bound : Nat} {t : Table} {program : Program}

theorem Table.Standing.reset (standing : t.Standing bound) : t.resetToRoot.Standing bound :=
  ⟨standing.intact.reset, standing.ready, standing.typed⟩

/-- A run of the whole analysis, phase by phase: binding leaves `program₁` and `s₁`, and typing `program'` and `s₂`. The
checks of control flow come last and only report. -/
structure Phases (bound : Nat) (t : Table) (program program' : Program) (order : List SymbolId) (s : AnalysisState)
    (program₁ : Program) (s₁ s₂ : AnalysisState) : Prop where
  binds : (Binding.bind program).run ⟨t, []⟩ = .ok ((program₁, order), s₁)
  types : (Typing.typeProgram program₁ order).run s₁ = .ok (program', s₂)
  table : s.table = s₂.table
  problems : ∃ later, s.problems = s₁.problems ++ later ∧ ∀ d ∈ later, d.cause.ofHierarchy = false
  reached : Reached bound s₁.table (·.index < s₁.table.symbols.size) s₂.table
  decorated : Typing.Decorated bound s₁.table program₁ program'
  initializes : s.problems = [] → (Flow.checkProgramInit program').run ⟨s.table, []⟩ = .ok ((), ⟨s.table, []⟩)

def Phased (bound : Nat) (t : Table) (program program' : Program) (order : List SymbolId) (s : AnalysisState) : Prop :=
  ∃ program₁ s₁ s₂, Phases bound t program program' order s program₁ s₁ s₂

/-- **The analysis of a program** goes through. -/
theorem analysis_run (standing : t.Standing bound) (fresh : ∀ item ∈ program.items, item.Fresh bound) :
    ∃ program' order s, (analysis program).run ⟨t, []⟩ = .ok ((program', order), s) ∧ s.table.Standing bound ∧
      (∀ d ∈ s.problems, d.span.Within bound) ∧ (s.problems = [] → t.Proper → t.FieldsHome →
        (∀ item ∈ program'.items, item.Complete s.table) ∧ program'.Linked s.table) ∧
      (∀ item ∈ program'.items, item.Placed bound s.table) ∧ Phased bound t program program' order s := by
  obtain ⟨program₁, order, t₁, before, circular, after, ran₁, fine₁, binds, quiet₁, _⟩ :=
    Binding.bind_run standing.intact standing.ready fresh []
  obtain ⟨first, count, typed, numbered⟩ := binds.numbered
  obtain ⟨program₂, t₂, found₂, ran₂, fine₂, ⟨reached, decorated⟩, quiet₂⟩ :=
    (Typing.typeProgram_goes (g := ⟨fun _ => none, False⟩) binds.intact binds.unset binds.sites binds.ordered numbered
      (typed standing.typed) (binds.names standing.typed) False.elim).run
      ([] ++ (before ++ circular.map (Diagnostic.mk .circularReference) ++ after))
  obtain ⟨_, retyped⟩ := reached.retyped
  have placed₂ : ∀ item ∈ program₂.items, item.Placed bound t₂ := fun item inside =>
    (decorated.placed item inside).mono (Nat.le_of_eq reached.size.symm)
      (Nat.le_of_eq (congrArg Array.size reached.scopes.symm))
  obtain ⟨_, _, found₃, ran₃, fine₃, ⟨rfl, _⟩, _⟩ := (Flow.checkProgramReturns_answers placed₂).run _
  obtain ⟨_, _, found₄, ran₄, fine₄, ⟨rfl, _⟩, _⟩ := (Flow.checkProgramInit_answers placed₂).run _
  refine ⟨program₂, order,
    ⟨t₂, before ++ circular.map (Diagnostic.mk .circularReference) ++ after ++ found₂ ++ found₃ ++ found₄⟩, ?_,
    ⟨reached.intact, retyped.globalsReady binds.ready, ?_⟩, ?_, fun silent proper home => ?_, placed₂,
    program₁, _, _, ran₁, ran₂, rfl, ⟨found₂ ++ found₃ ++ found₄, by simp, ?_⟩, reached, decorated, fun silent => ?_⟩
  · unfold analysis
    rw [List.nil_append] at ran₁ ran₂
    rw [run_seq ran₁, run_seq ran₂, run_seq ran₃, run_seq ran₄]
    rfl
  · intro id v _ below held
    exact reached.typed id v (reached.below.mp below) held
  · simp only [List.forall_mem_append] at fine₁ ⊢
    refine ⟨⟨⟨⟨⟨fun d inside => (fine₁.1 d inside).within, ?_⟩, fun d inside => (fine₁.2 d inside).within⟩,
      fun d inside => (fine₂ d inside).within⟩, fun d inside => (fine₃ d inside).within⟩,
      fun d inside => (fine₄ d inside).within⟩
    simpa using binds.within
  · simp only [List.append_eq_nil_iff, List.map_eq_nil_iff] at silent
    obtain ⟨⟨⟨⟨⟨early, cycles⟩, late⟩, silent₂⟩, _⟩, _⟩ := silent
    obtain ⟨whole, inTurn⟩ := quiet₁ early cycles late proper
    obtain ⟨complete, linked⟩ := quiet₂ silent₂ whole (inTurn home)
    exact ⟨fun item inside => (complete item inside).later retyped, linked.later retyped⟩
  · simp only [List.forall_mem_append]
    exact ⟨⟨fun d inside => (fine₂ d inside).other, fun d inside => (fine₃ d inside).other⟩,
      fun d inside => (fine₄ d inside).other⟩
  · simp only [List.append_eq_nil_iff, List.map_eq_nil_iff] at silent
    obtain ⟨⟨⟨⟨⟨rfl, rfl⟩, rfl⟩, rfl⟩, rfl⟩, rfl⟩ := silent
    exact ran₄

theorem analysis_phased (standing : t.Standing bound) (fresh : ∀ item ∈ program.items, item.Fresh bound)
    (ran : (analysis program).run ⟨t, []⟩ = .ok ((program', order), s)) : Phased bound t program program' order s := by
  obtain ⟨_, _, _, ran', _, _, _, _, phased⟩ := analysis_run standing fresh
  cases ran.symm.trans ran'
  exact phased

theorem analyze_eq (ran : (analysis program).run ⟨t.resetToRoot, []⟩ = .ok ((program', order), s)) :
    analyze t program = .ok ⟨program', order, s.problems, s.table⟩ := by
  unfold analyze
  rw [ran]
  rfl

/-- **A program is analyzed**, whatever was analyzed before. -/
theorem analyze_total (standing : t.resetToRoot.Standing bound) (fresh : ∀ item ∈ program.items, item.Fresh bound) :
    ∃ analyzed, analyze t program = .ok analyzed ∧ analyzed.table.Standing bound ∧
      (∀ d ∈ analyzed.problems, d.span.Within bound) ∧
      (analyzed.problems = [] → t.resetToRoot.Proper → t.resetToRoot.FieldsHome →
        ∀ item ∈ analyzed.program.items, item.Complete analyzed.table) := by
  obtain ⟨program', order, s, ran, standing', within, quiet, -⟩ := analysis_run standing fresh
  exact ⟨_, analyze_eq ran, standing', within, fun silent proper home => (quiet silent proper home).1⟩

/-- The first table has no fields. -/
theorem Table.initial_home {t : Table} (initial : Table.initial = .ok t) : t.resetToRoot.FieldsHome := by
  have evaluated : Table.initial.toOption.all (fun t => t.symbols.all fun s => s.class?.all (·.fields.isEmpty)) := by
    decide +kernel
  rw [initial] at evaluated
  intro id k held j inside
  obtain ⟨s, found, isClass⟩ := class_symbol held
  have none := Array.all_eq_true_iff_forall_mem.mp evaluated s (Array.mem_of_getElem? found)
  rw [isClass, Option.all_some, List.isEmpty_iff] at none
  simp [none] at inside

/-- The first analysis can begin. -/
theorem Table.initial_standing (bound : Nat) :
    ∃ t, Table.initial = .ok t ∧ t.resetToRoot.Standing bound ∧ t.resetToRoot.Proper := by
  obtain ⟨t, initial, intact, proper, typed, noGlobals⟩ := Table.initial_intact bound
  exact ⟨t, initial, ⟨intact, fun id s held isGlobal => absurd ⟨s, held, isGlobal⟩ (noGlobals id), typed⟩, proper⟩

/-- **A source is read and analyzed on its own.** -/
theorem source_alone (classNames : List String) (source : String) :
    ∃ t parsed analyzed, Table.initial = .ok t ∧ parse (scan source).tokens classNames = .ok parsed ∧
      analyze t parsed.program = .ok analyzed ∧ (∀ item ∈ parsed.program.items, item.Fresh (source.length + 2)) ∧
      analyzed.table.Standing (source.length + 2) ∧
      (analyzed.problems = [] → ∀ item ∈ analyzed.program.items, item.Complete analyzed.table) := by
  obtain ⟨t, initial, standing, proper⟩ := Table.initial_standing (source.length + 2)
  obtain ⟨parsed, read, fresh, _⟩ := source_read source classNames
  obtain ⟨analyzed, ran, standing', _, quiet⟩ := analyze_total standing fresh
  exact ⟨t, parsed, analyzed, initial, read, ran, fresh, standing',
    fun silent => quiet silent proper (Table.initial_home initial)⟩

/-! ## Decoration -/

theorem Program.bare_of_fresh {bound : Nat} {program : Program} (fresh : ∀ item ∈ program.items, item.Fresh bound) :
    program.bare = program :=
  congrArg Program.mk (map_bare fun item inside => (fresh item inside).bare)

theorem Table.Retyped.sameMembers {given : SymbolId → Option Ty} {t t' : Table} (retyped : t.Retyped given t') :
    t.SameMembers t' := by
  intro id
  unfold Table.member?
  rw [retyped.given_symbol]
  cases t.symbol? id with
  | none => rfl
  | some s => exact Symbol.member_variable _ s

theorem Records.mono {T U : CallTarget → Prop} {e : Expr} (implies : ∀ target, T target → U target)
    (records : Records T e) : Records U e := by
  unfold Records at records ⊢
  split at records
  · exact implies _ records
  · exact implies _ records
  · trivial

/-- What a run of the whole analysis does to a program. The last classes come with binding, so
it is seen from the table that the analysis leaves. -/
structure Program.Decorates (declared : AnalysisState) (program : Program) (s : AnalysisState)
    (program' : Program) : Prop where
  bare : program'.bare = program
  justified : program'.All (Expr.Justified s.table.classes)
  since : Since declared.table declared.problems s
  records : program'.All (Records declared.table.Targets)

theorem analysis_decorates {bound : Nat} {t : Table} {program program' : Program}
    {order : List SymbolId} {s : AnalysisState}
    (standing : t.Standing bound) (fresh : ∀ item ∈ program.items, item.Fresh bound)
    (ran : (analysis program).run ⟨t, []⟩ = .ok ((program', order), s)) :
    ∃ items declared, (Binding.declareItems program.items).run ⟨t, []⟩ = .ok (items, declared) ∧
      program.Decorates declared s program' := by
  obtain ⟨program₁, s₁, s₂, phases⟩ := analysis_phased standing fresh ran
  obtain ⟨_, _, _, _, _, _, binds, -, -, -, same, items, declared, declares, -, -, members, problems⟩ :=
    Binding.bind_run standing.intact standing.ready fresh []
  cases binds.symm.trans phases.binds
  obtain ⟨_, retyped⟩ := phases.reached.retyped
  have typed := phases.decorated
  refine ⟨items, declared, declares, (typed.bare.trans same).trans (Program.bare_of_fresh fresh), ?_, ⟨?_, ?_⟩, ?_⟩
  · rw [phases.table, retyped.classes_eq]
    exact fun item inside => (typed.noted item inside).mono fun _ noted => noted.justified
  · rw [phases.table]
    exact fun id => (retyped.sameMembers id).trans (members id)
  · obtain ⟨early, same₁, others₁⟩ := problems
    obtain ⟨late, same₂, others₂⟩ := phases.problems
    exact ⟨early ++ late, same₂.trans ((congrArg (· ++ late) same₁).trans (List.append_assoc ..)),
      List.forall_mem_append.mpr ⟨others₁, others₂⟩⟩
  · refine fun item inside => (typed.noted item inside).mono fun _ noted => noted.records.mono ?_
    rintro _ ⟨m, callable, rfl⟩
    exact ⟨m, members.symm.callable callable, members.target_same m⟩

/-- **Analysis only decorates.** Without its decoration the program is the one that was read,
and every conversion widens. -/
theorem analyzed_decorates (classNames : List String) (source : String) :
    ∃ t parsed analyzed, Table.initial = .ok t ∧
      parse (scan source).tokens (Builtin.classNames ++ classNames) = .ok parsed ∧
      analyze t parsed.program = .ok analyzed ∧ analyzed.program.bare = parsed.program ∧
      analyzed.program.All (Expr.Justified analyzed.table.classes) := by
  obtain ⟨t, initial, standing, _⟩ := Table.initial_standing (source.length + 2)
  obtain ⟨parsed, read, fresh, _⟩ := source_read source (Builtin.classNames ++ classNames)
  obtain ⟨_, _, _, ran, _⟩ := analysis_run standing fresh
  obtain ⟨_, _, _, decorates⟩ := analysis_decorates standing fresh ran
  exact ⟨t, parsed, _, initial, read, analyze_eq ran, decorates.bare, decorates.justified⟩

end Quasicode
