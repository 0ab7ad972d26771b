import Quasicode.Proofs.GlobalDefinitions
import Quasicode.Proofs.GlobalOrder

/-!
The references between the globals of a program. The definition of a global refers to another one if the variable stands
anywhere in its value or in its chained targets. The references are collected from the bound definitions, and ordering
the globals along them always goes through.
-/
namespace Quasicode

open Analysis

/-! ## Variables in expressions -/

namespace Expr

variable {e : Expr} {id : SymbolId} {span : Span}

/-- The variable `id` stands at `span` somewhere in the expression. -/
def Mentions (e : Expr) (id : SymbolId) (span : Span) : Prop :=
  ¬ e.All fun node => ∀ info name, node = .var info name (some id) → info.span ≠ span

/-- A property of the variables that an expression reads, and of their places. -/
def OfVar (P : SymbolId → Span → Prop) (node : Expr) : Prop :=
  ∀ info name id, node = .var info name (some id) → P id info.span

variable {P : SymbolId → Span → Prop}

mutual

theorem reads_iff : ∀ e : Expr, (∀ r ∈ e.reads, P r.1 r.2) ↔ e.All (OfVar P)
  | .literal _ _ | .classRef _ _ _ | .this _ _ | .superField _ _ _ _ | .assignee _ _ _ _ _ =>
    by simp [reads, All, OfVar]
  | .var info name slot => by
    cases slot with
    | none => simp [reads, All, OfVar]
    | some id =>
      constructor
      · rintro holds _ _ _ ⟨⟩
        exact holds (id, info.span) (by simp [reads])
      · intro all
        simpa [reads] using all info name id rfl
  | .group _ e | .widen _ e | .member _ e _ _ | .unary _ _ e | .cast _ _ e | .isType _ e _ _ => by
    simp only [reads, All, reads_iff e]
    simp [OfVar]
  | .arrayLiteral _ es | .newArray _ _ es | .newObject _ _ es _ => by
    simp only [reads, All, readsAll_iff es]
    simp [OfVar]
  | .subscript _ a b | .binary _ a _ b | .logical _ a _ b => by
    simp only [reads, List.forall_mem_append, All, reads_iff a, reads_iff b]
    simp [OfVar]
  | .call _ callee _ es _ => by
    simp only [reads, List.forall_mem_append, All, readsCallee_iff callee, readsAll_iff es]
    simp [OfVar]

theorem readsAll_iff : ∀ es : List Expr, (∀ r ∈ readsAll es, P r.1 r.2) ↔ allOf (OfVar P) es
  | [] => by simp [readsAll, allOf]
  | e :: es => by simp only [readsAll, List.forall_mem_append, allOf, reads_iff e, readsAll_iff es]

theorem readsCallee_iff : ∀ callee : Callee, (∀ r ∈ readsCallee callee, P r.1 r.2) ↔ callee.All (OfVar P)
  | .object receiver => reads_iff receiver
  | .free | .super | .superConstructor => by simp [readsCallee, Callee.All]

end

theorem mem_reads_iff : (id, span) ∈ e.reads ↔ e.Mentions id span := by
  have apart := reads_iff (P := fun other place => other = id → place ≠ span) e
  have none : (∀ r ∈ e.reads, r.1 = id → r.2 ≠ span) ↔ (id, span) ∉ e.reads :=
    ⟨fun holds inside => holds _ inside rfl rfl, fun out r inside same same' => out (by rwa [← same, ← same'])⟩
  have nodes : e.All (OfVar fun other place => other = id → place ≠ span) ↔
      e.All fun node => ∀ info name, node = .var info name (some id) → info.span ≠ span := by
    constructor
    · exact fun all => all.mono fun _ holds info name same => holds info name id same rfl
    · refine fun all => all.mono fun _ holds info name other same here => ?_
      subst here
      exact holds info name same
  rw [Mentions, ← nodes, ← apart, none, not_not]

theorem mem_readsAll_iff {es : List Expr} :
    (id, span) ∈ readsAll es ↔ ∃ e ∈ es, e.Mentions id span := by
  induction es with
  | nil => simp [readsAll]
  | cons e es ih => simp [readsAll, mem_reads_iff, ih]

/-- What a placed expression reads is there. -/
theorem All.reads_placed {bound count : Nat} (placed : e.All (Placed bound count)) :
    ∀ r ∈ e.reads, r.1.index < count ∧ r.2.Within bound := by
  apply (reads_iff (P := fun id span => id.index < count ∧ span.Within bound) e).mpr
  apply placed.mono
  rintro _ placed info name id rfl
  exact ⟨placed.slots id (by simp [slots]), placed.within⟩

end Expr

namespace Assignment

variable {t : Table} {a : Assignment}

/-- The variable `id` stands at `span` in the value or in a chained target. -/
def Mentions (a : Assignment) (id : SymbolId) (span : Span) : Prop :=
  a.value.Mentions id span ∨ ∃ e ∈ a.chained, e.Mentions id span

/-- The references to globals in an assignment. -/
def references (t : Table) (a : Assignment) : List Binding.Reference :=
  a.reads.filterMap fun (id, span) => if (t.symbol? id).any (·.isGlobal) then some ⟨id, span⟩ else none

theorem mem_references {r : Binding.Reference} :
    r ∈ a.references t ↔ (r.target, r.span) ∈ a.reads ∧ t.IsGlobal r.target := by
  unfold references
  rw [List.mem_filterMap]
  constructor
  · rintro ⟨⟨id, span⟩, inside, found⟩
    simp only [Option.ite_none_right_eq_some, Option.some.injEq] at found
    obtain ⟨isGlobal, rfl⟩ := found
    exact ⟨inside, by simpa [Table.IsGlobal, Option.any_eq_true] using isGlobal⟩
  · rintro ⟨inside, s, held, isGlobal⟩
    exact ⟨_, inside, by simp [held, isGlobal]⟩

end Assignment

namespace Binding

variable {bound : Nat} {t : Table}
variable {F : Diagnostic → Prop}

/-! ## Collecting the references -/

theorem globalReferences_answers : ∀ {reads : List (SymbolId × Span)}, (∀ r ∈ reads, r.1.index < t.symbols.size) →
    Answers F t (globalReferences reads)
      (· = reads.filterMap fun (id, span) => if (t.symbol? id).any (·.isGlobal) then some ⟨id, span⟩ else none)
  | [], _ => .pure rfl trivial
  | (id, span) :: rest, below => by
    unfold globalReferences
    obtain ⟨here, others⟩ := List.forall_mem_cons.mp below
    apply (globalReferences_answers others).seq
    rintro _ rfl
    obtain ⟨s, held⟩ := Table.symbol_exists here
    apply Goes.askSymbol held
    refine .pure ⟨rfl, ?_⟩ trivial
    cases isGlobal : s.isGlobal <;> simp [held, isGlobal]

theorem references_answers :
    ∀ {assignments : List Assignment}, (∀ a ∈ assignments, ∀ r ∈ a.reads, r.1.index < t.symbols.size) →
    Answers F t (references assignments) (· = assignments.flatMap fun a => a.declares.map (·, a.references t))
  | [], _ => .pure rfl trivial
  | a :: rest, below => by
    unfold references
    obtain ⟨here, others⟩ := List.forall_mem_cons.mp below
    apply (globalReferences_answers here).seq
    rintro _ rfl
    apply (references_answers others).seq
    rintro _ rfl
    exact .pure ⟨rfl, rfl⟩ trivial

theorem lookup_pairs {ks : List SymbolId} {found : List Reference} {k : SymbolId} :
    (ks.map (·, found)).lookup k = if k ∈ ks then some found else none := by
  induction ks with
  | nil => simp
  | cons key ks ih =>
    rw [List.map_cons, lookup_cons_if, ih]
    by_cases here : k = key
    · simp [here]
    · simp [here]

/-- The references of a global are those of the assignment that declares it. -/
theorem mem_references_of {found : Assignment → List Reference} {g : SymbolId} {r : Reference} :
    ∀ {assignments : List Assignment}, (assignments.flatMap Assignment.declares).Nodup →
    (r ∈ References.of (assignments.flatMap fun a => a.declares.map (·, found a)) g ↔ ∃ a ∈ assignments,
    g ∈ a.declares ∧ r ∈ found a)
  | [], _ => by simp [References.of]
  | a :: rest, distinct => by
    rw [List.flatMap_cons, List.nodup_append] at distinct
    obtain ⟨_, others, apart⟩ := distinct
    have ih := @mem_references_of found g r _ others
    unfold References.of at ih ⊢
    rw [List.flatMap_cons, List.lookup_append, lookup_pairs]
    by_cases here : g ∈ a.declares
    · have elsewhere : ∀ b ∈ rest, g ∉ b.declares := fun b inside declares =>
        apart g here g (List.mem_flatMap.mpr ⟨b, inside, declares⟩) rfl
      simp only [here, if_true, Option.some_or, Option.getD_some, List.mem_cons, exists_eq_or_imp, true_and]
      constructor
      · exact .inl
      · rintro (inside | ⟨b, inside, declares, _⟩)
        · exact inside
        · exact absurd declares (elsewhere b inside)
    · simp only [here, if_false, Option.none_or, ih, List.mem_cons, exists_eq_or_imp, false_and, false_or]

/-! ## Ordering the globals -/

theorem forM_reports {cause : Cause} : ∀ {spans : List Span} {problems : List Diagnostic},
    (spans.forM (report cause)).run ⟨t, problems⟩ = .ok ((), ⟨t, problems ++ spans.map (Diagnostic.mk cause)⟩)
  | [], problems => by
    rw [List.map_nil, List.append_nil]
    rfl
  | span :: spans, problems => by
    rw [List.forM, run_seq run_report, forM_reports, List.map_cons, List.append_assoc]
    rfl

/-- **Ordering the globals** always goes through. -/
theorem orderGlobals_run {refs : References} (sound : t.Sound bound)
    (targets : ∀ g, ∀ r ∈ refs.of g, t.IsGlobal r.target)
    (calm : ∀ g, t.IsGlobal g → t.statusOf g = .unset ∨ t.statusOf g = .ready) :
    ∃ w, Walked refs t [] w ∧ (∀ g, t.IsGlobal g → w.table.statusOf g = .ready) ∧ ∀ problems,
        (orderGlobals refs).run ⟨t, problems⟩ =
        .ok (w.order, ⟨w.table, problems ++ w.circular.map (Diagnostic.mk .circularReference)⟩) := by
  have listed : ∀ s ∈ t.symbols.toList.filter (·.isGlobal), t.symbol? s.id = some s ∧ s.isGlobal := by
    intro s inside
    obtain ⟨inside, isGlobal⟩ := List.mem_filter.mp inside
    exact ⟨sound.listed inside, isGlobal⟩
  obtain ⟨w, ran, walked, ready⟩ := orderGlobals_walks targets listed calm
  refine ⟨w, walked, fun g isGlobal => ?_, fun problems => ?_⟩
  · obtain ⟨s, held, isGlobal⟩ := isGlobal
    have inside : s ∈ t.symbols.toList.filter (·.isGlobal) :=
      List.mem_filter.mpr ⟨Array.mem_toList_iff.mpr (Array.mem_of_getElem? held), isGlobal⟩
    rw [← sound.numbered held]
    exact ready s inside
  · unfold orderGlobals
    rw [run_seq run_table, run_seq (run_lift ran), run_seq rfl, run_seq forM_reports]
    rfl

end Binding

end Quasicode
