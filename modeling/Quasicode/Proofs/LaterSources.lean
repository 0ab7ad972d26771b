import Quasicode.Proofs.HierarchyRebuilt
import Quasicode.Proofs.QuietPrograms

/-!
What a source that declares no class does to the classes of the source before it. It declares
functions, and then the hierarchy is built again over the classes that are there; nothing after
that touches a class, or a method but for making it ready.
-/
namespace Quasicode

open Relation Analysis Hierarchy

/-! ## Declarations without a class -/

theorem resolveType_keeps {I : AnalysisState → Prop} (stable : ReportStable I) (type : TypeName) :
    Keeps I (resolveType type) fun _ => True := by
  unfold resolveType
  refine Keeps.table.seq fun t => ?_
  split
  · exact .done
  · exact (Keeps.report stable rfl).seq fun _ => .done
  · exact .fail

namespace Binding

variable {t : Table} {problems : List Diagnostic} {items : List Item}

theorem paramTypes_keeps {I : AnalysisState → Prop} (stable : ReportStable I) : ∀ params : List Param,
    Keeps I (paramTypes params) fun _ => True
  | [] => .done
  | p :: ps => by
    unfold paramTypes
    split
    · exact (resolveType_keeps stable _).seq fun _ => (paramTypes_keeps stable ps).seq fun _ => .done
    · exact Keeps.done.seq fun _ => (paramTypes_keeps stable ps).seq fun _ => .done

theorem addOverload_since (scope : ScopeId) (name : Ident) (id : SymbolId) :
    Keeps (Since t problems) (addOverload scope name false id) fun _ => True := by
  unfold addOverload
  have sets : Keeps (Since t problems) (update (·.overloadSet scope name.name name.span false)) fun _ => True := by
    refine .update fun since found => ?_
    obtain ⟨held, _, found⟩ := bind_eq_ok.mp found
    cases held with
    | some set =>
      cases found
      exact since
    | none => exact ⟨since.members.declare rfl rfl found, since.problems⟩
  refine sets.seq fun set => Keeps.symbol.seq fun s => ?_
  split
  · refine (Keeps.change fun since changed => ?_).seq fun _ => .done
    exact ⟨since.members.modify (Symbol.member_overloads _) changed, since.problems⟩
  · exact (Keeps.fail (Q := fun _ => True)).seq fun _ => .done

theorem declareFunction_since (f : Function) :
    Keeps (Since t problems) (declareFunction .root none f) fun _ => True := by
  unfold declareFunction
  refine (paramTypes_keeps Since.reportStable _).seq fun params => ?_
  extract_lets name key declared
  have declares (returns : Ty) : Keeps (Since t problems) (declared returns) fun _ => True := by
    refine Keeps.asks.seq fun found => .ite (fun _ => .reports Since.reportStable rfl trivial) fun _ => ?_
    have taken : Keeps (Since t problems) (isClassNameIn .root name) fun _ => True := by
      refine Keeps.asks.seq fun held => ?_
      split
      · exact .done
      · exact Keeps.symbol.seq fun _ => .done
    refine taken.seq fun _ => .ite (fun _ => .reports Since.reportStable rfl trivial) fun _ => ?_
    have places : Keeps (Since t problems)
        (declare .root key f.name.span (functionKind f ⟨returns, params, requiredParams f.params, params.length⟩ none))
        fun _ => True := .update fun since ran => ⟨since.members.declare rfl rfl ran, since.problems⟩
    exact places.seq fun id => (addOverload_since .root f.name id).seq fun _ => Keeps.done.seq fun _ => .done
  split
  · exact (resolveType_keeps Since.reportStable _).seq declares
  · exact Keeps.done.seq declares

/-- No item is a class. -/
def NoClass (items : List Item) : Prop := ∀ c, Item.cls c ∉ items

theorem mapM_mapClasses {f : Class → Analysis Class} (none : NoClass items) :
    items.mapM (mapClasses f) = pure items := by
  induction items with
  | nil => rfl
  | cons item items ih =>
    have rest := ih fun c inside => none c (List.mem_cons_of_mem _ inside)
    rw [List.mapM_cons, rest]
    cases item with
    | cls c => exact absurd List.mem_cons_self (none c)
    | function | stmt => rfl

theorem declareAll_since (none : NoClass items) : Keeps (Since t problems) (declareAll items) fun _ => True := by
  have functions : Keeps (Since t problems) (items.mapM (mapFunctions (declareFunction .root .none)))
      fun _ => True := by
    refine (Keeps.mapM (R := fun _ => True) fun item _ => ?_).mono fun _ _ => trivial
    cases item with
    | function f => exact (declareFunction_since f).seq fun _ => .done
    | cls | stmt => exact .done
  unfold declareAll
  rwa [mapM_mapClasses none, pure_bind, mapM_mapClasses none, pure_bind]

theorem NoClass.of_bare {out : List Item} (none : NoClass items)
    (same : out.map Item.bare = items.map Item.bare) : NoClass out := by
  intro c inside
  have among : (Item.cls c).bare ∈ items.map Item.bare := same ▸ List.mem_map_of_mem inside
  obtain ⟨item, inside, same⟩ := List.mem_map.mp among
  cases item with
  | cls c' => exact none c' inside
  | function | stmt => cases same

/-- Without a class no edge names a superclass. -/
theorem classEdges_lone {symbols : List Symbol} {edges : List Edge} {s s' : AnalysisState} (none : NoClass items)
    (ran : (classEdges items symbols).run s = .ok (edges, s')) : s' = s ∧ ∀ e ∈ edges, e.superclass = .none := by
  have unnamed (id : SymbolId) : superclassName items id = .none := by
    apply List.findSome?_eq_none_iff.mpr
    intro item inside
    cases item with
    | cls c => exact absurd inside (none c)
    | function | stmt => rfl
  induction symbols generalizing edges with
  | nil =>
    cases ran
    exact ⟨rfl, by simp⟩
  | cons symbol symbols ih =>
    unfold classEdges at ran
    rw [unnamed] at ran
    split at ran
    · obtain ⟨_, _, ⟨⟩, ran⟩ := run_bind_ok.mp ran
      obtain ⟨rest, mid, asks, ⟨⟩⟩ := run_bind_ok.mp ran
      obtain ⟨same, lone⟩ := ih asks
      exact ⟨same, List.forall_mem_cons.mpr ⟨rfl, lone⟩⟩
    · exact ih ran

end Binding

open Binding (NoClass)

/-! ## The analysis -/

variable {bound : Nat} {t t₁ t₂ t' : Table} {program program' : Program} {order : List SymbolId} {s : AnalysisState}

theorem Hierarchy.Descends.same {a c : SymbolId} {n : Nat} (same : t.SameMembers t') (descends : Descends t a c n) :
    Descends t' a c n := by
  induction descends with
  | here => exact .here
  | step up _ ih => exact .step (same.under_iff.mpr up) ih

/-- Before and after the build the classes and methods stay as they are. -/
theorem Hierarchy.Rebuilt.between (before : t.SameMembers t₁) (rebuilt : Rebuilt t₁ t₂)
    (after : t₂.SameMembers t') : Rebuilt t t' := by
  constructor
  · intro c
    rw [after.class_same, rebuilt.classes, before.class_same]
  · intro a c n isClass descends latest
    rw [after.class_same]
    exact rebuilt.depth (before.class_same c ▸ isClass) (descends.same before)
      fun above => latest (above.same before.symm)
  · intro m
    rw [after.sameMethods.method, rebuilt.methods, before.sameMethods.method]
  · intro m method method' held held'
    obtain ⟨_, held₁⟩ := before.symm.method_ready held
    obtain ⟨_, held₂⟩ := after.method_ready held'
    exact (rebuilt.overriders held₁ held₂ :)

/-- What a program makes of methods that override. -/
theorem analysis_overriding (standing : t.Standing bound) (declared : t.Declared none)
    (fresh : ∀ item ∈ program.items, item.Fresh bound)
    (ran : (analysis program).run ⟨t, []⟩ = .ok ((program', order), s)) :
    Overriding s.table ∧ ((∀ d ∈ s.problems, d.cause.ofOverriding = false) → Settled s.table) := by
  obtain ⟨_, s₁, declares, decorates⟩ := analysis_decorates standing fresh ran
  obtain ⟨later, grown, _⟩ := decorates.since.problems
  obtain ⟨_, overriding, settled⟩ := Binding.declareItems_overriding standing.intact declared fresh declares
  refine ⟨decorates.since.members.overriding overriding,
    fun silent => decorates.since.members.settled (settled fun d inside => ?_)⟩
  exact silent d (grown ▸ List.mem_append_left _ inside)

/-- What a program without a class makes of the classes that are there. -/
theorem analysis_rebuilt (standing : t.Standing bound) (overriding : Overriding t)
    (fresh : ∀ item ∈ program.items, item.Fresh bound)
    (none : NoClass program.items) (ran : (analysis program).run ⟨t, []⟩ = .ok ((program', order), s)) :
    Rebuilt t s.table ∧ (∀ d ∈ s.problems, d.cause.ofHierarchy → d.cause.ofOverriding) ∧
      (Settled t → ∀ d ∈ s.problems, d.cause.ofHierarchy = false) := by
  obtain ⟨out, built, declares, decorates⟩ := analysis_decorates standing fresh ran
  obtain ⟨s₁, s₂, edges, declared, lays, asks, -, all, -, builds⟩ :=
    Binding.declareItems_parts standing.intact fresh declares
  obtain ⟨since, -⟩ := (Binding.declareAll_since none).run (.refl ⟨t, []⟩) declared
  obtain ⟨-, bare, -⟩ := (Binding.declareAll_dresses fun item inside => (fresh item inside).all_unset).run
    trivial declared
  obtain ⟨rfl, lone⟩ := Binding.classEdges_lone (none.of_bare bare) asks
  obtain ⟨t₂, found, builds', rebuilt, wrong, silent⟩ :=
    build_again lays.intact (since.members.overriding overriding) all lone
  cases builds'.symm.trans builds
  obtain ⟨early, grown, others⟩ := since.problems
  obtain ⟨late, grown', others'⟩ := decorates.since.problems
  have problems : s.problems = early ++ found ++ late := by rw [grown', grown]; rfl
  simp only [problems, List.forall_mem_append]
  refine ⟨rebuilt.between since.members decorates.since.members,
    ⟨⟨fun d inside ofHierarchy => ?_, fun d inside _ => wrong d inside⟩, fun d inside ofHierarchy => ?_⟩,
    fun settled => ⟨⟨others, ?_⟩, others'⟩⟩
  · simp [others d inside] at ofHierarchy
  · simp [others' d inside] at ofHierarchy
  · simp [silent (since.members.settled settled)]

/-! ## Two sources -/

theorem Program.noClass (none : program.classes = []) : NoClass program.items := by
  intro c inside
  have among : c ∈ program.classes := List.mem_filterMap.mpr ⟨.cls c, inside, rfl⟩
  simp [none] at among

/-- **A source without a class** leaves the classes of the source before it linked as they are. It counts their depths
anew, gives methods overriders that they have, and reports no class for inheriting from itself; methods that override
wrongly it reports only if the source before it did. -/
theorem classes_rebuilt (classNames : List String) (first second : String) :
    ∃ t parsed₁ analyzed₁ parsed₂ analyzed₂, Table.initial = .ok t ∧
      parse (scan first).tokens (Builtin.classNames ++ classNames) = .ok parsed₁ ∧
      analyze t parsed₁.program = .ok analyzed₁ ∧
      parse (scan second).tokens (Builtin.classNames ++ classNames) = .ok parsed₂ ∧
      analyze analyzed₁.table parsed₂.program = .ok analyzed₂ ∧
        (parsed₂.program.classes = [] → Rebuilt analyzed₁.table analyzed₂.table ∧
        (∀ d ∈ analyzed₂.problems, d.cause.ofHierarchy → d.cause.ofOverriding) ∧
        ((∀ d ∈ analyzed₁.problems, d.cause.ofOverriding = false) → ∀ d ∈ analyzed₂.problems,
        d.cause.ofHierarchy = false)) := by
  obtain ⟨parsed₁, read₁, fresh₁, -⟩ :=
    source_within first (Builtin.classNames ++ classNames) (Nat.le_max_left _ (second.length + 2))
  obtain ⟨parsed₂, read₂, fresh₂, -⟩ :=
    source_within second (Builtin.classNames ++ classNames) (Nat.le_max_right (first.length + 2) _)
  obtain ⟨t, initial, standing, -⟩ := Table.initial_standing (max (first.length + 2) (second.length + 2))
  obtain ⟨_, _, s₁, ran₁, standing₁, -⟩ := analysis_run standing fresh₁
  obtain ⟨_, _, s₂, ran₂, -⟩ := analysis_run standing₁.reset fresh₂
  refine ⟨t, parsed₁, _, parsed₂, _, initial, read₁, analyze_eq ran₁, read₂,
    analyze_eq (t := s₁.table) ran₂, fun none => ?_⟩
  obtain ⟨overriding, settled⟩ := analysis_overriding standing (Table.initial_declared initial).resetToRoot fresh₁ ran₁
  have reset : s₁.table.SameMembers s₁.table.resetToRoot := fun _ => rfl
  obtain ⟨rebuilt, wrong, silent⟩ := analysis_rebuilt standing₁.reset (reset.overriding overriding) fresh₂
    (Program.noClass none) ran₂
  exact ⟨rebuilt.between reset (.refl _), wrong, fun right => silent (reset.settled (settled right))⟩

/-- A class that is declared before the one above it, with a method that overrides. -/
def rightOverride : String := "class B extends A
function f()
end function
end class
class A
function f()
end function
end class
"

/-- A function and a statement that use the classes of another source. -/
def callingFunction : String := "function g(a: A)
a.f()
end function
g(new B())
"

theorem rightOverride_rebuilt : ∃ t parsed₁ analyzed₁ parsed₂ analyzed₂, Table.initial = .ok t ∧
      parse (scan rightOverride).tokens (Builtin.classNames ++ []) = .ok parsed₁ ∧
      analyze t parsed₁.program = .ok analyzed₁ ∧
      parse (scan callingFunction).tokens (Builtin.classNames ++ []) = .ok parsed₂ ∧
      analyze analyzed₁.table parsed₂.program = .ok analyzed₂ ∧ parsed₂.program.classes = [] ∧
      Rebuilt analyzed₁.table analyzed₂.table ∧ ∀ d ∈ analyzed₂.problems, d.cause.ofHierarchy = false := by
  obtain ⟨t, parsed₁, analyzed₁, parsed₂, analyzed₂, initial, read₁, ran₁, read₂, ran₂, rebuilds⟩ :=
    classes_rebuilt [] rightOverride callingFunction
  have shown : (parse (scan callingFunction).tokens (Builtin.classNames ++ [])).toOption.all
      (·.program.classes.isEmpty) := by
    decide +kernel
  rw [read₂] at shown
  have none : parsed₂.program.classes = [] := List.isEmpty_iff.mp shown
  have quiet : analyzed₁.problems = [] := analyzed_of_compilesQuietly (by decide +kernel) initial read₁ ran₁
  obtain ⟨rebuilt, -, silent⟩ := rebuilds none
  exact ⟨t, parsed₁, analyzed₁, parsed₂, analyzed₂, initial, read₁, ran₁, read₂, ran₂, none, rebuilt,
    silent (by simp [quiet])⟩

/-! ## What a later source disturbs -/

/-- A method that overrides another one with another type. -/
def wrongOverride : String := "class A
function f(): int
return 1
end function
end class
class B extends A
function f(): double
return 1.0
end function
end class
"

/-- A source after another one has changed the depth of the class `c` and the overriders of the method `m`, and it
reports a wrong override, though it is empty. -/
def disturbs (c m : SymbolId) : List Analyzed → Bool
  | [a, b] => b.program.items.isEmpty && b.problems.any (·.cause == .overrideReturnMismatch) &&
    (a.table.class? c).bind ClassSymbol.depth != (b.table.class? c).bind ClassSymbol.depth &&
    (a.table.method? m).map MethodSymbol.overriders != (b.table.method? m).map MethodSymbol.overriders
  | _ => false

/-- After a wrong override even an empty source changes a depth and a list of overriders, and
reports the override again. -/
theorem classes_disturbed : ∃ t a b, Table.initial = .ok t ∧ analyzeAll [] t [wrongOverride, ""] = .ok [a, b] ∧
    b.program.items = [] ∧ (∃ d ∈ b.problems, d.cause = .overrideReturnMismatch) ∧
    (∃ c, (a.table.class? c).bind ClassSymbol.depth ≠ (b.table.class? c).bind ClassSymbol.depth) ∧
    ∃ m, (a.table.method? m).map MethodSymbol.overriders ≠ (b.table.method? m).map MethodSymbol.overriders := by
  have shown : (do analyzeAll [] (← Table.initial) [wrongOverride, ""] : Except Fault _).toOption.any
      (disturbs ⟨30⟩ ⟨31⟩) := by
    decide +kernel
  obtain ⟨t, initial, -⟩ := Table.initial_standing 0
  cases ran : analyzeAll [] t [wrongOverride, ""] with
  | error fault => simp [initial, ran, Except.toOption] at shown
  | ok results =>
    replace shown : disturbs ⟨30⟩ ⟨31⟩ results := by simpa [initial, ran, Except.toOption] using shown
    rcases results with _ | ⟨a, _ | ⟨b, _ | ⟨_, _⟩⟩⟩
    · cases shown
    · cases shown
    · simp only [disturbs, Bool.and_eq_true, List.isEmpty_iff, List.any_eq_true, beq_iff_eq, bne_iff_ne] at shown
      obtain ⟨⟨⟨empty, again⟩, deeper⟩, more⟩ := shown
      exact ⟨t, a, b, initial, ran, empty, again, ⟨⟨30⟩, deeper⟩, ⟨31⟩, more⟩
    · cases shown

end Quasicode
