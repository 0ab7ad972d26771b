import Mathlib.Logic.Basic
import Quasicode.Proofs.FieldPaths
import Quasicode.Proofs.QuietPrograms

/-!
Definite initialization is exact: the check of a constructor reports nothing if and only if no path through its body
goes wrong. Every part of the check is compared with the paths through what it checks. It reports something if some
path misses one of the fields it still holds, and afterwards it holds those that some path past the part leaves
unassigned.
-/
namespace Quasicode

/-! ## Resolved bodies -/

/-- The variable of a node and the methods of its target are symbols of the table. -/
def Expr.Resolved (t : Table) : Expr → Prop
  | .var _ _ slot | .assignee _ _ _ slot _ => ∀ id ∈ slot, (t.symbol? id).isSome
  | .call _ _ _ _ target => ∀ x ∈ target, ∀ id ∈ x.methods, (t.symbol? id).isSome
  | _ => True

/-- Where some method that a target holds runs on an object, the first one does. -/
def CallTarget.Led (t : Table) (target : CallTarget) : Prop :=
  target.methods.any t.isObjectMethod → target.methods.head?.any t.isObjectMethod

/-- The target of a call is one that its first method speaks for. -/
def Expr.Led (t : Table) : Expr → Prop
  | .call _ _ _ _ target => ∀ x ∈ target, x.Led t
  | _ => True

/-- A node as the check of a constructor has to find it, to see what it does. -/
structure Expr.Shown (t : Table) (e : Expr) : Prop where
  resolved : e.Resolved t
  led : e.Led t

theorem holdsInAll_shown {t : Table} {ss : List Stmt} (resolved : holdsInAll (.nodes (Expr.Resolved t)) ss)
    (led : holdsInAll (.nodes (Expr.Led t)) ss) : holdsInAll (.nodes (Expr.Shown t)) ss :=
  holdsInAll_meet (Checks.nodes_meet fun _ => .mk) resolved led

/-- A target that its first method speaks for runs a method on an object if and only if that one does. -/
theorem CallTarget.Led.head {t : Table} {target : CallTarget} (led : target.Led t) :
    target.methods.any t.isObjectMethod = target.methods.head?.any t.isObjectMethod := by
  refine Bool.eq_iff_iff.mpr ⟨led, fun first => ?_⟩
  cases held : target.methods with
  | nil => simp [held] at first
  | cons id rest =>
    rw [held] at first
    exact List.any_eq_true.mpr ⟨id, List.mem_cons_self, first⟩

namespace Flow

open Analysis

variable {t : Table} {id : SymbolId} {unset : Unset} {first second traces : Traces}
variable {span : Span} {s : AnalysisState} {target : Option CallTarget} {watch : Unset → Analysis Unit}
variable {elseIfs : List ElseIf}
  {required : Unset}

/-- The fields that are held are fields of the table. -/
def Fields (t : Table) (unset : Unset) : Prop := ∀ id ∈ unset, t.isField id

/-! ## Expressions -/

/-- The check of something on whose paths nothing is assigned. It reports something if and only if some path
misses one of the fields. -/
structure Follows (t : Table) (check : Unset → Analysis Unit) (traces : Traces) : Prop where
  plain : traces.Plain
  run : ∀ {unset : Unset} {s : AnalysisState}, s.table = t → Fields t unset →
    ∃ found, (check unset).run s = .ok ((), { s with problems := s.problems ++ found }) ∧
      (found = [] ↔ ∀ id ∈ unset, traces.Quiet id)

theorem follows_nothing : Follows t (fun _ => pure ()) (· = []) := by
  refine ⟨Traces.plain_of_eq fun _ => List.not_mem_nil, fun {unset s} _ _ => ?_⟩
  refine ⟨[], by simp, iff_of_true rfl fun id _ => ?_⟩
  exact Traces.quiet_eq.mpr misses_nil

theorem Follows.seq {check check' : Unset → Analysis Unit} (one : Follows t check first)
    (two : Follows t check' second) :
    Follows t (fun unset => do check unset; check' unset) (first.seq second) := by
  refine ⟨one.plain.seq two.plain, fun {unset s} atTable fields => ?_⟩
  obtain ⟨found, ran, quiet⟩ := one.run atTable fields
  obtain ⟨found', ran', quiet'⟩ := @two.run unset { s with problems := s.problems ++ found } atTable fields
  have split {id : SymbolId} := @Traces.quiet_seq id first second two.plain.possible
  refine ⟨found ++ found', ?_, ?_⟩
  · rw [run_seq ran, ran']
    simp
  · rw [List.append_eq_nil_iff, quiet, quiet']
    constructor
    · rintro ⟨quietFirst, quietSecond⟩ id inside
      exact split.mpr ⟨quietFirst id inside, fun _ => quietSecond id inside⟩
    · intro both
      refine ⟨fun id inside => ?_, fun id inside => ?_⟩
      · exact (split.mp (both id inside)).1
      · exact (split.mp (both id inside)).2 (one.plain.avoids id)

theorem Follows.orNot {check : Unset → Analysis Unit} (follows : Follows t check traces) :
    Follows t check traces.orNot := by
  refine ⟨follows.plain.orNot, fun {unset s} atTable fields => ?_⟩
  obtain ⟨found, ran, quiet⟩ := follows.run atTable fields
  refine ⟨found, ran, quiet.trans ?_⟩
  exact forall₂_congr fun id _ => Traces.quiet_orNot.symm

/-- An event that needs every field is reported where one is left. -/
theorem follows_whole {event : Event} {cause : Cause} {span : Span} (needs : ∀ id, event.Needs id) :
    Follows t (fun unset => if !unset.isEmpty then report cause span else pure ()) (· = [event]) := by
  have unassigned : ∀ id, .assign id ∉ [event] := by
    intro id inside
    rw [← List.mem_singleton.mp inside] at needs
    exact needs id
  refine ⟨Traces.plain_of_eq unassigned, fun {unset s} _ _ => ?_⟩
  cases unset with
  | nil => exact ⟨[], by simp, by simp⟩
  | cons id rest =>
    refine ⟨[⟨cause, span⟩], by simp [run_report], iff_of_false (by simp) fun quiet => ?_⟩
    exact quiet id (by simp) [event] rfl (misses_cons.mpr (.inl (needs id)))

theorem field_symbol (isField : t.isField id) : ∃ sym, t.symbol? id = some sym := by
  unfold Table.isField at isField
  cases held : t.symbol? id with
  | none => simp [held] at isField
  | some sym => exact ⟨sym, rfl⟩

theorem follows_read {slot : Option SymbolId} :
    Follows t (fun unset => checkRead unset slot span) (· = readOf slot) := by
  cases slot with
  | none => exact follows_nothing
  | some field =>
    refine ⟨Traces.plain_of_eq (by simp [readOf]), fun {unset s} atTable fields => ?_⟩
    by_cases inside : field ∈ unset
    · obtain ⟨sym, held⟩ := field_symbol (fields field inside)
      refine ⟨[⟨.fieldBeforeInit sym.name, span⟩], ?_, iff_of_false (by simp) fun quiet => ?_⟩
      · simp only [checkRead, List.contains_iff_mem, inside, if_true]
        rw [run_seq (run_symbol (atTable ▸ held))]
        exact run_report
      · have needs : (Event.read field).Needs field := rfl
        exact quiet field inside [.read field] rfl (misses_cons.mpr (.inl needs))
    · refine ⟨[], by simp [checkRead, inside], iff_of_true rfl fun id inside' => ?_⟩
      rw [Traces.quiet_eq, readOf, misses_cons]
      rintro (needs | ⟨_, later⟩)
      · exact inside ((show field = id from needs) ▸ inside')
      · exact misses_nil later

/-- A call is judged by the first method that its target holds. -/
theorem runsMethod_run (resolved : ∀ x ∈ target, ∀ id ∈ x.methods, (s.table.symbol? id).isSome) :
    (runsMethod target).run s = .ok (target.any fun x => x.methods.head?.any s.table.isObjectMethod, s) := by
  have runs {id : SymbolId} (exists_ : (s.table.symbol? id).isSome) :
      (do return (← symbol id).method?.any fun m => !m.isStatic && !m.isConstructor : Analysis Bool).run s =
        .ok (s.table.isObjectMethod id, s) := by
    obtain ⟨sym, held⟩ := Option.isSome_iff_exists.mp exists_
    rw [run_seq (run_symbol held)]
    simp [Table.isObjectMethod, held]
  unfold runsMethod
  cases target with
  | none => rfl
  | some target =>
    have known := resolved target rfl
    cases target with
    | unique id => exact runs (known id (by simp [CallTarget.methods]))
    | byClass methods =>
      cases methods with
      | nil => rfl
      | cons head rest => exact runs (known head.2 (by simp [CallTarget.methods]))

theorem follows_method (callee : Callee) (span : Span)
    (resolved : ∀ x ∈ target, ∀ id ∈ x.methods, (t.symbol? id).isSome) (led : ∀ x ∈ target, x.Led t) :
    Follows t (fun unset => checkMethodCall unset callee target span)
      (· = if t.runsOnThis callee target then [.runMethod] else []) := by
  refine ⟨Traces.plain_of_eq (by split <;> simp), fun {unset s} atTable fields => ?_⟩
  subst atTable
  unfold checkMethodCall Table.runsOnThis
  cases isOnThis callee with
  | false => exact follows_nothing.run rfl fields
  | true =>
    cases unset with
    | nil => exact ⟨[], by simp, by simp⟩
    | cons id rest =>
      have judged : (target.any fun x => x.methods.head?.any s.table.isObjectMethod) =
          target.any fun x => x.methods.any s.table.isObjectMethod := by
        cases target with
        | none => rfl
        | some x => exact (led x rfl).head.symm
      simp only [List.isEmpty_cons, Bool.not_false, Bool.and_self, if_true, Bool.true_and]
      rw [run_seq (runsMethod_run resolved), judged]
      cases target.any fun x => x.methods.any s.table.isObjectMethod with
      | false => exact follows_nothing.run rfl fields
      | true => exact (@follows_whole _ .runMethod _ span fun _ => trivial).run rfl fields

mutual

/-- The check of an expression follows the paths through it. -/
theorem checkExpr_follows : ∀ {e : Expr}, e.All (Expr.Shown t) → Follows t (fun unset => checkExpr unset e) (e.traces t)
  | .this _ _, _ => @follows_whole _ .useThis _ _ fun _ => trivial
  | .var _ _ _, _ => follows_read
  | .member _ object _ field, shown => by
    unfold Expr.traces checkExpr
    cases object.isThis with
    | true => exact follows_read
    | false => exact checkExpr_follows (e := object) shown.2
  | .call info callee _ arguments target, ⟨here, ofCallee, ofArguments⟩ => by
    have parts := (checkCallee_follows ofCallee).seq (checkExprs_follows ofArguments)
    have all := parts.seq (follows_method callee info.span here.resolved here.led)
    simp only [bind_assoc] at all
    exact all
  | .group _ e, shown | .widen _ e, shown | .unary _ _ e, shown | .cast _ _ e, shown
  | .isType _ e _ _, shown => checkExpr_follows (e := e) shown.2
  | .subscript _ _ _, shown | .binary _ _ _ _, shown => (checkExpr_follows shown.2.1).seq (checkExpr_follows shown.2.2)
  | .logical _ _ _ _, shown => (checkExpr_follows shown.2.1).seq (checkExpr_follows shown.2.2).orNot
  | .arrayLiteral _ es, shown | .newArray _ _ es, shown | .newObject _ _ es _, shown =>
    @checkExprs_follows es shown.2
  | .literal _ _, _ | .classRef _ _ _, _ | .superField _ _ _ _, _ | .assignee _ _ _ _ _, _ => follows_nothing

theorem checkExprs_follows : ∀ {es : List Expr}, allOf (Expr.Shown t) es →
    Follows t (fun unset => checkExprs unset es) (tracesOfAll t es)
  | [], _ => follows_nothing
  | _ :: _, ⟨shown, rest⟩ => (checkExpr_follows shown).seq (checkExprs_follows rest)

theorem checkCallee_follows : ∀ {callee : Callee}, callee.All (Expr.Shown t) →
    Follows t (fun unset => checkCallee unset callee) (callee.traces t)
  | .object receiver, shown => by
    unfold Callee.traces checkCallee
    cases receiver.isThis with
    | true => exact follows_nothing
    | false => exact checkExpr_follows (e := receiver) shown
  | .free, _ | .super, _ | .superConstructor, _ => follows_nothing

end

/-! ## Assignments -/

/-- The check of something that is always passed. Afterwards it holds the fields that some path leaves
unassigned. -/
structure Updates (t : Table) (check : Unset → Analysis Unset) (traces : Traces) : Prop where
  possible : ∃ es, traces es
  run : ∀ {unset : Unset} {s : AnalysisState}, s.table = t → Fields t unset →
    ∃ found after, (check unset).run s = .ok (after, { s with problems := s.problems ++ found }) ∧
      (found = [] ↔ ∀ id ∈ unset, traces.Quiet id) ∧ ∀ id, id ∈ after ↔ id ∈ unset ∧ traces.Avoids id

theorem Follows.updates {check : Unset → Analysis Unit} (follows : Follows t check traces) :
    Updates t (fun unset => do check unset; return unset) traces := by
  refine ⟨follows.plain.possible, fun {unset s} atTable fields => ?_⟩
  obtain ⟨found, ran, quiet⟩ := follows.run atTable fields
  refine ⟨found, unset, ?_, quiet, fun id => ?_⟩
  · rw [run_seq ran]
    rfl
  · exact (and_iff_left (follows.plain.avoids id)).symm

/-- What holds of all fields before a part, and of those left after it. -/
theorem forall_left {before after : Unset} {P Q R : SymbolId → Prop} (left : ∀ id, id ∈ after ↔ id ∈ before ∧ R id) :
    ((∀ id ∈ before, P id) ∧ ∀ id ∈ after, Q id) ↔ ∀ id ∈ before, P id ∧ (R id → Q id) := by
  constructor
  · rintro ⟨first, second⟩ id inside
    exact ⟨first id inside, fun remains => second id ((left id).mpr ⟨inside, remains⟩)⟩
  · intro both
    refine ⟨fun id inside => (both id inside).1, fun id inside => ?_⟩
    obtain ⟨inside, remains⟩ := (left id).mp inside
    exact (both id inside).2 remains

theorem Updates.seq {check check' : Unset → Analysis Unset} (one : Updates t check first)
    (two : Updates t check' second) :
    Updates t (fun unset => do check' (← check unset)) (first.seq second) := by
  obtain ⟨x, heldX⟩ := one.possible
  obtain ⟨y, heldY⟩ := two.possible
  refine ⟨⟨x ++ y, x, y, heldX, heldY, rfl⟩, fun {unset s} atTable fields => ?_⟩
  obtain ⟨found, between, ran, quiet, left⟩ := one.run atTable fields
  have fieldsBetween : Fields t between := fun id inside => fields id ((left id).mp inside).1
  obtain ⟨found', after, ran', quiet', left'⟩ :=
    @two.run between { s with problems := s.problems ++ found } atTable fieldsBetween
  refine ⟨found ++ found', after, ?_, ?_, fun id => ?_⟩
  · rw [run_seq ran, ran']
    simp
  · rw [List.append_eq_nil_iff, quiet, quiet', forall_left left]
    exact forall₂_congr fun id _ => (Traces.quiet_seq two.possible).symm
  · rw [left', left, Traces.avoids_seq, and_assoc]

/-- Where nothing is reported and every field is left, the paths may do nothing that matters. -/
theorem updates_quiet {es : List Event} (quiet : ∀ id, t.isField id → ¬ Misses id es)
    (unassigned : ∀ id, .assign id ∉ es) : Updates t (fun unset => pure unset) (· = es) := by
  refine ⟨⟨es, rfl⟩, fun {unset s} _ fields => ⟨[], unset, by simp, ?_, fun id => ?_⟩⟩
  · exact iff_of_true rfl fun id inside => Traces.quiet_eq.mpr (quiet id (fields id inside))
  · exact (and_iff_left ⟨es, rfl, unassigned id⟩).symm

theorem updates_nothing : Updates t (fun unset => pure unset) (· = []) :=
  updates_quiet (fun _ _ => misses_nil) fun _ => List.not_mem_nil

/-- Reading what is no field matters to no field. -/
theorem updates_read (noField : t.isField id = false) : Updates t (fun unset => pure unset) (· = [.read id]) := by
  refine updates_quiet (fun field isField misses => ?_) (by simp)
  rcases misses_cons.mp misses with needs | ⟨_, later⟩
  · obtain rfl : id = field := needs
    rw [noField] at isField
    cases isField
  · exact misses_nil later

/-- Assigning a field takes it off. -/
theorem updates_assign : Updates t (fun unset => pure (unset.filter (· ≠ id))) (· = [.assign id]) := by
  refine ⟨⟨_, rfl⟩, fun {unset s} _ _ => ⟨[], _, by simp; rfl, iff_of_true rfl fun field _ => ?_, fun field => ?_⟩⟩
  · rw [Traces.quiet_eq, misses_cons]
    rintro (needs | ⟨_, later⟩)
    · exact needs
    · exact misses_nil later
  · have avoids : Traces.Avoids field (· = [.assign id]) ↔ field ≠ id := by simp [Traces.Avoids]
    simp [avoids]

theorem isInstanceField_run (exists_ : (s.table.symbol? id).isSome) :
    (isInstanceField id).run s = .ok (s.table.isField id, s) := by
  obtain ⟨sym, held⟩ := Option.isSome_iff_exists.mp exists_
  unfold isInstanceField
  rw [run_seq (run_symbol held)]
  simp [Table.isField, held]

/-- A bare name assigns what it stands for if that is a field. -/
theorem updates_name (exists_ : (t.symbol? id).isSome)
    (other : t.isField id = false → Updates t (fun unset => pure unset) traces) :
    Updates t (fun unset => do return if ← isInstanceField id then unset.filter (· ≠ id) else unset)
      (if t.isField id then (· = [.assign id]) else traces) := by
  have same {s : AnalysisState} {unset : Unset} (atTable : s.table = t) :
      (do return if ← isInstanceField id then unset.filter (· ≠ id) else unset : Analysis Unset).run s =
        (pure (if t.isField id then unset.filter (· ≠ id) else unset) : Analysis Unset).run s := by
    subst atTable
    rw [run_seq (isInstanceField_run exists_)]
  cases isField : t.isField id with
  | true =>
    refine ⟨⟨_, rfl⟩, fun {unset s} atTable fields => ?_⟩
    rw [same atTable, isField]
    exact updates_assign.run atTable fields
  | false =>
    refine ⟨(other isField).possible, fun {unset s} atTable fields => ?_⟩
    rw [same atTable, isField]
    exact (other isField).run atTable fields

/-- A field named on the object itself is assigned. -/
theorem updates_own_field :
    Updates t (fun unset => pure (unset.filter (· ≠ id)))
      (if t.isField id then (· = [.assign id]) else (· = [.read id])) := by
  cases isField : t.isField id with
  | true => exact updates_assign
  | false =>
    refine ⟨⟨_, rfl⟩, fun {unset s} atTable fields => ?_⟩
    have untouched : unset.filter (· ≠ id) = unset := by
      refine List.filter_eq_self.mpr fun field inside => decide_eq_true fun same => ?_
      rw [← same, fields field inside] at isField
      cases isField
    rw [untouched]
    exact (updates_read isField).run atTable fields

theorem checkTarget_updates {e : Expr} (shown : e.All (Expr.Shown t)) :
    Updates t (fun unset => checkTarget unset e) (targetTraces t e) := by
  have evaluated : Updates t (fun unset => do checkExpr unset e; return unset) (e.traces t) :=
    (checkExpr_follows shown).updates
  have resolved := shown.here.resolved
  cases e with
  | var info name slot =>
    cases slot with
    | none => exact updates_nothing
    | some id => exact updates_name (resolved id rfl) updates_read
  | assignee info name typeName slot first =>
    cases slot with
    | none => exact updates_nothing
    | some id => exact updates_name (resolved id rfl) fun _ => updates_nothing
  | member info object property field =>
    cases object with
    | this _ _ =>
      cases field with
      | none => exact updates_nothing
      | some id => exact updates_own_field
    | _ => exact evaluated
  | _ => exact evaluated

theorem checkTargets_updates {es : List Expr} (shown : ∀ e ∈ es, e.All (Expr.Shown t)) :
    Updates t (fun unset => es.foldlM checkTarget unset) (targetTracesAll t es) := by
  induction es with
  | nil => exact updates_nothing
  | cons e es ih =>
    have rest := ih fun x inside => shown x (List.mem_cons_of_mem _ inside)
    exact (checkTarget_updates (shown e (by simp))).seq rest

theorem checkAssignment_updates {a : Assignment} (shown : (Checks.nodes (Expr.Shown t)).assignment a) :
    Updates t (fun unset => checkAssignment unset a) (a.traces t) := by
  obtain ⟨left, chained, value⟩ := shown
  have targets := (checkTargets_updates fun e inside => chained e (List.mem_reverse.mp inside)).seq
    (checkTarget_updates left)
  have all := (checkExpr_follows value).updates.seq targets
  simp only [bind_assoc, pure_bind] at all
  exact all

theorem checkAssignments_updates {parts : List Assignment}
    (shown : ∀ a ∈ parts, (Checks.nodes (Expr.Shown t)).assignment a) :
    Updates t (fun unset => parts.foldlM checkAssignment unset) (assignmentTracesAll t parts) := by
  induction parts with
  | nil => exact updates_nothing
  | cons a parts ih =>
    have rest := ih fun x inside => shown x (List.mem_cons_of_mem _ inside)
    exact (checkAssignment_updates (shown a (by simp))).seq rest

/-! ## Statements -/

/-- What a check knows after a statement: that control never gets there, or the fields that some path past the
statement leaves unassigned. -/
def Covers (unset : Unset) (paths : Paths) : Option Unset → Prop
  | none => ¬ paths.GoesPast
  | some after => paths.GoesPast ∧ ∀ id, id ∈ after ↔ id ∈ unset ∧ paths.Avoids id

/-- A check reports something if and only if some path misses one of the fields. -/
structure Judges (t : Table) (check : Unset → Analysis (Option Unset)) (paths : Paths) : Prop where
  run : ∀ {unset : Unset} {s : AnalysisState}, s.table = t → Fields t unset →
    ∃ found after, (check unset).run s = .ok (after, { s with problems := s.problems ++ found }) ∧
      (found = [] ↔ ∀ id ∈ unset, paths.Quiet id) ∧ Covers unset paths after

/-- The check of a statement, through which there is always a path. -/
structure Checks (t : Table) (check : Unset → Analysis (Option Unset)) (paths : Paths) : Prop
    extends Judges t check paths where
  possible : paths.Possible

variable {check check' : Unset → Analysis (Option Unset)} {paths rest one other body : Paths}

theorem Judges.congr (judges : Judges t check one) (alike : Paths.Alike one other) : Judges t check other := by
  refine ⟨fun {unset s} atTable fields => ?_⟩
  obtain ⟨found, after, ran, quiet, covers⟩ := judges.run atTable fields
  refine ⟨found, after, ran, quiet.trans (forall₂_congr fun id _ => alike.quiet), ?_⟩
  cases after with
  | none => exact mt alike.goesPast.mpr covers
  | some after => exact ⟨alike.goesPast.mp covers.1, fun id => (covers.2 id).trans (and_congr_right' alike.avoids)⟩

theorem Updates.checks {update : Unset → Analysis Unset} (updates : Updates t update traces) :
    Checks t (fun unset => do return some (← update unset)) traces.past := by
  obtain ⟨es, held⟩ := updates.possible
  refine ⟨⟨fun {unset s} atTable fields => ?_⟩, ⟨es, .past, held, rfl⟩⟩
  obtain ⟨found, after, ran, quiet, left⟩ := updates.run atTable fields
  refine ⟨found, some after, ?_, quiet.trans ?_, ⟨es, held, rfl⟩, fun id => ?_⟩
  · rw [run_seq ran]
    rfl
  · exact forall₂_congr fun id _ => Paths.quiet_past.symm
  · rw [left, Paths.avoids_past]

theorem Follows.checks (follows : Follows t watch traces) :
    Checks t (fun unset => do watch unset; return some unset) traces.past := by
  have updated := follows.updates.checks
  simp only [bind_assoc, pure_bind] at updated
  exact updated

theorem checks_nothing : Checks t (fun unset => pure (some unset)) fun es outcome => es = [] ∧ outcome = .past := by
  have nothing := (@updates_nothing t).checks
  simp only [pure_bind] at nothing
  exact nothing

/-- Where there is no path there is nothing to report. -/
theorem judges_none : Judges t (fun _ => pure none) fun _ _ => False := by
  refine ⟨fun {unset s} _ _ => ⟨[], none, by simp, iff_of_true rfl fun id _ _ _ held => held.elim, ?_⟩⟩
  rintro ⟨_, held⟩
  exact held

/-- A statement after which control goes nowhere, and on which nothing happens. -/
theorem checks_stop {outcome : Outcome} (stops : outcome ≠ .past) :
    Checks t (fun _ => pure none) fun es result => es = [] ∧ result = outcome := by
  refine ⟨⟨fun {unset s} _ _ => ⟨[], none, by simp, iff_of_true rfl ?_, ?_⟩⟩, ⟨[], outcome, rfl, rfl⟩⟩
  · rintro id _ es result ⟨rfl, rfl⟩
    exact misses_nil
  · rintro ⟨es, _, same⟩
    exact stops same.symm

/-- Returning needs every field. -/
theorem checks_return :
    Checks t (fun unset => do
      if !unset.isEmpty then
        report .returnBeforeInit span
      return none) fun es outcome => es = [.finish] ∧ outcome = .ended := by
  refine ⟨⟨fun {unset s} atTable fields => ?_⟩, ⟨[.finish], .ended, rfl, rfl⟩⟩
  obtain ⟨found, ran, quiet⟩ := (@follows_whole t .finish .returnBeforeInit span fun _ => trivial).run atTable fields
  have joined : (do
      if !unset.isEmpty then
        report .returnBeforeInit span
      return none : Analysis (Option Unset)) =
      (if !unset.isEmpty then report .returnBeforeInit span else pure ()) >>= fun _ => pure none := by
    split <;> rfl
  refine ⟨found, none, ?_, quiet.trans (forall₂_congr fun id _ => ?_), ?_⟩
  · rw [joined, run_seq ran]
    rfl
  · exact ⟨fun quiet es _ held => quiet es held.1, fun quiet es held => quiet es .ended ⟨held, rfl⟩⟩
  · rintro ⟨es, _, same⟩
    cases same

theorem Follows.after (follows : Follows t watch traces) (checks : Checks t check rest) :
    Checks t (fun unset => do watch unset; check unset) (.after traces rest) := by
  refine ⟨⟨fun {unset s} atTable fields => ?_⟩, Paths.possible_after follows.plain checks.possible⟩
  obtain ⟨found, ran, quiet⟩ := follows.run atTable fields
  obtain ⟨found', after, ran', quiet', covers⟩ :=
    @checks.run unset { s with problems := s.problems ++ found } atTable fields
  refine ⟨found ++ found', after, ?_, ?_, ?_⟩
  · rw [run_seq ran, ran']
    simp
  · rw [List.append_eq_nil_iff, quiet, quiet', ← forall₂_and]
    exact forall₂_congr fun id _ => (Paths.quiet_after follows.plain checks.possible).symm
  · cases after with
    | none => exact mt (Paths.goesPast_after follows.plain).mp covers
    | some after =>
      refine ⟨(Paths.goesPast_after follows.plain).mpr covers.1, fun id => ?_⟩
      rw [covers.2, Paths.avoids_after follows.plain]

theorem mem_meet {a b : Unset} : id ∈ a ++ b.filter (!a.contains ·) ↔ id ∈ a ∨ id ∈ b := by
  by_cases inside : id ∈ a <;> simp [inside]

/-- After a branch a field may be unassigned if some arm that goes past may leave it so. -/
theorem covers_meet {a b : Option Unset} (left : Covers unset one a) (right : Covers unset other b) :
    Covers unset (one.either other) (meet a b) := by
  cases a with
  | none =>
    cases b with
    | none => exact fun goesPast => (Paths.goesPast_either.mp goesPast).elim left right
    | some b =>
      refine ⟨Paths.goesPast_either.mpr (.inr right.1), fun id => ?_⟩
      rw [right.2, Paths.avoids_either, or_iff_right fun ⟨es, held, _⟩ => left ⟨es, held⟩]
  | some a =>
    cases b with
    | none =>
      refine ⟨Paths.goesPast_either.mpr (.inl left.1), fun id => ?_⟩
      rw [left.2, Paths.avoids_either, or_iff_left fun ⟨es, held, _⟩ => right ⟨es, held⟩]
    | some b =>
      refine ⟨Paths.goesPast_either.mpr (.inl left.1), fun id => ?_⟩
      rw [mem_meet, left.2, right.2, Paths.avoids_either, and_or_left]

theorem Judges.either (left : Judges t check one) (right : Judges t check' other) :
    Judges t (fun unset => do
      let a ← check unset
      let b ← check' unset
      return meet a b) (one.either other) := by
  refine ⟨fun {unset s} atTable fields => ?_⟩
  obtain ⟨found, a, ran, quiet, covers⟩ := left.run atTable fields
  obtain ⟨found', b, ran', quiet', covers'⟩ :=
    @right.run unset { s with problems := s.problems ++ found } atTable fields
  refine ⟨found ++ found', meet a b, ?_, ?_, covers_meet covers covers'⟩
  · rw [run_seq ran, run_seq ran']
    simp
  · rw [List.append_eq_nil_iff, quiet, quiet', ← forall₂_and]
    exact forall₂_congr fun id _ => Paths.quiet_either.symm

theorem Checks.andThen (first : Checks t check one) (second : Checks t check' rest) :
    Checks t (fun unset => do
      match ← check unset with
      | none => return none
      | some unset => check' unset) (one.andThen rest) := by
  refine ⟨⟨fun {unset s} atTable fields => ?_⟩, Paths.possible_andThen first.possible second.possible⟩
  obtain ⟨found, between, ran, quiet, covers⟩ := first.run atTable fields
  cases between with
  | none =>
    have stops : ∀ id, ¬ one.Avoids id := fun id ⟨es, held, _⟩ => covers ⟨es, held⟩
    refine ⟨found, none, ?_, quiet.trans (forall₂_congr fun id _ => ?_), ?_⟩
    · rw [run_seq ran]
      rfl
    · rw [Paths.quiet_andThen second.possible]
      exact (and_iff_left fun avoids => absurd avoids (stops id)).symm
    · exact fun goesPast => covers (Paths.goesPast_andThen.mp goesPast).1
  | some between =>
    have fieldsBetween : Fields t between := fun id inside => fields id ((covers.2 id).mp inside).1
    obtain ⟨found', after, ran', quiet', covers'⟩ :=
      @second.run between { s with problems := s.problems ++ found } atTable fieldsBetween
    refine ⟨found ++ found', after, ?_, ?_, ?_⟩
    · rw [run_seq ran]
      simp only
      rw [ran']
      simp
    · rw [List.append_eq_nil_iff, quiet, quiet', forall_left covers.2]
      exact forall₂_congr fun id _ => (Paths.quiet_andThen second.possible).symm
    · cases after with
      | none => exact fun goesPast => covers' (Paths.goesPast_andThen.mp goesPast).2
      | some after =>
        refine ⟨Paths.goesPast_andThen.mpr ⟨covers.1, covers'.1⟩, fun id => ?_⟩
        rw [covers'.2, covers.2, Paths.avoids_andThen, and_assoc]

/-- The first round of a loop is checked, and what it assigns does not count afterwards. -/
theorem Judges.loop (follows : Follows t watch traces) (judges : Judges t check body) :
    Checks t (fun unset => do
      watch unset
      let _ ← check unset
      return some unset) (.loop traces body) := by
  obtain ⟨x, heldX⟩ := follows.plain.possible
  refine ⟨⟨fun {unset s} atTable fields => ?_⟩, ⟨x, .past, .stop heldX⟩⟩
  obtain ⟨found, ran, quiet⟩ := follows.run atTable fields
  obtain ⟨found', after, ran', quiet', _⟩ :=
    @judges.run unset { s with problems := s.problems ++ found } atTable fields
  refine ⟨found ++ found', some unset, ?_, ?_, Paths.goesPast_loop follows.plain, fun id => ?_⟩
  · rw [run_seq ran, run_seq ran']
    simp
  · rw [List.append_eq_nil_iff, quiet, quiet', ← forall₂_and]
    exact forall₂_congr fun id _ => (Paths.quiet_loop follows.plain).symm
  · exact (and_iff_left (Paths.avoids_loop follows.plain)).symm

theorem checkConditions_follows (shown : holdsInElseIfs (.nodes (Expr.Shown t)) elseIfs) :
    Follows t (fun unset => checkConditions unset elseIfs) (testTracesAll t elseIfs) := by
  induction elseIfs with
  | nil => exact follows_nothing
  | cons e elseIfs ih =>
    obtain ⟨condition, block⟩ := e
    obtain ⟨⟨ofCondition, _⟩, ofRest⟩ := shown
    exact (checkExpr_follows ofCondition).seq (ih ofRest)

mutual

/-- **Statements.** The check of a statement follows the paths through it. -/
theorem checkStmt_checks : ∀ {s : Stmt}, s.Holds (.nodes (Expr.Shown t)) →
    Checks t (fun unset => checkStmt unset s) (s.paths t)
  | .eval _, shown => (checkExpr_follows shown).checks
  | .output _ _, shown => (checkExprs_follows (allOf_iff.mpr shown)).checks
  | .input _ _, shown => (checkTargets_updates shown).checks
  | .ret none _, _ => checks_return
  | .ret (some value) _, shown => (checkExpr_follows (shown.1 value rfl)).after checks_return
  | .exit _, _ => checks_stop (by simp)
  | .leave _, _ => checks_stop (by simp)
  | .next _, _ => checks_stop (by simp)
  | .branch condition body elseIfs otherwise _, ⟨ofCondition, ofBody, ofElseIfs, ofOtherwise⟩ => by
    have tests := (checkExpr_follows ofCondition).seq (checkConditions_follows ofElseIfs)
    have last := checkOtherwise_checks ofOtherwise
    have first := checkBlock_checks ofBody
    have arms := first.toJudges.either ((checkElseIfs_judges ofElseIfs).either last.toJudges)
    have plain := (checkExpr_follows ofCondition).plain
    obtain ⟨es, outcome, held⟩ := first.possible
    have all := tests.after ⟨arms, es, outcome, .inl held⟩
    simp only [bind_assoc, pure_bind] at all
    exact ⟨all.toJudges.congr (branch_alike plain last.possible), Paths.possible_after plain ⟨es, outcome, .inl held⟩⟩
  | .count _ _ _ _ _ _, ⟨ofFirst, ofLast, _, ofBody⟩ => by
    have bounds := (checkExpr_follows ofFirst).seq (checkExpr_follows ofLast)
    have rounds := Judges.loop follows_nothing (checkBlock_checks ofBody).toJudges
    have all := bounds.after rounds
    simp only [bind_assoc, pure_bind] at all
    exact all
  | .repeatWhile _ _ _, ⟨ofCondition, ofBody⟩ =>
    Judges.loop (checkExpr_follows ofCondition) (checkBlock_checks ofBody).toJudges
  | .assignAll _ _, shown => (checkAssignments_updates shown).checks
  | .assign _, shown => (checkAssignment_updates shown).checks

theorem checkStmts_checks : ∀ {ss : List Stmt}, holdsInAll (.nodes (Expr.Shown t)) ss →
    Checks t (fun unset => checkStmts unset ss) (pathsOfAll t ss)
  | [], _ => checks_nothing
  | _ :: _, ⟨ofFirst, ofRest⟩ => (checkStmt_checks ofFirst).andThen (checkStmts_checks ofRest)

theorem checkBlock_checks : ∀ {block : Block}, block.Holds (.nodes (Expr.Shown t)) →
    Checks t (fun unset => checkBlock unset block) (block.paths t)
  | ⟨stmts, _, _⟩, shown => @checkStmts_checks stmts shown.2

theorem checkElseIf_checks : ∀ {e : ElseIf}, e.Holds (.nodes (Expr.Shown t)) →
    Checks t (fun unset => checkElseIf unset e) (e.paths t)
  | ⟨_, block⟩, ⟨_, ofBlock⟩ => @checkBlock_checks block ofBlock

theorem checkElseIfs_judges : ∀ {es : List ElseIf}, holdsInElseIfs (.nodes (Expr.Shown t)) es →
    Judges t (fun unset => checkElseIfs unset es) (armPaths t es)
  | [], _ => judges_none
  | _ :: _, ⟨ofFirst, ofRest⟩ => (checkElseIf_checks ofFirst).toJudges.either (checkElseIfs_judges ofRest)

theorem checkOtherwise_checks : ∀ {otherwise : Option Block}, holdsInOtherwise (.nodes (Expr.Shown t)) otherwise →
    Checks t (fun unset => checkOtherwise unset otherwise) (otherwisePaths t otherwise)
  | none, _ => checks_nothing
  | some block, shown => @checkBlock_checks block shown

end

/-! ## Constructors -/

/-- No path through a body goes wrong if none misses a field and none leaves one unassigned. -/
theorem goesRight_iff {body : List Stmt} : (∀ es, bodyTraces t body es → ¬ GoesWrong required es) ↔
    ∀ id ∈ required, (pathsOfAll t body).Quiet id ∧ ¬ (pathsOfAll t body).Avoids id := by
  constructor
  · intro right id inside
    exact quiet_body.mp fun es held misses => right es held (goesWrong_iff.mpr ⟨id, inside, misses⟩)
  · intro quiet es held goesWrong
    obtain ⟨id, inside, misses⟩ := goesWrong_iff.mp goesWrong
    exact quiet_body.mpr (quiet id inside) es held misses

theorem checkConstructor_run {f : Function} (fields : Fields s.table required)
    (shown : holdsInAll (.nodes (Expr.Shown s.table)) f.body) :
    ∃ found, (checkConstructor required f).run s = .ok ((), { s with problems := s.problems ++ found }) ∧
      (found = [] ↔ ∀ id ∈ required, (pathsOfAll s.table f.body).Quiet id ∧
      ¬ (pathsOfAll s.table f.body).Avoids id) := by
  obtain ⟨found, after, ran, quiet, covers⟩ := (checkStmts_checks shown).run rfl fields
  unfold checkConstructor
  rw [run_seq ran]
  cases after with
  | none =>
    refine ⟨found, rfl, quiet.trans (forall₂_congr fun id _ => ?_)⟩
    exact (and_iff_left fun ⟨es, held, _⟩ => covers ⟨es, held⟩).symm
  | some after =>
    have left : after = [] ↔ ∀ id ∈ required, ¬ (pathsOfAll s.table f.body).Avoids id := by
      rw [List.eq_nil_iff_forall_not_mem]
      refine forall_congr' fun id => ?_
      rw [covers.2, not_and]
    rw [forall₂_and, ← left, ← quiet]
    cases after with
    | nil => exact ⟨found, by simp, by simp⟩
    | cons id rest =>
      refine ⟨found ++ [⟨.implicitReturnBeforeInit, f.endSpan⟩], ?_, by simp⟩
      simp [run_report]

/-- **Definite initialization.** The check of a constructor goes through for every body and all fields that it has
to assign, and reports nothing if and only if no path through the body goes wrong. A call is judged by the first method
that its target holds, so this one has to run on an object where any of them does. -/
theorem checkConstructor_exact {s : AnalysisState} {required : Unset} {f : Function}
    (fields : Fields s.table required) (resolved : holdsInAll (.nodes (Expr.Resolved s.table)) f.body)
    (led : holdsInAll (.nodes (Expr.Led s.table)) f.body) :
    ∃ found, (checkConstructor required f).run s = .ok ((), { s with problems := s.problems ++ found }) ∧
      (found = [] ↔ ∀ es, bodyTraces s.table f.body es → ¬ GoesWrong required es) := by
  obtain ⟨found, ran, quiet⟩ := checkConstructor_run fields (holdsInAll_shown resolved led)
  exact ⟨found, ran, quiet.trans goesRight_iff.symm⟩

/-- A field of an object. -/
def fieldSymbol (place : Nat) (name : String) : Symbol where
  id := ⟨place⟩
  name := name
  span := .none
  scope := .root
  kind := .variable { status := .ready, kind := .instanceField }

def pairFields : AnalysisState where
  table := {
    scopes := #[]
    symbols := #[fieldSymbol 0 "x", fieldSymbol 1 "y"]
    current := .root
    classCount := 0 }

/-- A constructor that sets its first field or exits, and then sets the second one. -/
def pairConstructor : Function where
  name := ⟨"Pair", .none⟩
  params := []
  returns := none
  body :=
    [.branch (.literal ⟨.none, none⟩ (.bool true))
      ⟨[.assign ⟨.member ⟨.none, none⟩ (.this ⟨.none, none⟩ none) ⟨"x", .none⟩ (some ⟨0⟩), [],
        .literal ⟨.none, none⟩ (.int 1), .none⟩], none, .none⟩
      [] (some ⟨[.exit .none], none, .none⟩) .none,
     .assign ⟨.assignee ⟨.none, none⟩ ⟨"y", .none⟩ none (some ⟨1⟩) none, [],
     .var ⟨.none, none⟩ ⟨"x", .none⟩ (some ⟨0⟩), .none⟩]
  endSpan := .none
  span := .none

theorem pairConstructor_checked : Fields pairFields.table [⟨0⟩, ⟨1⟩] ∧
    holdsInAll (.nodes (Expr.Resolved pairFields.table)) pairConstructor.body ∧
    holdsInAll (.nodes (Expr.Led pairFields.table)) pairConstructor.body ∧
    ∃ found, (checkConstructor [⟨0⟩, ⟨1⟩] pairConstructor).run pairFields =
        .ok ((), { pairFields with problems := pairFields.problems ++ found }) ∧
      (found = [] ↔ ∀ es, bodyTraces pairFields.table pairConstructor.body es → ¬ GoesWrong [⟨0⟩, ⟨1⟩] es) := by
  have fields : Fields pairFields.table [⟨0⟩, ⟨1⟩] := by simp [Fields]; decide
  have resolved : holdsInAll (.nodes (Expr.Resolved pairFields.table)) pairConstructor.body := by
    simp [pairConstructor, holdsInAll, Stmt.Holds, Block.Holds, holdsInElseIfs,
      holdsInOtherwise, Quasicode.Checks.nodes, Expr.All, Expr.Resolved]
    decide
  have led : holdsInAll (.nodes (Expr.Led pairFields.table)) pairConstructor.body := by
    simp [pairConstructor, holdsInAll, Stmt.Holds, Block.Holds, holdsInElseIfs,
      holdsInOtherwise, Quasicode.Checks.nodes, Expr.All, Expr.Led]
  exact ⟨fields, resolved, led, checkConstructor_exact fields resolved led⟩

/-- A class calls a method of its object in a constructor, before it sets the field. A static method that overrides the
one it calls is declared first. -/
def staticOverride : String := "class B extends A
static function f()
end function
end class
class A
x: int
function A()
f()
x = 1
end function
function f()
output x
end function
end class
"

/-- Whether the first method of a class is a constructor that calls a method of its object before it sets a field, and
is checked without a diagnostic. -/
def callsUnnoticed (t : Table) (c : Class) : Bool :=
  match c.methods with
  | m :: _ =>
    match m.function.body with
    | [.eval (.call _ .free _ [] target), .assign ⟨.assignee _ _ _ _ _, [], .literal _ _, _⟩] =>
      t.runsOnThis .free target && !(requiredFields c).isEmpty &&
        ((checkConstructor (requiredFields c) m.function).run ⟨t, []⟩).toOption.any (·.2.problems.isEmpty)
    | _ => false
  | [] => false

theorem staticOverride_compiled : (compile staticOverride).toOption.any fun compiled =>
    compiled.program.classes.any (callsUnnoticed compiled.table) := by decide +kernel

theorem callsUnnoticed_goesWrong {c : Class} (unnoticed : callsUnnoticed t c) : ∃ m ∈ c.methods,
    (∃ s, (checkConstructor (requiredFields c) m.function).run ⟨t, []⟩ = .ok ((), s) ∧ s.problems = []) ∧
      ∃ es, bodyTraces t m.function.body es ∧ GoesWrong (requiredFields c) es := by
  unfold callsUnnoticed at unnoticed
  split at unnoticed
  next m rest methods =>
    split at unnoticed
    next target info name typeName slot isFirst _ _ _ body =>
      simp only [Bool.and_eq_true, Bool.not_eq_true', List.isEmpty_eq_false_iff] at unnoticed
      obtain ⟨⟨runs, missing⟩, quiet⟩ := unnoticed
      obtain ⟨⟨_, s⟩, ran, silent⟩ := ok_of_any quiet
      obtain ⟨id, inside⟩ := List.exists_mem_of_ne_nil _ missing
      obtain ⟨later, assigns⟩ : ∃ es, targetTraces t (.assignee info name typeName slot isFirst) es := by
        cases slot with
        | none => exact ⟨[], rfl⟩
        | some id =>
          by_cases isField : t.isField id
          · exact ⟨[.assign id], by simp [targetTraces, Expr.ownSlot, isField]⟩
          · exact ⟨[], by simp [targetTraces, Expr.ownSlot, isField, Expr.traces]⟩
      have past : pathsOfAll t m.function.body ([.runMethod] ++ later) .past := by
        rw [body]
        refine .inr ⟨_, later, ⟨⟨[], _, ⟨[], [], rfl, rfl, rfl⟩, rfl, by rw [runs]; rfl⟩, rfl⟩,
          .inr ⟨later, [], ⟨?_, rfl⟩, ⟨rfl, rfl⟩, ?_⟩, rfl⟩
        · exact ⟨[], later, rfl, ⟨[], later, rfl, assigns, rfl⟩, rfl⟩
        · rw [List.append_nil]
      refine ⟨m, by simp [methods], ⟨s, ran, List.isEmpty_iff.mp silent⟩, _, .inr ⟨_, past, rfl⟩, ?_⟩
      exact ⟨[], .runMethod, later ++ [.finish], rfl, id, inside, List.not_mem_nil⟩
    next => cases unnoticed
  next => cases unnoticed

/-- A call can hide behind a static method: nothing is reported, and a path goes wrong. -/
theorem static_override_unnoticed : ∃ compiled, compile staticOverride = .ok compiled ∧
    ∃ c ∈ compiled.program.classes, ∃ m ∈ c.methods,
      (∃ s, (checkConstructor (requiredFields c) m.function).run ⟨compiled.table, []⟩ = .ok ((), s) ∧ s.problems = []) ∧
      ∃ es, bodyTraces compiled.table m.function.body es ∧ GoesWrong (requiredFields c) es := by
  obtain ⟨compiled, ran, shown⟩ := ok_of_any staticOverride_compiled
  obtain ⟨c, declared, unnoticed⟩ := List.any_eq_true.mp shown
  exact ⟨compiled, ran, c, declared, callsUnnoticed_goesWrong unnoticed⟩

end Flow

end Quasicode
