import Quasicode.Proofs.FlowPaths

/-!
What can go wrong on a path through a constructor, taken one field at a time. A path goes wrong if it does something
before a field is assigned that it should do only afterwards. For each way in which paths are put together, two
questions are answered: does any path miss the field, and does any path go past without assigning it?
-/
namespace Quasicode

variable {id : SymbolId} {es x y : List Event} {e : Event}

/-! ## Paths that go wrong -/

/-- Whether an event must not happen after the events `before`, which have not assigned all fields that they
should. -/
def Event.Forbidden (required : List SymbolId) (before : List Event) : Event → Prop
  | .read id => id ∈ required ∧ .assign id ∉ before
  | .assign _ => False
  | .useThis | .runMethod | .finish => ∃ id ∈ required, .assign id ∉ before

/-- Something happens on the path that must not. -/
def GoesWrong (required : List SymbolId) (es : List Event) : Prop :=
  ∃ before e after, es = before ++ e :: after ∧ e.Forbidden required before

/-- Whether an event must not happen before the field is assigned. -/
def Event.Needs (field : SymbolId) : Event → Prop
  | .read id => id = field
  | .assign _ => False
  | .useThis | .runMethod | .finish => True

/-- Something happens on the path for which the field should have been assigned before. -/
def Misses (field : SymbolId) (es : List Event) : Prop :=
  ∃ before e after, es = before ++ e :: after ∧ e.Needs field ∧ .assign field ∉ before

/-- A path goes wrong if and only if it misses one of the fields. -/
theorem goesWrong_iff {required : List SymbolId} : GoesWrong required es ↔ ∃ id ∈ required, Misses id es := by
  constructor
  · rintro ⟨before, e, after, split, forbidden⟩
    cases e with
    | read id => exact ⟨id, forbidden.1, before, _, after, split, rfl, forbidden.2⟩
    | assign => exact absurd forbidden id
    | _ =>
      obtain ⟨id, inside, unassigned⟩ := forbidden
      exact ⟨id, inside, before, _, after, split, trivial, unassigned⟩
  · rintro ⟨id, inside, before, e, after, split, needs, unassigned⟩
    refine ⟨before, e, after, split, ?_⟩
    cases e with
    | read id' =>
      obtain rfl : id' = id := needs
      exact ⟨inside, unassigned⟩
    | assign => exact needs
    | _ => exact ⟨id, inside, unassigned⟩

theorem misses_nil : ¬ Misses id [] := by
  rintro ⟨before, e, after, split, _⟩
  simp at split

theorem misses_cons : Misses id (e :: es) ↔ e.Needs id ∨ e ≠ .assign id ∧ Misses id es := by
  constructor
  · rintro ⟨before, e', after, split, needs, unassigned⟩
    cases before with
    | nil =>
      cases split
      exact .inl needs
    | cons first before =>
      cases split
      rw [List.mem_cons, not_or] at unassigned
      exact .inr ⟨Ne.symm unassigned.1, before, e', after, rfl, needs, unassigned.2⟩
  · rintro (needs | ⟨other, before, e', after, rfl, needs, unassigned⟩)
    · exact ⟨[], e, es, rfl, needs, List.not_mem_nil⟩
    · refine ⟨e :: before, e', after, rfl, needs, ?_⟩
      rw [List.mem_cons, not_or]
      exact ⟨Ne.symm other, unassigned⟩

theorem misses_append : Misses id (x ++ y) ↔ Misses id x ∨ .assign id ∉ x ∧ Misses id y := by
  induction x with
  | nil => simp [misses_nil]
  | cons e x ih =>
    rw [List.cons_append, misses_cons, misses_cons, ih, List.mem_cons, not_or]
    constructor
    · rintro (needs | ⟨other, inX | ⟨unassigned, inY⟩⟩)
      · exact .inl (.inl needs)
      · exact .inl (.inr ⟨other, inX⟩)
      · exact .inr ⟨⟨Ne.symm other, unassigned⟩, inY⟩
    · rintro ((needs | ⟨other, inX⟩) | ⟨⟨other, unassigned⟩, inY⟩)
      · exact .inl needs
      · exact .inr ⟨other, .inl inX⟩
      · exact .inr ⟨Ne.symm other, .inr ⟨unassigned, inY⟩⟩

/-! ## Traces, field by field -/

namespace Traces

variable {first second traces : Traces}

/-- No path misses the field. -/
def Quiet (id : SymbolId) (traces : Traces) : Prop := ∀ es, traces es → ¬ Misses id es

/-- Some path leaves the field unassigned. -/
def Avoids (id : SymbolId) (traces : Traces) : Prop := ∃ es, traces es ∧ .assign id ∉ es

/-- There is a path, and none assigns anything. -/
structure Plain (traces : Traces) : Prop where
  possible : ∃ es, traces es
  assigns : ∀ {es}, traces es → ∀ id, .assign id ∉ es

theorem Plain.avoids (plain : traces.Plain) (id : SymbolId) : traces.Avoids id := by
  obtain ⟨es, held⟩ := plain.possible
  exact ⟨es, held, plain.assigns held id⟩

theorem plain_of_eq (plain : ∀ id, .assign id ∉ es) : Plain (· = es) :=
  ⟨⟨es, rfl⟩, fun same => same ▸ plain⟩

theorem Plain.seq (one : first.Plain) (two : second.Plain) : (first.seq second).Plain := by
  obtain ⟨x, heldX⟩ := one.possible
  obtain ⟨y, heldY⟩ := two.possible
  refine ⟨⟨x ++ y, x, y, heldX, heldY, rfl⟩, ?_⟩
  rintro _ ⟨x, y, heldX, heldY, rfl⟩ id
  rw [List.mem_append, not_or]
  exact ⟨one.assigns heldX id, two.assigns heldY id⟩

theorem Plain.orNot (plain : traces.Plain) : traces.orNot.Plain := by
  refine ⟨⟨[], .inl rfl⟩, ?_⟩
  rintro es (rfl | held) id
  · exact List.not_mem_nil
  · exact plain.assigns held id

theorem quiet_eq : Quiet id (· = es) ↔ ¬ Misses id es :=
  ⟨fun quiet => quiet es rfl, fun hits _ same => same ▸ hits⟩

theorem quiet_orNot : traces.orNot.Quiet id ↔ traces.Quiet id := by
  constructor
  · exact fun quiet es held => quiet es (.inr held)
  · rintro quiet es (rfl | held)
    · exact misses_nil
    · exact quiet es held

/-- After the first part the field matters only where it may still be unassigned. -/
theorem quiet_seq (possible : ∃ es, second es) :
    (first.seq second).Quiet id ↔ first.Quiet id ∧ (first.Avoids id → second.Quiet id) := by
  constructor
  · intro quiet
    obtain ⟨y, heldY⟩ := possible
    constructor
    · intro x heldX misses
      exact quiet _ ⟨x, y, heldX, heldY, rfl⟩ (misses_append.mpr (.inl misses))
    · rintro ⟨x, heldX, unassigned⟩ y heldY misses
      exact quiet _ ⟨x, y, heldX, heldY, rfl⟩ (misses_append.mpr (.inr ⟨unassigned, misses⟩))
  · rintro ⟨quietFirst, quietSecond⟩ _ ⟨x, y, heldX, heldY, rfl⟩ misses
    rcases misses_append.mp misses with inX | ⟨unassigned, inY⟩
    · exact quietFirst x heldX inX
    · exact quietSecond ⟨x, heldX, unassigned⟩ y heldY inY

theorem avoids_seq : (first.seq second).Avoids id ↔ first.Avoids id ∧ second.Avoids id := by
  constructor
  · rintro ⟨_, ⟨x, y, heldX, heldY, rfl⟩, unassigned⟩
    rw [List.mem_append, not_or] at unassigned
    exact ⟨⟨x, heldX, unassigned.1⟩, ⟨y, heldY, unassigned.2⟩⟩
  · rintro ⟨⟨x, heldX, inX⟩, ⟨y, heldY, inY⟩⟩
    exact ⟨x ++ y, ⟨x, y, heldX, heldY, rfl⟩, by simp [inX, inY]⟩

end Traces

namespace Paths

variable {first rest one other body last paths : Paths} {test : Traces}

/-- No path misses the field. -/
def Quiet (id : SymbolId) (paths : Paths) : Prop := ∀ es outcome, paths es outcome → ¬ Misses id es

/-- Some path goes past with the field unassigned. -/
def Avoids (id : SymbolId) (paths : Paths) : Prop := ∃ es, paths es .past ∧ .assign id ∉ es

/-- Some path goes past. -/
def GoesPast (paths : Paths) : Prop := ∃ es, paths es .past

def Possible (paths : Paths) : Prop := ∃ es outcome, paths es outcome

theorem quiet_past {traces : Traces} : traces.past.Quiet id ↔ traces.Quiet id :=
  ⟨fun quiet es held => quiet es .past ⟨held, rfl⟩, fun quiet es _ held => quiet es held.1⟩

theorem avoids_past {traces : Traces} : traces.past.Avoids id ↔ traces.Avoids id :=
  ⟨fun ⟨es, held, unassigned⟩ => ⟨es, held.1, unassigned⟩, fun ⟨es, held, unassigned⟩ => ⟨es, ⟨held, rfl⟩, unassigned⟩⟩

theorem possible_after (plain : test.Plain) (possible : rest.Possible) : (after test rest).Possible := by
  obtain ⟨x, heldX⟩ := plain.possible
  obtain ⟨y, outcome, heldY⟩ := possible
  exact ⟨x ++ y, outcome, x, y, heldX, heldY, rfl⟩

theorem quiet_after (plain : test.Plain) (possible : rest.Possible) :
    (after test rest).Quiet id ↔ test.Quiet id ∧ rest.Quiet id := by
  constructor
  · intro quiet
    constructor
    · intro x heldX misses
      obtain ⟨y, outcome, heldY⟩ := possible
      exact quiet _ outcome ⟨x, y, heldX, heldY, rfl⟩ (misses_append.mpr (.inl misses))
    · intro y outcome heldY misses
      obtain ⟨x, heldX⟩ := plain.possible
      exact quiet _ outcome ⟨x, y, heldX, heldY, rfl⟩
        (misses_append.mpr (.inr ⟨plain.assigns heldX id, misses⟩))
  · rintro ⟨quietTest, quietRest⟩ _ outcome ⟨x, y, heldX, heldY, rfl⟩ misses
    rcases misses_append.mp misses with inX | ⟨_, inY⟩
    · exact quietTest x heldX inX
    · exact quietRest y outcome heldY inY

theorem avoids_after (plain : test.Plain) : (after test rest).Avoids id ↔ rest.Avoids id := by
  constructor
  · rintro ⟨_, ⟨x, y, heldX, heldY, rfl⟩, unassigned⟩
    rw [List.mem_append, not_or] at unassigned
    exact ⟨y, heldY, unassigned.2⟩
  · rintro ⟨y, heldY, unassigned⟩
    obtain ⟨x, heldX⟩ := plain.possible
    exact ⟨x ++ y, ⟨x, y, heldX, heldY, rfl⟩, by simp [plain.assigns heldX id, unassigned]⟩

theorem goesPast_after (plain : test.Plain) : (after test rest).GoesPast ↔ rest.GoesPast := by
  constructor
  · rintro ⟨_, x, y, heldX, heldY, rfl⟩
    exact ⟨y, heldY⟩
  · rintro ⟨y, heldY⟩
    obtain ⟨x, heldX⟩ := plain.possible
    exact ⟨x ++ y, x, y, heldX, heldY, rfl⟩

theorem quiet_either : (either one other).Quiet id ↔ one.Quiet id ∧ other.Quiet id := by
  constructor
  · exact fun quiet => ⟨fun es outcome held => quiet es outcome (.inl held),
      fun es outcome held => quiet es outcome (.inr held)⟩
  · rintro ⟨quietOne, quietOther⟩ es outcome (held | held)
    · exact quietOne es outcome held
    · exact quietOther es outcome held

theorem avoids_either : (either one other).Avoids id ↔ one.Avoids id ∨ other.Avoids id := by
  constructor
  · rintro ⟨es, held | held, unassigned⟩
    · exact .inl ⟨es, held, unassigned⟩
    · exact .inr ⟨es, held, unassigned⟩
  · rintro (⟨es, held, unassigned⟩ | ⟨es, held, unassigned⟩)
    · exact ⟨es, .inl held, unassigned⟩
    · exact ⟨es, .inr held, unassigned⟩

theorem goesPast_either : (either one other).GoesPast ↔ one.GoesPast ∨ other.GoesPast :=
  exists_or

theorem possible_andThen (one : first.Possible) (two : rest.Possible) : (andThen first rest).Possible := by
  obtain ⟨x, outcome, heldX⟩ := one
  by_cases goesOn : outcome = .past
  · obtain ⟨y, result, heldY⟩ := two
    exact ⟨x ++ y, result, .inr ⟨x, y, goesOn ▸ heldX, heldY, rfl⟩⟩
  · exact ⟨x, outcome, .inl ⟨heldX, goesOn⟩⟩

theorem quiet_andThen (possible : rest.Possible) :
    (andThen first rest).Quiet id ↔ first.Quiet id ∧ (first.Avoids id → rest.Quiet id) := by
  constructor
  · intro quiet
    constructor
    · intro x outcome heldX misses
      by_cases goesOn : outcome = .past
      · obtain ⟨y, result, heldY⟩ := possible
        exact quiet _ result (.inr ⟨x, y, goesOn ▸ heldX, heldY, rfl⟩) (misses_append.mpr (.inl misses))
      · exact quiet x outcome (.inl ⟨heldX, goesOn⟩) misses
    · rintro ⟨x, heldX, unassigned⟩ y outcome heldY misses
      exact quiet _ outcome (.inr ⟨x, y, heldX, heldY, rfl⟩) (misses_append.mpr (.inr ⟨unassigned, misses⟩))
  · rintro ⟨quietFirst, quietRest⟩ es outcome (⟨held, _⟩ | ⟨x, y, heldX, heldY, rfl⟩) misses
    · exact quietFirst es outcome held misses
    · rcases misses_append.mp misses with inX | ⟨unassigned, inY⟩
      · exact quietFirst x .past heldX inX
      · exact quietRest ⟨x, heldX, unassigned⟩ y outcome heldY inY

theorem avoids_andThen : (andThen first rest).Avoids id ↔ first.Avoids id ∧ rest.Avoids id := by
  constructor
  · rintro ⟨_, ⟨_, stops⟩ | ⟨x, y, heldX, heldY, rfl⟩, unassigned⟩
    · exact absurd rfl stops
    · rw [List.mem_append, not_or] at unassigned
      exact ⟨⟨x, heldX, unassigned.1⟩, ⟨y, heldY, unassigned.2⟩⟩
  · rintro ⟨⟨x, heldX, inX⟩, ⟨y, heldY, inY⟩⟩
    exact ⟨x ++ y, .inr ⟨x, y, heldX, heldY, rfl⟩, by simp [inX, inY]⟩

theorem goesPast_andThen : (andThen first rest).GoesPast ↔ first.GoesPast ∧ rest.GoesPast := by
  constructor
  · rintro ⟨_, ⟨_, stops⟩ | ⟨x, y, heldX, heldY, rfl⟩⟩
    · exact absurd rfl stops
    · exact ⟨⟨x, heldX⟩, ⟨y, heldY⟩⟩
  · rintro ⟨⟨x, heldX⟩, ⟨y, heldY⟩⟩
    exact ⟨x ++ y, .inr ⟨x, y, heldX, heldY, rfl⟩⟩

/-- Later rounds of a loop find no fewer fields assigned than the first one, so the first one tells. -/
theorem quiet_loop (plain : test.Plain) :
    (loop test body).Quiet id ↔ test.Quiet id ∧ body.Quiet id := by
  constructor
  · intro quiet
    obtain ⟨x, heldX⟩ := plain.possible
    constructor
    · intro x heldX misses
      exact quiet x .past (.stop heldX) misses
    · intro y outcome heldY misses
      have inFirst : Misses id (x ++ y) := misses_append.mpr (.inr ⟨plain.assigns heldX id, misses⟩)
      cases outcome with
      | past =>
        exact quiet _ .past (.again heldX heldY (.inl rfl) (.stop heldX)) (misses_append.mpr (.inl inFirst))
      | next =>
        exact quiet _ .past (.again heldX heldY (.inr rfl) (.stop heldX)) (misses_append.mpr (.inl inFirst))
      | leave => exact quiet _ .past (.leave heldX heldY) inFirst
      | ended => exact quiet _ .ended (.ended heldX heldY) inFirst
  · rintro ⟨quietTest, quietBody⟩ es outcome held
    have inRound {x y : List Event} {outcome : Outcome} (heldX : test x) (heldY : body y outcome) :
        ¬ Misses id (x ++ y) := by
      intro misses
      rcases misses_append.mp misses with inX | ⟨_, inY⟩
      · exact quietTest _ heldX inX
      · exact quietBody _ _ heldY inY
    induction held with
    | stop heldX => exact quietTest _ heldX
    | again heldX heldY _ _ ih =>
      intro misses
      rcases misses_append.mp misses with inFirst | ⟨_, inRest⟩
      · exact inRound heldX heldY inFirst
      · exact ih inRest
    | leave heldX heldY => exact inRound heldX heldY
    | ended heldX heldY => exact inRound heldX heldY

/-- A loop may be passed without a round. -/
theorem avoids_loop (plain : test.Plain) : (loop test body).Avoids id := by
  obtain ⟨x, heldX⟩ := plain.possible
  exact ⟨x, .stop heldX, plain.assigns heldX id⟩

theorem goesPast_loop (plain : test.Plain) : (loop test body).GoesPast := by
  obtain ⟨x, heldX⟩ := plain.possible
  exact ⟨x, .stop heldX⟩

/-- Two sets of paths that make no difference for any field. -/
structure Alike (one other : Paths) : Prop where
  quiet : ∀ {id}, one.Quiet id ↔ other.Quiet id
  avoids : ∀ {id}, one.Avoids id ↔ other.Avoids id
  goesPast : one.GoesPast ↔ other.GoesPast

end Paths

/-! ## The arms of a branch -/

theorem readOf_plain (slot : Option SymbolId) : Traces.Plain (· = readOf slot) :=
  Traces.plain_of_eq fun _ => by cases slot <;> simp [readOf]

mutual

theorem Expr.traces_plain (t : Table) : ∀ e : Expr, (e.traces t).Plain
  | .this _ _ => Traces.plain_of_eq fun _ => by simp
  | .var _ _ slot => readOf_plain slot
  | .member _ object _ field => by
    unfold Expr.traces
    split
    · exact readOf_plain field
    · exact object.traces_plain t
  | .call _ callee _ arguments target => by
    refine ((callee.traces_plain t).seq (tracesOfAll_plain t arguments)).seq (Traces.plain_of_eq fun _ => ?_)
    split <;> simp
  | .group _ e | .widen _ e | .unary _ _ e | .cast _ _ e | .isType _ e _ _ => e.traces_plain t
  | .subscript _ a b | .binary _ a _ b => (a.traces_plain t).seq (b.traces_plain t)
  | .logical _ a _ b => (a.traces_plain t).seq (b.traces_plain t).orNot
  | .arrayLiteral _ es | .newArray _ _ es | .newObject _ _ es _ => tracesOfAll_plain t es
  | .literal _ _ | .classRef _ _ _ | .superField _ _ _ _ | .assignee _ _ _ _ _ =>
    Traces.plain_of_eq fun _ => List.not_mem_nil

theorem tracesOfAll_plain (t : Table) : ∀ es : List Expr, (tracesOfAll t es).Plain
  | [] => Traces.plain_of_eq fun _ => List.not_mem_nil
  | e :: es => (e.traces_plain t).seq (tracesOfAll_plain t es)

theorem Callee.traces_plain (t : Table) : ∀ callee : Callee, (callee.traces t).Plain
  | .object receiver => by
    unfold Callee.traces
    split
    · exact Traces.plain_of_eq fun _ => List.not_mem_nil
    · exact receiver.traces_plain t
  | .free | .super | .superConstructor => Traces.plain_of_eq fun _ => List.not_mem_nil

end

/-- The paths on which all conditions of a list of arms are tested. -/
def testTracesAll (t : Table) : List ElseIf → Traces
  | [] => (· = [])
  | e :: es => (e.testTraces t).seq (testTracesAll t es)

/-- The paths through any of the arms, without their conditions. -/
def armPaths (t : Table) : List ElseIf → Paths
  | [] => fun _ _ => False
  | e :: es => (e.paths t).either (armPaths t es)

variable {t : Table} {elseIfs : List ElseIf} {body last : Paths}

theorem plain_tests : (testTracesAll t elseIfs).Plain := by
  induction elseIfs with
  | nil => exact Traces.plain_of_eq fun _ => List.not_mem_nil
  | cons e elseIfs ih => exact (e.condition.traces_plain t).seq ih

theorem possible_elseIfs (possible : last.Possible) : (elseIfPaths t elseIfs last).Possible := by
  induction elseIfs with
  | nil => exact possible
  | cons e elseIfs ih =>
    obtain ⟨es, outcome, held⟩ := ih
    exact Paths.possible_after (e.condition.traces_plain t) ⟨es, outcome, .inr held⟩

theorem quiet_elseIfs (possible : last.Possible) : (elseIfPaths t elseIfs last).Quiet id ↔
      (testTracesAll t elseIfs).Quiet id ∧ (armPaths t elseIfs).Quiet id ∧ last.Quiet id := by
  induction elseIfs with
  | nil =>
    have tests : (testTracesAll t []).Quiet id := Traces.quiet_eq.mpr misses_nil
    have arms : (armPaths t []).Quiet id := fun _ _ none_ => none_.elim
    simp only [tests, arms, true_and]
    rfl
  | cons e elseIfs ih =>
    have plain : (e.testTraces t).Plain := e.condition.traces_plain t
    obtain ⟨es, outcome, held⟩ := possible_elseIfs possible
    have split := @Paths.quiet_after id ((e.paths t).either (elseIfPaths t elseIfs last)) _ plain
      ⟨es, outcome, .inr held⟩
    have tests := @Traces.quiet_seq id (e.testTraces t) (testTracesAll t elseIfs) plain_tests.possible
    simp only [plain.avoids id, true_imp_iff] at tests
    rw [elseIfPaths, split, Paths.quiet_either, ih, testTracesAll, tests, armPaths, Paths.quiet_either]
    constructor
    · rintro ⟨test, arm, tests, arms, last⟩
      exact ⟨⟨test, tests⟩, ⟨arm, arms⟩, last⟩
    · rintro ⟨⟨test, tests⟩, ⟨arm, arms⟩, last⟩
      exact ⟨test, arm, tests, arms, last⟩

theorem avoids_elseIfs : (elseIfPaths t elseIfs last).Avoids id ↔ (armPaths t elseIfs).Avoids id ∨ last.Avoids id := by
  induction elseIfs with
  | nil =>
    have arms : ¬ (armPaths t []).Avoids id := fun ⟨_, none_, _⟩ => none_.elim
    simp only [arms, false_or]
    rfl
  | cons e elseIfs ih =>
    have plain : (e.testTraces t).Plain := e.condition.traces_plain t
    rw [elseIfPaths, Paths.avoids_after plain, Paths.avoids_either, ih, armPaths, Paths.avoids_either, or_assoc]

theorem goesPast_elseIfs : (elseIfPaths t elseIfs last).GoesPast ↔ (armPaths t elseIfs).GoesPast ∨ last.GoesPast := by
  induction elseIfs with
  | nil =>
    have arms : ¬ (armPaths t []).GoesPast := fun ⟨_, none_⟩ => none_.elim
    simp only [arms, false_or]
    rfl
  | cons e elseIfs ih =>
    have plain : (e.testTraces t).Plain := e.condition.traces_plain t
    rw [elseIfPaths, Paths.goesPast_after plain, Paths.goesPast_either, ih, armPaths, Paths.goesPast_either, or_assoc]

/-- Testing the conditions of a branch one by one, each before its arm, makes the same difference for a field as
testing all of them first. -/
theorem branch_alike {condition : Traces} (plainCondition : condition.Plain) (possible : last.Possible) :
    Paths.Alike (.after (condition.seq (testTracesAll t elseIfs)) (body.either ((armPaths t elseIfs).either last)))
      (.after condition (body.either (elseIfPaths t elseIfs last))) := by
  have plainTests : (testTracesAll t elseIfs).Plain := plain_tests
  have plainAll := plainCondition.seq plainTests
  obtain ⟨x, outcomeX, heldX⟩ := possible
  obtain ⟨y, outcomeY, heldY⟩ := possible_elseIfs (t := t) ⟨x, outcomeX, heldX⟩
  refine ⟨fun {id} => ?_, fun {id} => ?_, ?_⟩
  · have tests := @Traces.quiet_seq id condition _ plainTests.possible
    simp only [plainCondition.avoids id, true_imp_iff] at tests
    rw [Paths.quiet_after plainAll ⟨x, outcomeX, .inr (.inr heldX)⟩, tests, Paths.quiet_either, Paths.quiet_either,
      Paths.quiet_after plainCondition ⟨y, outcomeY, .inr heldY⟩, Paths.quiet_either,
      quiet_elseIfs ⟨x, outcomeX, heldX⟩]
    constructor
    · rintro ⟨⟨condition, tests⟩, body, arms, last⟩
      exact ⟨condition, body, tests, arms, last⟩
    · rintro ⟨condition, body, tests, arms, last⟩
      exact ⟨⟨condition, tests⟩, body, arms, last⟩
  · rw [Paths.avoids_after plainAll, Paths.avoids_either, Paths.avoids_either, Paths.avoids_after plainCondition,
      Paths.avoids_either, avoids_elseIfs]
  · rw [Paths.goesPast_after plainAll, Paths.goesPast_either, Paths.goesPast_either,
      Paths.goesPast_after plainCondition, Paths.goesPast_either, goesPast_elseIfs]

/-! ## Whole bodies -/

/-- A body that is reached to its end returns there, which needs every field. -/
theorem quiet_body {stmts : List Stmt} :
    (bodyTraces t stmts).Quiet id ↔ (pathsOfAll t stmts).Quiet id ∧ ¬ (pathsOfAll t stmts).Avoids id := by
  have atEnd {x : List Event} : Misses id (x ++ [.finish]) ↔ Misses id x ∨ .assign id ∉ x := by
    have needed : Misses id [.finish] := misses_cons.mpr (.inl trivial)
    rw [misses_append, and_iff_left needed]
  constructor
  · intro quiet
    constructor
    · intro es outcome held misses
      by_cases goesOn : outcome = .past
      · exact quiet _ (.inr ⟨es, goesOn ▸ held, rfl⟩) (atEnd.mpr (.inl misses))
      · exact quiet es (.inl ⟨outcome, held, goesOn⟩) misses
    · rintro ⟨x, held, unassigned⟩
      exact quiet _ (.inr ⟨x, held, rfl⟩) (atEnd.mpr (.inr unassigned))
  · rintro ⟨quiet, assigned⟩ es (⟨outcome, held, _⟩ | ⟨x, held, rfl⟩) misses
    · exact quiet es outcome held misses
    · rcases atEnd.mp misses with before | unassigned
      · exact quiet x .past held before
      · exact assigned ⟨x, held, unassigned⟩

end Quasicode
