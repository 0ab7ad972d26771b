import Quasicode.Proofs.DefiniteInit
import Quasicode.Proofs.HiddenMembers

/-!
Objects are created with their fields assigned. Where a program is analyzed without a diagnostic, the constructor that a
`new` runs is one of the class that is written there. On every path through the body of such a constructor, each field
of the class that has no initializer is assigned before it is read, and before the constructor is done. Nothing of the
kind is known of the defaults of its parameters, or of a class that has no constructor.
-/
namespace Quasicode

open Analysis
open Quasicode.Flow (requiredFields checkConstructor checkProgramInit isConstructor Fields)

variable {bound : Nat} {t : Table} {program : Program}

/-! ## Bodies of checked programs -/

/-- The methods that the target of a selected function holds all run on an object, or there is only one. -/
theorem Table.targetOf_led {id : SymbolId} (settled : Hierarchy.Settled t) (typed : t.TypedBySignature)
    (known : (t.symbol? id).isSome) (plain : ∀ m, t.method? id = some m → m.isConstructor = false) :
    (∀ x ∈ (t.targetOf id).methods, (t.symbol? x).isSome) ∧ (t.targetOf id).Led t := by
  have alone : (∀ x ∈ (CallTarget.unique id).methods, (t.symbol? x).isSome) ∧ (CallTarget.unique id).Led t := by
    simp [CallTarget.Led, CallTarget.methods, known]
  unfold Table.targetOf
  cases isMethod : t.method? id with
  | none => exact alone
  | some m =>
    dsimp only
    split
    · exact alone
    next overridden =>
      obtain ⟨key, signed⟩ := Table.signature_of_method isMethod (plain m isMethod)
      have dispatches := Table.dispatches_insertOwned settled typed isMethod signed (by simp_all)
      have runs : ∀ entry ∈ t.insertOwned m.overriders [(m.owner, id)], (t.symbol? entry.2).isSome ∧
          t.isObjectMethod entry.2 := by
        intro entry inside
        obtain ⟨_, other, isOther, ofObjects, _⟩ := dispatches.alike entry inside
        have declared : t.signature? entry.2 = some key := by
          rcases Table.mem_insertOwned inside with ⟨overrides, _⟩ | itself
          · obtain ⟨d, _, declared⟩ := (settled.overriders isMethod signed entry.2).mp overrides
            exact (Table.mem_declares.mp declared).2
          · rw [List.mem_singleton.mp itself]
            exact signed
        obtain ⟨s, held, isMethod'⟩ := Table.method_symbol isOther
        have plain' : other.isConstructor = false ∧ s.name = key := by
          simpa [Table.signature?, held, isMethod'] using declared
        simp [Table.isObjectMethod, held, isMethod', ofObjects, plain']
      have each : ∀ x ∈ (CallTarget.byClass (t.insertOwned m.overriders [(m.owner, id)])).methods,
          (t.symbol? x).isSome ∧ t.isObjectMethod x := List.forall_mem_map.mpr runs
      refine ⟨fun x inside => (each x inside).1, fun some => ?_⟩
      cases held : (CallTarget.byClass (t.insertOwned m.overriders [(m.owner, id)])).methods with
      | nil => simp [held] at some
      | cons x rest => exact (each x (by simp [held])).2

namespace Program.Checked

variable (checked : program.Checked bound t)
include checked

theorem shown : program.All (Expr.Shown t) := by
  refine checked.all fun spot cls object e linked => ?_
  have uses := linked.uses
  have chosen := linked.chosen
  cases e with
  | var | assignee =>
    refine ⟨fun id same => ?_, trivial⟩
    obtain ⟨⟨s, _, held, _⟩, _⟩ := uses id same
    simp [held]
  | call info callee name arguments target =>
    have both : ∀ x ∈ target, (∀ id ∈ x.methods, (t.symbol? id).isSome) ∧ x.Led t := by
      rintro target rfl
      obtain ⟨id, ⟨s, f, held, _⟩, selects⟩ := chosen
      cases callee with
      | free | object =>
        rw [selects.1]
        exact Table.targetOf_led checked.settled checked.typed (by simp [held]) selects.2.plain
      | super | superConstructor =>
        rw [show target = .unique id from selects]
        simp [CallTarget.Led, CallTarget.methods, held]
    exact ⟨fun x same => (both x same).1, fun x same => (both x same).2⟩
  | _ => exact ⟨trivial, trivial⟩

/-- The fields that a constructor has to assign are fields of objects. -/
theorem fields {c : Class} (inside : Item.cls c ∈ program.items) : Fields t (requiredFields c) := by
  intro id required
  obtain ⟨f, declares, chosen⟩ := List.mem_filterMap.mp required
  split at chosen
  next isRequired =>
    obtain ⟨s, v, held, isVar, _, kind, _⟩ := (checked.registered _ inside).fields f declares id chosen
    have ofObjects : f.isStatic = false := by simp_all
    simp [Table.isField, held, isVar, kind, ofObjects]
  next => cases chosen

end Program.Checked

/-! ## Checks that report nothing -/

/-- Nothing is reported in a loop if nothing is reported in any round. -/
theorem Analysis.forM_silent {α : Type} {F : Diagnostic → Prop} {problems : List Diagnostic}
    {g : α → Analysis Unit} {xs : List α}
    (each : ∀ x ∈ xs, Answers F t (g x) fun _ => True) (ran : (xs.forM g).run ⟨t, problems⟩ = .ok ((), ⟨t, problems⟩)) :
    ∀ x ∈ xs, (g x).run ⟨t, problems⟩ = .ok ((), ⟨t, problems⟩) := by
  induction xs with
  | nil => simp
  | cons x xs ih =>
    obtain ⟨here, others⟩ := List.forall_mem_cons.mp each
    obtain ⟨_, _, found, first, _, ⟨rfl, _⟩, _⟩ := here.run problems
    obtain ⟨_, _, found', rest, _, ⟨rfl, _⟩, _⟩ := (Answers.forM others).run (problems ++ found)
    have both := ran
    rw [List.forM, run_seq first, rest, Except.ok.injEq, Prod.mk.injEq, AnalysisState.mk.injEq, List.append_assoc,
      List.append_right_eq_self, List.append_eq_nil_iff] at both
    obtain ⟨_, _, rfl, rfl⟩ := both
    rw [List.append_nil] at first
    rw [List.forM, run_seq first] at ran
    exact List.forall_mem_cons.mpr ⟨first, ih others ran⟩

theorem goesWrong_nil {es : List Event} : ¬ GoesWrong [] es := by simp [goesWrong_iff]

/-- **Every constructor of a program assigns its fields in time**, since the checks report nothing. -/
theorem Program.Checked.goesRight (checked : program.Checked bound t) {c : Class} {m : Method} {cls id : SymbolId}
    (inside : Item.cls c ∈ program.items) (declares : m ∈ c.methods) (isSymbol : m.function.symbol = some id)
    (constructs : t.Constructs cls id) :
    ∀ es, bodyTraces t m.function.body es → ¬ GoesWrong (requiredFields c) es := by
  cases empty : (requiredFields c).isEmpty with
  | true =>
    rw [List.isEmpty_iff.mp empty]
    exact fun _ _ => goesWrong_nil
  | false =>
    obtain ⟨d, isClass, _, methods⟩ := (checked.complete _ inside).symbol
    obtain ⟨scope, isScope, _⟩ := (methods m declares).scope
    obtain ⟨sym, isMethod, isConstructor, _⟩ := constructs
    obtain ⟨s, held, isMethod⟩ := Table.method_symbol isMethod
    have item := forM_silent (fun item inside => Flow.checkItemInit_answers (checked.placed item inside))
      checked.initializes _ inside
    simp only [Flow.checkItemInit, isClass, empty, Option.isSome_some, Bool.not_false, Bool.and_self, if_true] at item
    have known : c.symbol.isSome := by simp [isClass]
    have method := forM_silent
      (fun m inside' => Flow.checkMethodInit_answers ((checked.placed _ inside).methods known m inside'))
      item m declares
    have asked : (Flow.isConstructor m.function).run ⟨t, []⟩ = .ok (true, ⟨t, []⟩) := by
      unfold Flow.isConstructor
      rw [isSymbol]
      simp only
      rw [run_seq (run_symbol held)]
      simp [isScope, isMethod, isConstructor]
    rw [run_seq asked, if_pos rfl] at method
    have body := ((checked.shown _ inside).2 m declares).2
    obtain ⟨found, ran', quiet⟩ := Flow.checkConstructor_run (s := ⟨t, []⟩) (checked.fields inside) body
    cases ran'.symm.trans method
    exact Flow.goesRight_iff.mpr (quiet.mp rfl)

/-! ## Objects -/

/-- On no path through a constructor of the class does the program miss a field that has no initializer. -/
def Program.Initializes (t : Table) (program : Program) (cls : SymbolId) : Prop :=
  ∀ c, Item.cls c ∈ program.items → c.symbol = some cls → ∀ m ∈ c.methods, ∀ id, m.function.symbol = some id →
    t.Constructs cls id → ∀ es, bodyTraces t m.function.body es → ¬ GoesWrong (requiredFields c) es

/-- The constructor that a node runs is one of the written class, whose constructors all assign its fields in time. -/
def Expr.Initialized (t : Table) (program : Program) : Expr → Prop
  | .newObject _ type _ (some id) => ∃ cls, type.OfClass t cls ∧ t.Constructs cls id ∧ program.Initializes t cls
  | _ => True

/-- **Objects are created with their fields assigned.** -/
theorem objects_initialized (classNames : List String) (source : String) :
    ∃ t parsed analyzed, Table.initial = .ok t ∧
      parse (scan source).tokens (Builtin.classNames ++ classNames) = .ok parsed ∧
      analyze t parsed.program = .ok analyzed ∧
      (analyzed.problems = [] → analyzed.program.All (Expr.Initialized analyzed.table analyzed.program)) := by
  obtain ⟨t, parsed, analyzed, initial, read, ran, checked⟩ := source_checked classNames source
  refine ⟨t, parsed, analyzed, initial, read, ran, fun silent => (checked silent).all
    fun spot cls object e linked => ?_⟩
  have chosen := linked.chosen
  cases e with
  | newObject info type arguments target =>
    cases target with
    | none => trivial
    | some id =>
      obtain ⟨_, built, ofClass, constructs⟩ := chosen
      refine ⟨built, ofClass, constructs, fun c inside _ m declares id isSymbol constructs => ?_⟩
      exact (checked silent).goesRight inside declares isSymbol constructs
  | _ => trivial

/-- A class with two constructors, one of which assigns its fields in the arms of a branch. -/
def assignedInArms : String := "class A
x: int
y: int = 1
function A(p: boolean)
if p then
x = 1
else
this.x = y
end if
output x
end function
function A()
x = 2
end function
end class
a = new A(true)
b = new A()
"

/-- The fields of a new object that are missed if it is created with `count` arguments. Where no
constructor runs, nothing assigns them. Where one does, the defaults of the parameters that are
left out read them before its body runs. -/
def Class.missed (c : Class) (target : Option SymbolId) (count : Nat) : List SymbolId :=
  (requiredFields c).filter fun id =>
    match target with
    | none => c.methods.isEmpty
    | some constructor => c.methods.any fun m => m.function.symbol == some constructor &&
        (m.function.params.drop count).any fun p => p.default.any fun e => e.slots.contains id

/-- The item assigns a new object of the class, and a field is missed in it. -/
def Item.misses (c : Class) : Item → Bool
  | .stmt (.assign ⟨_, _, .newObject _ (.ofClass type _ _) arguments target, _⟩) =>
    type == c.name.name && !(c.missed target arguments.length).isEmpty
  | _ => false

/-- A class with a field that nothing assigns. -/
def unassignedField : String := "class A
x: int
end class
a = new A()
"

/-- A constructor with a default that reads a field before the body assigns it. -/
def readingDefault : String := "class A
x: int
function A(p: int = x)
x = p
end function
end class
a = new A()
"

/-- What the compiler says about these sources. -/
theorem assignedFields_compiled : compilesQuietly assignedInArms ∧ ∀ source ∈ [unassignedField, readingDefault],
    (compile source).toOption.any fun compiled => compiled.problems.isEmpty && compiled.program.classes.any fun c =>
      compiled.program.items.any fun item => item.misses c := by decide +kernel

theorem assignedInArms_initialized :
    ∃ t parsed analyzed, Table.initial = .ok t ∧
      parse (scan assignedInArms).tokens (Builtin.classNames ++ []) = .ok parsed ∧
      analyze t parsed.program = .ok analyzed ∧ analyzed.problems = [] ∧
      analyzed.program.All (Expr.Initialized analyzed.table analyzed.program) := by
  obtain ⟨t, parsed, analyzed, initial, read, ran, initialized⟩ := objects_initialized [] assignedInArms
  have silent := analyzed_of_compilesQuietly assignedFields_compiled.1 initial read ran
  exact ⟨t, parsed, analyzed, initial, read, ran, silent, initialized silent⟩

/-- An object can be created without a constructor that assigns its fields, and a field can be
read before it is assigned. -/
theorem field_missed : [unassignedField, readingDefault].Forall fun source =>
    ∃ compiled, compile source = .ok compiled ∧ compiled.problems = [] ∧
      ∃ c ∈ compiled.program.classes, ∃ item ∈ compiled.program.items, item.misses c := by
  refine List.forall_iff_forall_mem.mpr fun source inside => ?_
  simpa only [List.any_eq_true] using compiled_of_shown (assignedFields_compiled.2 source inside)

end Quasicode
