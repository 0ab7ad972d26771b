import Quasicode.Proofs.AnalysisPhases
import Quasicode.Proofs.BareProgram

/-!
Programs about which nothing is reported. Every slot is filled with a symbol of the kind that belongs there and every
node has a type. Where a value meets the place that takes it, the two types are the same.
-/
namespace Quasicode

variable {t : Table}

/-! ## Filled slots -/

/-- A slot that names a variable. -/
def Table.NamesVar (t : Table) (slot : Option SymbolId) : Prop := ∃ id, slot = some id ∧ (t.var? id).isSome

/-- A slot that names a scope. -/
def Table.NamesScope (t : Table) (slot : Option ScopeId) : Prop := ∃ id, slot = some id ∧ id.index < t.scopes.size

/-- A node with a type, whose slots are filled. -/
structure Expr.Settled (t : Table) (e : Expr) : Prop where
  typed : e.info.type.isSome
  named : e.Named t

/-- The parts of statements, with all slots filled. -/
def Checks.settled (t : Table) : Checks :=
  { Checks.nodes (Expr.Settled t) with
    counter := fun _ slot => t.NamesVar slot
    scope := t.NamesScope }

structure Param.Settled (t : Table) (p : Param) : Prop where
  symbol : t.NamesVar p.symbol
  default : ∀ e, p.default = some e → e.All (Expr.Settled t)

structure Field.Settled (t : Table) (f : Field) : Prop where
  symbol : t.NamesVar f.symbol
  initializer : ∀ e, f.initializer = some e → e.All (Expr.Settled t)

/-- A function with all slots filled; the symbol of a method is that of a method. -/
structure Function.Settled (t : Table) (isMethod : Bool) (f : Function) : Prop where
  symbol : ∃ id s, f.symbol = some id ∧ t.symbol? id = some s ∧ s.function?.isSome ∧ s.method?.isSome = isMethod
  overloads : ∃ id, f.overloads = some id ∧ t.IsOverloads id
  scope : t.NamesScope f.scope
  params : ∀ p ∈ f.params, p.Settled t
  body : holdsInAll (.settled t) f.body

structure Class.Settled (t : Table) (c : Class) : Prop where
  symbol : ∃ id, c.symbol = some id ∧ (t.class? id).isSome
  scope : t.NamesScope c.scope
  instanceThis : t.NamesVar c.instanceThis
  staticThis : t.NamesVar c.staticThis
  fields : ∀ f ∈ c.fields, f.Settled t
  methods : ∀ m ∈ c.methods, m.function.Settled t true

/-- An item with all slots filled. -/
def Item.Settled (t : Table) : Item → Prop :=
  Item.Are (·.Settled t) (·.Settled t false) (·.Holds (.settled t))

namespace Expr

theorem Complete.settled {e : Expr} (complete : e.Complete t) : e.Settled t := ⟨complete.judged, complete.named⟩

theorem All.settled {e : Expr} (complete : e.All (Complete t)) : e.All (Settled t) :=
  complete.mono fun _ => Complete.settled

end Expr

theorem Checks.complete_settled {frame : Option Typing.Frame} : (Checks.complete t frame).Implies (.settled t) where
  value _ complete := complete.settled
  assignment _ parts := ⟨parts.1.settled, fun e inside => (parts.2.1 e inside).settled, parts.2.2.1.settled⟩
  returned _ complete e same := (complete e same).1.settled
  counter _ _ := id
  scope _ := id
  place _ := id

theorem Param.Complete.settled {p : Param} (complete : p.Complete t) : p.Settled t := by
  obtain ⟨id, v, ty, same, held, _, _, default⟩ := complete.symbol
  exact ⟨⟨id, same, by simp [held]⟩, fun e isDefault => (default e isDefault).1.settled⟩

theorem Field.Complete.settled {f : Field} (complete : f.Complete t) : f.Settled t := by
  obtain ⟨id, v, ty, same, held, _, _, initializer⟩ := complete.symbol
  exact ⟨⟨id, same, by simp [held]⟩, fun e isInitializer => (initializer e isInitializer).1.settled⟩

theorem Function.Complete.settled {owner : Option Binding.MethodOwner} {f : Function} (complete : f.Complete t owner) :
    f.Settled t owner.isSome := by
  obtain ⟨id, s, g, same, held, core, -, -⟩ := complete.signed.symbol
  obtain ⟨_, _, _, _, _, _, body⟩ := complete.body
  refine ⟨⟨id, s, same, held, ?_⟩, complete.signed.grouped, complete.scope,
    fun p inside => (complete.params p inside).settled, holdsInAll_mono Checks.complete_settled body⟩
  -- the core of a kind tells functions from methods
  cases owner <;> cases isKind : s.kind <;>
    simp_all [SymbolKind.core, Binding.functionKind, Symbol.function?, Symbol.method?,
      SymbolKind.function?, SymbolKind.method?]

theorem Class.Complete.settled {c : Class} (complete : c.Complete t) : c.Settled t := by
  obtain ⟨id, same, isClass, methods⟩ := complete.symbol
  exact ⟨⟨id, same, isClass⟩, complete.scope, complete.object, complete.itself,
    fun f inside => (complete.fields f inside).settled, fun m inside => (methods m inside).settled⟩

theorem Item.Complete.settled {item : Item} (complete : item.Complete t) : item.Settled t :=
  Item.Are.mono complete (fun _ => Class.Complete.settled) (fun _ => Function.Complete.settled)
    fun _ => Stmt.Holds.mono Checks.complete_settled

theorem compile_eq {source : String} {parsed : Parsed} {analyzed : Analyzed} (initial : Table.initial = .ok t)
    (read : parse (scan source).tokens Builtin.classNames = .ok parsed)
    (ran : analyze t parsed.program = .ok analyzed) :
    compile source = .ok ⟨(scan source).tokens, analyzed.program, analyzed.order,
      (scan source).problems ++ parsed.problems ++ analyzed.problems, analyzed.table⟩ := by
  simp [compile, initial, read, ran]

/-- **A program about which nothing is reported has no empty slot.** -/
theorem compiled_settled (source : String) : ∃ compiled, compile source = .ok compiled ∧
    (compiled.problems = [] → ∀ item ∈ compiled.program.items, item.Settled compiled.table) := by
  obtain ⟨t, parsed, analyzed, initial, read, ran, -, -, quiet⟩ := source_alone Builtin.classNames source
  refine ⟨_, compile_eq initial read ran, fun silent item inside => ?_⟩
  exact (quiet (List.append_eq_nil_iff.mp silent).2 item inside).settled

/-- A class with a method, called for an object that has just been created. -/
def squareArea : String := "class Square
function area(side: double = 1): double
return side * side
end function
end class
output {(new Square()).area(2), 1}
"

/-- Whether a source compiles and nothing is reported about it. -/
def compilesQuietly (source : String) : Bool := (compile source).toOption.any (·.problems.isEmpty)

theorem problems_of_compilesQuietly {source : String} {compiled : Compiled} (quiet : compilesQuietly source)
    (ran : compile source = .ok compiled) : compiled.problems = [] := by
  simpa [compilesQuietly, ran, Except.toOption] using quiet

theorem analyzed_of_compilesQuietly {source : String} {t : Table} {parsed : Parsed} {analyzed : Analyzed}
    (quiet : compilesQuietly source)
    (initial : Table.initial = .ok t) (read : parse (scan source).tokens (Builtin.classNames ++ []) = .ok parsed)
    (ran : analyze t parsed.program = .ok analyzed) : analyzed.problems = [] := by
  rw [List.append_nil] at read
  exact (List.append_eq_nil_iff.mp (problems_of_compilesQuietly quiet (compile_eq initial read ran))).2

theorem ok_of_any {α : Type} {x : Except Fault α} {shows : α → Bool} (found : x.toOption.any shows) :
    ∃ a, x = .ok a ∧ shows a := by
  cases x with
  | error fault => cases found
  | ok a => exact ⟨a, rfl, found⟩

/-- What a source that compiles quietly is found to show. -/
theorem compiled_of_shown {source : String} {shows : Compiled → Bool}
    (found : (compile source).toOption.any fun compiled => compiled.problems.isEmpty && shows compiled) :
    ∃ compiled, compile source = .ok compiled ∧ compiled.problems = [] ∧ shows compiled := by
  obtain ⟨compiled, ran, found⟩ := ok_of_any found
  rw [Bool.and_eq_true, List.isEmpty_iff] at found
  exact ⟨compiled, ran, found⟩

/-- The classes that a program declares. -/
def Program.classes (program : Program) : List Class :=
  program.items.filterMap fun item => if let .cls c := item then some c else none

theorem squareArea_quiet : compilesQuietly squareArea := by decide +kernel

theorem squareArea_settled : ∃ compiled, compile squareArea = .ok compiled ∧ compiled.problems = [] ∧
    ∀ item ∈ compiled.program.items, item.Settled compiled.table := by
  obtain ⟨compiled, ran, settled⟩ := compiled_settled squareArea
  have quiet := problems_of_compilesQuietly squareArea_quiet ran
  exact ⟨compiled, ran, quiet, settled quiet⟩

/-! ## Types that meet -/

/-- A typed node that brings values together only where their types agree. -/
structure Expr.Matched (t : Table) (e : Expr) : Prop where
  typed : e.info.type.isSome
  consistent : e.Consistent t

/-- A value, if there is one, has the type that is asked for. -/
def Expr.MatchedTo (t : Table) (ty : Ty) (value : Option Expr) : Prop :=
  ∀ e, value = some e → e.All (Expr.Matched t) ∧ e.type.Agrees ty

/-- The parts of statements in a function that returns values of the type `returns`, if it returns any. -/
def Checks.matched (t : Table) (returns : Option Ty) : Checks where
  value e := e.All (Expr.Matched t)
  assignment a := a.left.All (Expr.Matched t) ∧ (∀ e ∈ a.chained, e.All (Expr.Matched t)) ∧
    a.value.All (Expr.Matched t) ∧ a.value.type.Agrees a.left.type
  returned value := ∀ e, value = some e → e.All (Expr.Matched t) ∧ ∀ ty, returns = some ty → e.type.Agrees ty
  counter _ _ := True
  scope _ := True
  place _ := True

/-- A function, in the class of the name `cls` if it is a method: its defaults have the types that are written for the
parameters, and it returns values of the type that is written, unless it returns nothing or is a constructor. -/
structure Function.Matched (t : Table) (cls : Option String) (f : Function) : Prop where
  params : ∀ p ∈ f.params, ∃ ty, TypeName.Means t .any p.typeName ty ∧ Expr.MatchedTo t ty p.default
  body : ∃ returns, TypeName.Means t .void f.returns returns ∧
    holdsInAll (.matched t (if returns.isVoid || cls == some f.name.name then none else some returns)) f.body

/-- A class whose fields are initialized with values of the types that are written for them. -/
structure Class.Matched (t : Table) (c : Class) : Prop where
  fields : ∀ f ∈ c.fields, ∃ ty, f.typeName.resolve t.classes = .ok ty ∧ Expr.MatchedTo t ty f.initializer
  methods : ∀ m ∈ c.methods, m.function.Matched t (some c.name.name)

/-- An item in which every value has the type of the place that takes it. -/
def Item.Matched (t : Table) : Item → Prop :=
  Item.Are (·.Matched t) (·.Matched t none) (·.Holds (.matched t none))

namespace Expr

theorem Complete.matched {e : Expr} (complete : e.Complete t) : e.Matched t := ⟨complete.judged, complete.consistent⟩

theorem All.matched {e : Expr} (complete : e.All (Complete t)) : e.All (Matched t) :=
  complete.mono fun _ => Complete.matched

end Expr

theorem Checks.complete_matched {frame : Option Typing.Frame} {returns : Option Ty}
    (due : ∀ ty, returns = some ty → ∃ f, frame = some f ∧ f.isConstructor = false ∧
    f.returns = ty ∧ ty.isVoid = false) :
    (Checks.complete t frame).Implies (.matched t returns) where
  value _ complete := complete.matched
  assignment _ parts := ⟨parts.1.matched, fun e inside => (parts.2.1 e inside).matched,
    parts.2.2.1.matched, parts.2.2.2⟩
  returned _ complete e same := by
    refine ⟨(complete e same).1.matched, fun ty isDue => ?_⟩
    obtain ⟨f, around, plain, rfl, returns⟩ := due ty isDue
    exact (complete e same).2 f around plain returns
  counter _ _ _ := trivial
  scope _ _ := trivial
  place _ := id

/-- What the body of a function knows of it was settled when it was declared. -/
theorem Typing.frameOf_core (kind : SymbolKind) : frameOf kind.core = frameOf kind := by cases kind <;> rfl

theorem Function.Complete.matched {owner : Option Binding.MethodOwner} {f : Function} (complete : f.Complete t owner) :
    f.Matched t (owner.map Binding.MethodOwner.className) := by
  obtain ⟨id, s, g, same, held, core, returns, -⟩ := complete.signed.symbol
  obtain ⟨id', s', frame, same', held', isFrame, body⟩ := complete.body
  cases same.symm.trans same'
  cases held.symm.trans held'
  rw [← Typing.frameOf_core, core, Typing.frameOf_core] at isFrame
  refine ⟨fun p inside => ?_, g.returns, returns, holdsInAll_mono (Checks.complete_matched fun ty isDue => ?_) body⟩
  · obtain ⟨_, _, ty, _, _, _, means, default⟩ := (complete.params p inside).symbol
    exact ⟨ty, means, fun e isDefault => ⟨(default e isDefault).1.matched, (default e isDefault).2⟩⟩
  · split at isDue
    · cases isDue
    · rename_i due
      cases isDue
      simp only [Bool.or_eq_true, not_or, Bool.not_eq_true] at due
      cases owner with
      | none =>
        cases isFrame
        exact ⟨_, rfl, rfl, rfl, due.1⟩
      | some owner =>
        cases isFrame
        exact ⟨_, rfl, (Bool.beq_comm.trans due.2 : (f.name.name == owner.className) = false), rfl, due.1⟩

theorem Class.Complete.matched {c : Class} (complete : c.Complete t) : c.Matched t := by
  obtain ⟨id, _, _, methods⟩ := complete.symbol
  refine ⟨fun f inside => ?_, fun m inside => (methods m inside).matched⟩
  obtain ⟨_, _, ty, _, _, _, resolved, initializer⟩ := (complete.fields f inside).symbol
  exact ⟨ty, resolved, fun e same => ⟨(initializer e same).1.matched, (initializer e same).2⟩⟩

theorem Item.Complete.matched {item : Item} (complete : item.Complete t) : item.Matched t :=
  Item.Are.mono complete (fun _ => Class.Complete.matched) (fun _ => Function.Complete.matched)
    fun _ => Stmt.Holds.mono (Checks.complete_matched (by simp))

/-- **Values have the types of the places that take them** in a program about which nothing is reported. -/
theorem boundaries_agree (classNames : List String) (source : String) :
    ∃ t parsed analyzed, Table.initial = .ok t ∧
      parse (scan source).tokens (Builtin.classNames ++ classNames) = .ok parsed ∧
      analyze t parsed.program = .ok analyzed ∧
      (analyzed.problems = [] → ∀ item ∈ analyzed.program.items, item.Matched analyzed.table) := by
  obtain ⟨t, parsed, analyzed, initial, read, ran, -, -, quiet⟩ :=
    source_alone (Builtin.classNames ++ classNames) source
  exact ⟨t, parsed, analyzed, initial, read, ran, fun silent item inside => (quiet silent item inside).matched⟩

theorem squareArea_agrees :
    ∃ t parsed analyzed, Table.initial = .ok t ∧
      parse (scan squareArea).tokens (Builtin.classNames ++ []) = .ok parsed ∧
      analyze t parsed.program = .ok analyzed ∧ analyzed.problems = [] ∧ ∀ item ∈ analyzed.program.items,
      item.Matched analyzed.table := by
  obtain ⟨t, parsed, analyzed, initial, read, ran, matched⟩ := boundaries_agree [] squareArea
  have quiet := problems_of_compilesQuietly squareArea_quiet
    (compile_eq initial (List.append_nil Builtin.classNames ▸ read) ran)
  have silent : analyzed.problems = [] := (List.append_eq_nil_iff.mp quiet).2
  exact ⟨t, parsed, analyzed, initial, read, ran, silent, matched silent⟩

end Quasicode
