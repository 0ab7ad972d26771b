import Quasicode.Proofs.DispatchSoundness
import Quasicode.Proofs.TypedBeforeRead

/-!
Whole programs after typing. The nodes of a program that was analyzed without a diagnostic are linked in the last table:
names stand for what can be used where they stand, members and calls for what was selected there, and the declarations
are those that the program began with.
-/
namespace Quasicode

open Analysis Binding Typing

theorem Table.Retyped.carries {given : SymbolId → Option Ty} {t u : Table}
    (retyped : t.Retyped given u) : t.Carries u := by
  refine ⟨fun {id s v} held isVar => ?_, fun {id s g} held isFunction => ?_, fun id => retyped.class_eq⟩
  · refine ⟨s.given (given id), v.given (given id), retyped.symbol held, ?_, rfl, rfl, rfl, fun typed => ?_⟩
    · rw [Symbol.given_var, isVar, Option.map_some]
    · simp [VariableSymbol.given, typed]
  · exact ⟨s.given (given id), retyped.symbol held, Symbol.given_function.trans isFunction⟩

/-- The declarations of a program are in the last table. -/
theorem analysis_registered {bound : Nat} {t : Table} {program program' : Program}
    {order : List SymbolId} {s : AnalysisState}
    (standing : t.Standing bound) (fresh : ∀ item ∈ program.items, item.Fresh bound)
    (ran : (analysis program).run ⟨t, []⟩ = .ok ((program', order), s)) :
    ∀ item ∈ program'.items, item.Registered s.table := by
  obtain ⟨program₁, s₁, s₂, phases⟩ := analysis_phased standing fresh ran
  obtain ⟨_, _, b, _, _, _, ran₁, _, bindsAs, _⟩ := bind_run standing.intact standing.ready fresh []
  cases phases.binds.symm.trans ran₁
  obtain ⟨given, retyped⟩ := phases.reached.retyped
  have both := (List.forall₂_and_left (p := Item.Registered b) _ _).mpr ⟨(bindsAs.names standing.typed).registered,
    phases.decorated.kin⟩
  rw [phases.table]
  exact forall_right both fun item item' holds => holds.1.kept retyped.carries holds.2

theorem Symbol.function_of_method {s : Symbol} {m : MethodSymbol} (isMethod : s.method? = some m) :
    s.function? = some m.function := by
  unfold Symbol.method? at isMethod
  unfold Symbol.function?
  cases kind : s.kind with
  | method =>
    rw [kind] at isMethod
    cases isMethod
    rfl
  | _ =>
    rw [kind] at isMethod
    cases isMethod

/-- What is known of a program that was analyzed without a diagnostic, in the last table. -/
structure Program.Checked (bound : Nat) (t : Table) (program : Program) : Prop where
  intact : t.Intact bound
  settled : Hierarchy.Settled t
  typed : t.TypedBySignature
  linked : program.Linked t
  registered : ∀ item ∈ program.items, item.Registered t
  complete : ∀ item ∈ program.items, item.Complete t
  fresh : ∀ item ∈ program.items, item.bare.Fresh bound
  placed : ∀ item ∈ program.items, item.Placed bound t
  initializes : (Flow.checkProgramInit program).run ⟨t, []⟩ = .ok ((), ⟨t, []⟩)

/-- The defaults of a function and its statements are as asked. -/
def Function.Holds (c : Checks) (f : Function) : Prop := (∀ p ∈ f.params, ∀ e, p.default = some e → c.value e) ∧
  holdsInAll c f.body

/-- The parts of an item are as asked in the class around them. -/
def Item.HoldsAround (c : Option SymbolId → Checks) : Item → Prop
  | .cls d =>
    (∀ f ∈ d.fields, ∀ e, f.initializer = some e → (c d.symbol).value e) ∧ ∀ m ∈ d.methods,
    m.function.Holds (c d.symbol)
  | .function f => f.Holds (c none)
  | .stmt s => s.Holds (c none)

/-- The spot lies in the class `cls`, or at the top level. -/
def Binding.Spot.Around (t : Table) (spot : Spot) : Option SymbolId → Prop
  | none => spot.top = .root
  | some c => ∃ k, t.class? c = some k ∧ spot.top = k.scope

theorem Function.Linked.holds {t : Table} {spot : Spot} {cls : Option SymbolId} {c : Checks} {f : Function}
    (linked : f.Linked t spot cls) (implies : (Checks.linked t spot cls (f.hasObject t)).Implies c) : f.Holds c :=
  ⟨fun p inside e same => implies.value e (linked.params p inside e same), holdsInAll_mono implies linked.body⟩

namespace Program.Checked

variable {bound : Nat} {t : Table} {program : Program} (checked : program.Checked bound t)
include checked

theorem housed {c : Class} (inside : Item.cls c ∈ program.items) :
    ∃ id k, c.symbol = some id ∧ t.class? id = some k ∧ c.scope = some k.scope := by
  obtain ⟨scope, isScope, _⟩ := (checked.complete _ inside).scope
  rcases (checked.registered _ inside).housed with ⟨_, none⟩ | housed
  · cases isScope.symm.trans none
  · exact housed

/-- The symbol of a method says what the method is declared to be. -/
theorem method {c : Class} {m : Method} (inside : Item.cls c ∈ program.items) (declares : m ∈ c.methods) :
    ∃ d id sym, c.symbol = some d ∧ m.function.symbol = some id ∧ t.method? id = some sym ∧ sym.owner = d ∧
      sym.isStatic = m.isStatic ∧ sym.visibility = m.visibility := by
  obtain ⟨d, isClass, _, methods⟩ := (checked.complete _ inside).symbol
  obtain ⟨id, s, g, isSymbol, held, core, _⟩ := (methods m declares).signed.symbol
  have methods := congrArg SymbolKind.method? core
  cases kind : s.kind with
  | method sym =>
    simp only [kind, SymbolKind.core, functionKind, SymbolKind.method?, Option.some.injEq,
      MethodSymbol.mk.injEq] at methods
    obtain ⟨_, owner, isStatic, visibility, _⟩ := methods
    refine ⟨d, id, sym, isClass, isSymbol, ?_, owner, isStatic, visibility⟩
    rw [Table.method?, held, Option.bind_some, Symbol.method?, kind]
    rfl
  | _ => simp [kind, SymbolKind.core, functionKind, SymbolKind.method?] at methods

/-- What follows for linked nodes in a class, where no field of a later class is read, holds of the parts of an item. -/
theorem around_at {c : Option SymbolId → Checks} {i : Nat} {item : Item} (here : program.items[i]? = some item)
    (implies : ∀ spot cls object, spot.Around t cls → (∀ later ∈ program.items.drop (i + 1), ∀ id, later.Owns id →
      cls = none ∨ spot.waiting id) → (Checks.linked t spot cls object).Implies (c cls)) : item.HoldsAround c := by
  have linked := checked.linked i item here
  cases item with
  | cls d =>
    obtain ⟨id, k, isSymbol, isClass, isScope⟩ := checked.housed (List.mem_of_getElem? here)
    have around (body : BodyKind) (waiting : SymbolId → Prop) : Spot.Around t ⟨k.scope, body, waiting⟩ d.symbol := by
      rw [isSymbol]
      exact ⟨k, isClass, rfl⟩
    refine ⟨fun f inside e same => ?_, fun m inside => (linked.methods _ isScope m inside).function.holds ?_⟩
    · refine (implies _ _ _ (around _ _) fun later inside id owns => .inr ?_).value e
        (linked.fields _ isScope f inside e same)
      exact .inl ⟨later, inside, owns⟩
    · exact implies _ _ _ (around _ _) fun later inside id owns => .inr ⟨later, inside, owns⟩
  | function f => exact Function.Linked.holds linked (implies _ _ _ rfl fun _ _ _ _ => .inl rfl)
  | stmt s => exact Stmt.Holds.mono (implies .outside none false rfl fun _ _ _ _ => .inl rfl) linked

/-- What follows for linked nodes in a class holds of the parts of every item. -/
theorem around {c : Option SymbolId → Checks}
    (implies : ∀ spot cls object, spot.Around t cls → (Checks.linked t spot cls object).Implies (c cls)) :
    ∀ item ∈ program.items, item.HoldsAround c := by
  intro item inside
  obtain ⟨i, here⟩ := List.getElem?_of_mem inside
  exact checked.around_at here fun spot cls object around _ => implies spot cls object around

/-- What follows for linked nodes wherever they stand holds of all nodes of the program. -/
theorem all {P : Expr → Prop} (implies : ∀ spot cls object e, e.Linked t spot cls object → P e) : program.All P := by
  have around := checked.around (c := fun _ => .nodes P) fun spot cls object _ => Checks.linked_nodes
    (implies spot cls object)
  intro item inside
  have holds := around item inside
  cases item with
  | cls | function | stmt => exact holds

end Program.Checked

/-- **A source that is analyzed on its own** without a diagnostic. -/
theorem source_checked (classNames : List String) (source : String) :
    ∃ t parsed analyzed, Table.initial = .ok t ∧
      parse (scan source).tokens (Builtin.classNames ++ classNames) = .ok parsed ∧
      analyze t parsed.program = .ok analyzed ∧
      (analyzed.problems = [] → analyzed.program.Checked (source.length + 2) analyzed.table) := by
  obtain ⟨t, initial, standing, proper⟩ := Table.initial_standing (source.length + 2)
  obtain ⟨parsed, read, fresh, _⟩ := source_read source (Builtin.classNames ++ classNames)
  obtain ⟨program', order, last, ran, standing', _, quiet, placed, _, _, _, phases⟩ := analysis_run standing fresh
  refine ⟨t, parsed, _, initial, read, analyze_eq ran, fun silent => ?_⟩
  obtain ⟨complete, linked⟩ := quiet silent proper (Table.initial_home initial)
  have registered := analysis_registered standing fresh ran
  obtain ⟨items, declared, declares, decorates⟩ := analysis_decorates standing fresh ran
  obtain ⟨settled, typed⟩ :=
    declareItems_settled standing.intact (Table.initial_declared initial).resetToRoot fresh declares
  have since := decorates.since
  have quiet : declared.problems = [] := since.silent silent
  refine ⟨standing'.intact, since.members.settled (settled quiet), since.members.sameMethods.typedBySignature typed,
    linked, registered, complete, fun item inside => fresh item.bare ?_, placed, phases.initializes silent⟩
  rw [← decorates.bare]
  exact List.mem_map_of_mem inside

end Quasicode
