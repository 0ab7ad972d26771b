import Quasicode.Proofs.FlowPaths
import Quasicode.Proofs.LinkedPrograms

/-!
How many arguments a call has. The function that is selected for a call takes as many arguments as the call has, and
whatever else the call can run has as many parameters. A parameter that is left out has a default if the function has
its defaults last and needs no more arguments than the selected one; neither is checked where functions are declared.
-/
namespace Quasicode

open Analysis Binding Typing

/-! ## Omitted parameters -/

/-- The defaults of a function are those of its last parameters. -/
def Function.DefaultsLast (f : Function) : Prop := f.params.Pairwise fun p q => p.default.isSome → q.default.isSome

/-- If the defaults come last, the parameters after the required ones have defaults. -/
theorem default_of_required_le :
    ∀ {params : List Param} {count : Nat}, params.Pairwise (fun p q => p.default.isSome → q.default.isSome) →
    requiredParams params ≤ count → ∀ p ∈ params.drop count, p.default.isSome
  | [], _, _, _, _, inside => by simp at inside
  | p :: params, count, last, enough, q, inside => by
    obtain ⟨later, last⟩ := List.pairwise_cons.mp last
    cases isNone : p.default.isNone with
    | false =>
      have isSome : p.default.isSome := by simpa using isNone
      rcases List.mem_cons.mp (List.mem_of_mem_drop inside) with rfl | inside
      · exact isSome
      · exact later q inside isSome
    | true =>
      cases count with
      | zero => simp [requiredParams, isNone] at enough
      | succ count =>
        refine default_of_required_le last ?_ q inside
        simpa [requiredParams, isNone] using enough

/-! ## Calls -/

/-- The functions that an item declares. -/
def Item.functions : Item → List Function
  | .cls c => c.methods.map Method.function
  | .function f => [f]
  | .stmt _ => []

/-- A function of the table has room for `count` arguments. -/
def Table.HasRoom (t : Table) (id : SymbolId) (count : Nat) : Prop :=
  ∃ s f, t.symbol? id = some s ∧ s.function? = some f ∧ count ≤ f.params.length

/-- The least number of arguments that a function takes. -/
def Table.leastArgs (t : Table) (id : SymbolId) : Nat :=
  ((t.symbol? id).bind Symbol.function?).elim 0 FunctionSymbol.minArgs

/-- A call with `count` arguments for which the function `id` was selected can run the functions
`runs`. A declared one of them has defaults for the parameters that are left out if its defaults
are last and it is the selected one or needs no more than that. -/
structure Program.Supplies (t : Table) (program : Program) (id : SymbolId) (runs : List SymbolId)
    (count : Nat) : Prop where
  selected : id ∈ runs
  accepts : t.Accepts id count
  room : ∀ g ∈ runs, t.HasRoom g count
  declared : ∀ item ∈ program.items, ∀ f ∈ item.functions, ∀ g ∈ runs, f.symbol = some g → count ≤ f.params.length ∧
    (f.DefaultsLast → g = id ∨ requiredParams f.params ≤ t.leastArgs id → ∀ p ∈ f.params.drop count, p.default.isSome)

/-- The functions that a node can run can be called with its arguments. -/
def Expr.Supplied (t : Table) (program : Program) : Expr → Prop
  | .call _ _ _ arguments (some target) => ∃ id, program.Supplies t id target.methods arguments.length
  | .newObject _ _ arguments (some id) => program.Supplies t id [id] arguments.length
  | _ => True

section Calls

variable {bound count : Nat} {t : Table} {program : Program} {id : SymbolId} {runs : List SymbolId}

theorem Table.Accepts.leastArgs (accepts : t.Accepts id count) : t.leastArgs id ≤ count := by
  obtain ⟨s, f, held, isFunction, enough, _⟩ := accepts
  simpa [Table.leastArgs, held, isFunction] using enough

theorem Table.Accepts.hasRoom (accepts : t.Accepts id count) (intact : t.Intact bound) : t.HasRoom id count := by
  obtain ⟨s, f, held, isFunction, _, most⟩ := accepts
  exact ⟨s, f, held, isFunction, (intact.sound.function_sound held isFunction).counted ▸ most⟩

/-- The functions of a program have the numbers of parameters that they were declared with. -/
theorem Program.Checked.sized (checked : program.Checked bound t) {item : Item}
    (inside : item ∈ program.items) {f : Function} (declares : f ∈ item.functions) : f.Sized t := by
  have registered := checked.registered item inside
  cases item with
  | cls c =>
    obtain ⟨m, isMethod, rfl⟩ := List.mem_map.mp declares
    exact registered.methods m isMethod
  | function g =>
    cases List.mem_singleton.mp declares
    exact registered
  | stmt s => simp [Item.functions] at declares

/-- What the selected function accepts is enough for all that have room for it. -/
theorem Program.Checked.supplies (checked : program.Checked bound t) (selected : id ∈ runs)
    (accepts : t.Accepts id count) (room : ∀ g ∈ runs, t.HasRoom g count) : program.Supplies t id runs count := by
  refine ⟨selected, accepts, room, fun item inside f declares g runs isSymbol => ?_⟩
  obtain ⟨s, g', held, isFunction, least, _, all⟩ := checked.sized inside declares g isSymbol
  obtain ⟨s', g'', held', isFunction', fits⟩ := room g runs
  cases held.symm.trans held'
  cases isFunction.symm.trans isFunction'
  refine ⟨all ▸ fits, fun last noMore => default_of_required_le last ?_⟩
  rcases noMore with rfl | noMore
  · have required : t.leastArgs g = requiredParams f.params := by simp [Table.leastArgs, held, isFunction, least]
    exact required ▸ accepts.leastArgs
  · exact Nat.le_trans noMore accepts.leastArgs

/-- Overriding functions have room for whatever the overridden one has room for. -/
theorem Program.Checked.supplies_target (checked : program.Checked bound t) (accepts : t.Accepts id count)
    (plain : ∀ m, t.method? id = some m → m.isConstructor = false) :
    program.Supplies t id (t.targetOf id).methods count := by
  have alone : program.Supplies t id (CallTarget.unique id).methods count :=
    checked.supplies List.mem_cons_self accepts (by simpa [CallTarget.methods] using accepts.hasRoom checked.intact)
  unfold Table.targetOf
  cases isMethod : t.method? id with
  | none => exact alone
  | some m =>
    dsimp only
    split
    · exact alone
    next overridden =>
      obtain ⟨key, signed⟩ := Table.signature_of_method isMethod (plain m isMethod)
      have ofObjects : m.isStatic = false := by simp_all
      have dispatches := Table.dispatches_insertOwned checked.settled checked.typed isMethod signed ofObjects
      obtain ⟨s, f, held, isFunction, fits⟩ := accepts.hasRoom checked.intact
      refine checked.supplies (List.mem_map.mpr ⟨_, dispatches.selected, rfl⟩) accepts fun g inside => ?_
      obtain ⟨entry, among, rfl⟩ := List.mem_map.mp inside
      obtain ⟨_, other, isOther, _, params, _⟩ := dispatches.alike entry among
      obtain ⟨s', held', isMethod'⟩ := Table.method_symbol isOther
      refine ⟨s', other.function, held', Symbol.function_of_method isMethod', ?_⟩
      obtain ⟨s'', held'', isMethod''⟩ := Table.method_symbol isMethod
      cases held.symm.trans held''
      cases isFunction.symm.trans (Symbol.function_of_method isMethod'')
      exact params ▸ fits

end Calls

/-- **Calls have as many arguments as what they run can take.** -/
theorem calls_supplied (classNames : List String) (source : String) :
    ∃ t parsed analyzed, Table.initial = .ok t ∧
      parse (scan source).tokens (Builtin.classNames ++ classNames) = .ok parsed ∧
      analyze t parsed.program = .ok analyzed ∧
      (analyzed.problems = [] → analyzed.program.All (Expr.Supplied analyzed.table analyzed.program)) := by
  obtain ⟨t, parsed, analyzed, initial, read, ran, checked⟩ := source_checked classNames source
  refine ⟨t, parsed, analyzed, initial, read, ran, fun silent => (checked silent).all
    fun spot cls object e linked => ?_⟩
  have alone {id : SymbolId} {count : Nat} (accepts : analyzed.table.Accepts id count) :
      analyzed.program.Supplies analyzed.table id [id] count :=
    (checked silent).supplies List.mem_cons_self accepts (by simpa using accepts.hasRoom (checked silent).intact)
  have chosen := linked.chosen
  cases e with
  | call info callee name arguments target =>
    cases target with
    | none => trivial
    | some target =>
      obtain ⟨id, accepts, selects⟩ := chosen
      refine ⟨id, ?_⟩
      cases callee with
      | free | object =>
        rw [selects.1]
        exact (checked silent).supplies_target accepts selects.2.plain
      | super | superConstructor =>
        rw [show target = .unique id from selects]
        exact alone accepts
  | newObject info type arguments target =>
    cases target with
    | none => trivial
    | some id => exact alone chosen.1
  | _ => trivial

/-- A method and one that overrides it, called with one argument less than they have parameters. -/
def shortCall : String := "class A
function f(x: int, y: int = 1)
end function
end class
class B extends A
function f(x: int, y: int = 2)
end function
end class
a = new A()
a.f(3)
"

/-- The call can run the function and leaves out a parameter that has no default. -/
def Expr.leavesOut (f : Function) : Expr → Bool
  | .call _ _ _ arguments (some target) =>
    f.symbol.any target.methods.contains && (f.params.drop arguments.length).any (·.default.isNone)
  | _ => false

/-- A default before a parameter that has none. -/
def defaultFirst : String := "function f(a: int = 1, b: int)
end function
f()
"

/-- An overriding method that has no default where the overridden one has it. -/
def defaultDropped : String := "class A
function f(x: int = 1)
end function
end class
class B extends A
function f(x: int)
end function
end class
a = new A()
a.f()
"

/-- What the compiler says about these sources. -/
theorem shortCalls_compiled : compilesQuietly shortCall ∧ ∀ source ∈ [defaultFirst, defaultDropped],
    (compile source).toOption.any fun compiled => compiled.problems.isEmpty && compiled.program.calls.any fun call =>
      compiled.program.items.any fun item => item.functions.any fun f => call.leavesOut f := by decide +kernel

theorem shortCall_supplied :
    ∃ t parsed analyzed, Table.initial = .ok t ∧ parse (scan shortCall).tokens (Builtin.classNames ++ []) = .ok parsed ∧
      analyze t parsed.program = .ok analyzed ∧ analyzed.problems = [] ∧
      analyzed.program.All (Expr.Supplied analyzed.table analyzed.program) := by
  obtain ⟨t, parsed, analyzed, initial, read, ran, supplied⟩ := calls_supplied [] shortCall
  have silent := analyzed_of_compilesQuietly shortCalls_compiled.1 initial read ran
  exact ⟨t, parsed, analyzed, initial, read, ran, silent, supplied silent⟩

/-- Without either condition, a parameter that has no default can be left out. -/
theorem required_left_out : [defaultFirst, defaultDropped].Forall fun source =>
    ∃ compiled, compile source = .ok compiled ∧ compiled.problems = [] ∧
      ∃ call ∈ compiled.program.calls, ∃ item ∈ compiled.program.items, ∃ f ∈ item.functions, call.leavesOut f := by
  refine List.forall_iff_forall_mem.mpr fun source inside => ?_
  simpa only [List.any_eq_true] using compiled_of_shown (shortCalls_compiled.2 source inside)

end Quasicode
