import Quasicode.Proofs.AnalysisPhases
import Quasicode.Proofs.QuietPrograms

/-!
Variables are typed before they are read. A program whose globals do not depend on each other in a cycle is typed in the
same way from the table that binding leaves and from one in which the variables without a type have been given any types
at all. So the lack of a type is never noticed: what stands for the type of a variable without one is never asked for.
-/
namespace Quasicode

open Analysis Binding Typing

/-! ## Types for variables that have none -/

/-- The table with the given types for the variables that have none. -/
def Table.assuming (given : SymbolId → Option Ty) (t : Table) : Table :=
  { t with symbols := t.symbols.map fun s => s.given (given s.id) }

theorem Typing.Twin.assuming {bound : Nat} {t : Table} (sound : t.Sound bound) (given : SymbolId → Option Ty) :
    Twin given t (t.assuming given) := by
  refine ⟨⟨⟨Array.size_map, rfl, fun id => ?_⟩, rfl⟩, rfl⟩
  rw [Table.symbol?, Table.assuming, Array.getElem?_map]
  cases held : t.symbols[id.index]? with
  | none => simp [Table.symbol?, held]
  | some s => simp [Table.symbol?, held, Symbol.given, sound.numbered (show t.symbol? id = some s from held)]

/-- The parameters of a function have types. -/
def Function.ParamsTyped (t : Table) (f : Function) : Prop :=
  f.symbol.isSome → ∀ p ∈ f.params, ∀ id, p.symbol = some id → t.HasType id

/-- What an item can initialize where it declares it, the fields and parameters, has types. -/
def Item.InitialsTyped (t : Table) : Item → Prop :=
  Item.Are (fun c => c.symbol.isSome → (∀ f ∈ c.fields, ∀ id, f.symbol = some id → t.HasType id) ∧ ∀ m ∈ c.methods,
    m.function.ParamsTyped t) (·.ParamsTyped t) fun _ => True

section Initials

variable {bound first last : Nat} {t : Table}

theorem Function.Threads.paramsTyped {f : Function} (threads : f.Threads bound t first last) : f.ParamsTyped t := by
  intro isSome p inside id same v isVar
  obtain ⟨symbol, isSymbol⟩ := Option.isSome_iff_exists.mp isSome
  obtain ⟨_, _, middle, _, _, _, _, _, typed, placed, newer, _⟩ := threads.known symbol isSymbol
  exact typed id v (newer p inside id same) ((placed p inside).symbol id same) isVar

/-- What lies between two numbers lies between two others one by one. -/
theorem threads_mem {α : Type} {R : Nat → α → Nat → Prop} :
    ∀ {xs : List α} {first last : Nat}, threads R first xs last → ∀ x ∈ xs, ∃ first last, R first x last
  | x :: xs, _, _, ⟨middle, here, rest⟩, y, inside => by
    rcases List.mem_cons.mp inside with rfl | inside
    · exact ⟨_, _, here⟩
    · exact threads_mem rest y inside

theorem Item.Threads.initialsTyped {item : Item} (threads : item.Threads bound t first last)
    (registered : item.Registered t) :
    item.InitialsTyped t := by
  cases item with
  | cls c =>
    intro isSome
    refine ⟨fun f inside id same v isVar => ?_, fun m inside => ?_⟩
    · obtain ⟨s, v', held, isVar', _, _, _, typed⟩ := registered.fields f inside id same
      cases isVar.symm.trans ((Table.var_of held).trans isVar')
      exact typed
    · obtain ⟨symbol, isSymbol⟩ := Option.isSome_iff_exists.mp isSome
      obtain ⟨_, _, _, _, _, _, _, _, methods⟩ := Class.Threads.known threads symbol isSymbol
      obtain ⟨_, _, inMethod⟩ := threads_mem methods m inside
      exact inMethod.paramsTyped
  | function f => exact Function.Threads.paramsTyped threads
  | stmt s => trivial

end Initials

/-! ## Programs -/

/-- **Variables are typed before they are read.** -/
theorem typed_before_read (classNames : List String) (source : String) :
      ∃ t parsed bound order s s' analyzed, Table.initial = .ok t ∧
      parse (scan source).tokens (Builtin.classNames ++ classNames) = .ok parsed ∧
      (bind parsed.program).run ⟨t.resetToRoot, []⟩ = .ok ((bound, order), s) ∧
      (typeProgram bound order).run s = .ok (analyzed.program, s') ∧ s'.table = analyzed.table ∧
      analyze t parsed.program = .ok analyzed ∧ (∀ id v, analyzed.table.var? id = some v → v.type.isSome) ∧
      (∀ item ∈ bound.items, item.InitialsTyped s.table) ∧ ((∀ d ∈ analyzed.problems, d.cause ≠ .circularReference) →
        ∀ given, (typeProgram bound order).run ⟨s.table.assuming given, s.problems⟩ =
        (typeProgram bound order).run s) := by
  obtain ⟨t, initial, standing, _⟩ := Table.initial_standing (source.length + 2)
  obtain ⟨parsed, read, fresh, _⟩ := source_read source (Builtin.classNames ++ classNames)
  obtain ⟨program', order, last, ran, standing', _, _, _, bound, s, s', phases⟩ := analysis_run standing fresh
  obtain ⟨_, _, t₁, early, circular, late, ran₁, _, bindsAs, _⟩ := bind_run standing.intact standing.ready fresh []
  cases phases.binds.symm.trans ran₁
  have names := bindsAs.names standing.typed
  obtain ⟨first, count, typed, numbered⟩ := bindsAs.numbered
  obtain ⟨found, problems, _⟩ := phases.problems
  refine ⟨t, parsed, bound, order, _, s', _, initial, read, phases.binds, phases.types, phases.table.symm,
    analyze_eq ran, fun id v isVar => ?_, fun item inside => ?_, fun acyclic given => ?_⟩
  · obtain ⟨_, held, _⟩ := Table.var_symbol isVar
    exact standing'.typed id v (Nat.zero_le _) (Table.symbol_bound held) isVar
  · obtain ⟨_, _, inItem⟩ := threads_mem numbered.items item inside
    exact inItem.initialsTyped (names.registered item inside)
  · have none : circular = [] := by
      refine List.eq_nil_iff_forall_not_mem.mpr fun span inside => acyclic ⟨.circularReference, span⟩ ?_ rfl
      simp [problems, inside]
    subst none
    have goes := typeProgram_goes (g := ⟨given, True⟩) bindsAs.intact bindsAs.unset bindsAs.sites
      bindsAs.ordered numbered (typed standing.typed) names fun _ => rfl
    obtain ⟨_, _, ⟨reached, _⟩, _⟩ := goes.ran phases.types
    obtain ⟨_, alike, _, twin⟩ := goes.alike phases.types ⟨trivial, .assuming bindsAs.intact.sound given⟩
    obtain rfl := twin.eq fun id v isVar => by
      obtain ⟨_, held, _⟩ := Table.var_symbol isVar
      exact reached.typed id v (reached.below.mp (Table.symbol_bound held)) isVar
    exact alike.trans phases.types.symm

/-- A global that is defined before the one that it needs, and a function that reads it. -/
def laterGlobal : String := "total = step + 1
step = 2
function show(more: int = 3)
sum = total + more
output sum
end function
show()
"

/-- Whether binding a source leaves variables without types. -/
def bindsUntyped (source : String) : Except Fault Bool := do
  let t ← Table.initial
  let parsed ← parse (scan source).tokens (Builtin.classNames ++ [])
  let (_, s) ← (bind parsed.program).run ⟨t.resetToRoot, []⟩
  return s.table.symbols.any fun sym => sym.var?.any fun v => v.type.isNone

theorem laterGlobal_typed_before_read : ∃ t parsed bound order s analyzed, Table.initial = .ok t ∧
      parse (scan laterGlobal).tokens (Builtin.classNames ++ []) = .ok parsed ∧
      (bind parsed.program).run ⟨t.resetToRoot, []⟩ = .ok ((bound, order), s) ∧
      (∃ id v, s.table.var? id = some v ∧ v.type = none) ∧
      analyze t parsed.program = .ok analyzed ∧ analyzed.problems = [] ∧
      ∀ given, (typeProgram bound order).run ⟨s.table.assuming given, s.problems⟩ =
      (typeProgram bound order).run s := by
  obtain ⟨t, parsed, bound, order, s, _, analyzed, initial, read, binds, _, _, ran, _, _, alike⟩ :=
    typed_before_read [] laterGlobal
  have silent := analyzed_of_compilesQuietly (by decide +kernel) initial read ran
  have untyped : (bindsUntyped laterGlobal).toOption = some true := by decide +kernel
  simp only [bindsUntyped, initial, read, binds, ok_bind, pure_eq_ok, Except.toOption,
    Option.some.injEq, Array.any_eq_true, Option.any_eq_true, Option.isNone_iff_eq_none] at untyped
  obtain ⟨i, below, v, isVar, none⟩ := untyped
  refine ⟨t, parsed, bound, order, s, analyzed, initial, read, binds, ⟨⟨i⟩, v, ?_, none⟩, ran, silent,
    alike (by simp [silent])⟩
  rw [Table.var_of (Array.getElem?_eq_getElem below), isVar]

end Quasicode
