import Quasicode.Binding.Program
import Quasicode.Proofs.MemberFrame
import Quasicode.Proofs.NamesInSight

/-!
The names in the bodies of functions and classes. Each body is begun in the table that the ones before it leave. The
initializers of a class are bound while none of its fields can be read, and its methods after all of them have been made
available, so a field is read in its class only by methods.
-/
namespace Quasicode

open Relation Analysis
open Binding (Spot BodyKind requiredParams methodBody)

namespace Table

variable {base bound : Nat} {t t' t'' : Table} {id : SymbolId} {scope : ScopeId} {name : String} {span : Span}
  {kind : SymbolKind} {s : Symbol} {opened : SymbolId → Prop}

/-- Symbols that are added are variables. -/
theorem SameMembers.added (symbols : ∀ {id s}, t.symbol? id = some s → t'.symbol? id = some s)
    (new : ∀ {id s}, t.symbols.size ≤ id.index → t'.symbol? id = some s → s.var?.isSome) : SameMembers t t' := by
  intro id
  unfold member?
  by_cases old : id.index < t.symbols.size
  · obtain ⟨s, held⟩ := symbol_exists old
    rw [held, symbols held]
  · have absent : t.symbol? id = none := Option.eq_none_iff_forall_ne_some.mpr fun s held => old (symbol_bound held)
    rw [absent]
    cases held : t'.symbol? id with
    | none => rfl
    | some s =>
      have isVar := new (Nat.not_lt.mp old) held
      unfold Symbol.var? at isVar
      cases kind : s.kind <;> simp [Symbol.member?, kind, SymbolKind.var?] at isVar ⊢

/-- Classes and methods are left as they are, and so are variables but for those that are opened; a new variable without
a type lies in the root scope or in a new scope. -/
structure Moves (opened : SymbolId → Prop) (t t' : Table) : Prop where
  scopes : t.scopes.size ≤ t'.scopes.size
  members : t.SameMembers t'
  kept : ∀ {id s v}, t.symbol? id = some s → s.var? = some v → ¬ opened id → t'.symbol? id = some s
  untyped : ∀ {id s v}, t'.symbol? id = some s → s.var? = some v → v.type = none →
    (∃ s' v', t.symbol? id = some s' ∧ s'.var? = some v' ∧ v'.type = none ∧ s'.scope = s.scope) ∨
      s.scope = .root ∨ t.scopes.size ≤ s.scope.index

namespace Moves

theorem refl (t : Table) : Moves opened t t :=
  ⟨Nat.le_refl _, .refl t, fun held _ _ => held, fun held isVar none => .inl ⟨_, _, held, isVar, none, rfl⟩⟩

theorem classes (moves : Moves opened t t') (id : SymbolId) : t'.class? id = t.class? id := moves.members.class_same id

theorem trans (first : Moves opened t t') (second : Moves opened t' t'') : Moves opened t t'' := by
  refine ⟨Nat.le_trans first.scopes second.scopes, first.members.trans second.members, fun held isVar closed => ?_,
    fun held isVar none => ?_⟩
  · exact second.kept (first.kept held isVar closed) isVar closed
  · rcases second.untyped held isVar none with ⟨s', v', held', isVar', none', scope⟩ | isRoot | new
    · rcases first.untyped held' isVar' none' with ⟨s'', v'', held'', isVar'', none'', scope'⟩ | outside
      · exact .inl ⟨s'', v'', held'', isVar'', none'', scope'.trans scope⟩
      · exact .inr (scope ▸ outside)
    · exact .inr (.inl isRoot)
    · exact .inr (.inr (Nat.le_trans first.scopes new))

theorem mono {opened' : SymbolId → Prop} (moves : Moves opened t t') (implies : ∀ id, opened id → opened' id) :
    Moves opened' t t' :=
  ⟨moves.scopes, moves.members, fun held isVar closed => moves.kept held isVar
    fun isOpen => closed (implies _ isOpen), moves.untyped⟩

theorem ofGains (gains : Gains t.scopes.size t t') : Moves opened t t' := by
  refine ⟨gains.scopes, .added gains.symbols fun new held => ?_, fun held _ _ => gains.symbols held,
    fun {id s v} held isVar none => ?_⟩
  · obtain ⟨v, isVar, _⟩ := gains.added held new
    simp [isVar]
  by_cases old : id.index < t.symbols.size
  · obtain ⟨s', held'⟩ := symbol_exists old
    cases (gains.symbols held').symm.trans held
    exact .inl ⟨s, v, held', isVar, none, rfl⟩
  · obtain ⟨v', isVar', _, apart⟩ := gains.added held (Nat.not_lt.mp old)
    cases isVar'.symm.trans isVar
    exact .inr (apart none)

/-- A variable that is declared and gets no type at once is declared at the top level. -/
theorem declare (adds : Adds scope name span kind t t') (isVariable : kind.var?.isSome)
    (apart : ∀ v, kind.var? = some v → v.type = none → scope = .root) : Moves opened t t' := by
  have old {id s} (held : t.symbol? id = some s) : t'.symbol? id = some s := by
    rw [adds.declares.symbol_old (by simp [held]), held]
  refine ⟨Nat.le_of_eq adds.declares.scopes.symm, .added old fun new held => ?_, fun held _ _ => old held,
    fun {id s v} held isVar none => ?_⟩
  · rw [adds.declares.symbol] at held
    split at held
    · cases held
      cases kind with
      | cls => cases isVariable
      | _ => exact isVariable
    · exact absurd (symbol_bound held) (Nat.not_lt.mpr new)
  · rw [adds.declares.symbol] at held
    split at held
    · cases held
      refine .inr (.inl (apart v ?_ none))
      cases kind with
      | cls => cases isVariable
      | _ => exact isVar
    · exact .inl ⟨s, v, held, isVar, none, rfl⟩

/-- A change that leaves variables what they are. -/
theorem edit {f : SymbolKind → SymbolKind} (others : ¬ opened id → ∀ {kind}, kind.var?.isSome → f kind = kind)
    (types : ∀ kind, (f kind).var?.map VariableSymbol.type = kind.var?.map VariableSymbol.type)
    (members : ∀ s : Symbol, (s.mapKind f).member? = s.member?) : Moves opened t (t.edit id f) := by
  refine ⟨Nat.le_refl _, .edit members, fun {j s v} held isVar closed => ?_, fun {j s v} held isVar none => ?_⟩
  · rw [edit_symbol?, held, Option.map_some]
    split
    next same =>
      subst same
      rw [Symbol.mapKind, others closed (by rw [show s.kind.var? = some v from isVar]; rfl)]
    next => rfl
  · rw [edit_symbol?] at held
    obtain ⟨s', held', rfl⟩ := Option.map_eq_some_iff.mp held
    left
    split at isVar
    · have same := types s'.kind
      rw [show (f s'.kind).var? = some v from isVar, Option.map_some, none] at same
      obtain ⟨v', isVar', none'⟩ := Option.map_eq_some_iff.mp same.symm
      exact ⟨s', v', held', isVar', none', by split <;> rfl⟩
    · exact ⟨s', v, held', isVar, none, by split <;> rfl⟩

theorem pending (moves : Moves opened t t') (closed : ¬ opened id) (pending : t.Pending id) : t'.Pending id := by
  obtain ⟨s, v, held, isVar, status⟩ := pending
  exact ⟨s, v, moves.kept held isVar closed, isVar, status⟩

end Moves

end Table

/-! ## Functions -/

/-- The defaults of a function and its statements are bound. -/
structure Function.Bound (t : Table) (spot : Spot) (f : Function) : Prop where
  params : ∀ p ∈ f.params, ∀ e, p.default = some e → e.All (Expr.Bound t spot)
  body : holdsInAll (.bound t spot) f.body

theorem Function.Bound.mono {t t' : Table} {spot : Spot} {f : Function} (stays : t.Stays t')
    (isBound : f.Bound t spot) : f.Bound t' spot :=
  ⟨fun p inside e same => (isBound.params p inside e same).mono fun _ isBound => isBound.mono stays,
    holdsInAll_mono (Checks.bound_mono stays) isBound.body⟩

/-- The parameters that have a default. -/
def Function.defaults (f : Function) : List Bool := f.params.map fun p => p.default.isNone

/-- A function of which more is known has the same symbol and the same parameters. -/
structure Function.Kin (f f' : Function) : Prop where
  name : f'.name = f.name
  symbol : f'.symbol = f.symbol
  defaults : f'.defaults = f.defaults

theorem Function.Kin.refl (f : Function) : f.Kin f := ⟨rfl, rfl, rfl⟩

structure Method.Kin (m m' : Method) : Prop where
  function : m.function.Kin m'.function
  staticSpan : m'.staticSpan = m.staticSpan

theorem Method.Kin.body {m m' : Method} {className : String} (kin : m.Kin m') :
    methodBody className m' = methodBody className m := by
  unfold methodBody
  rw [kin.function.name, Method.isStatic, kin.staticSpan]
  rfl

/-- A method of a class is bound; no constructor is static. -/
structure Method.Bound (t : Table) (className : String) (scope : ScopeId) (waiting : SymbolId → Prop)
    (m : Method) : Prop where
  function : m.function.Bound t ⟨scope, methodBody className m, waiting⟩
  static : m.isStatic → methodBody className m = .staticMethod

theorem Method.Bound.mono {t t' : Table} {className : String} {scope : ScopeId} {waiting : SymbolId → Prop}
    {m : Method} (stays : t.Stays t')
    (isBound : m.Bound t className scope waiting) : m.Bound t' className scope waiting :=
  ⟨isBound.function.mono stays, isBound.static⟩

/-- The class declares the field `id`. -/
def Class.Owns (c : Class) (id : SymbolId) : Prop := some id ∈ c.fields.map Field.symbol

/-- The field is the same but for its initializer. -/
def Field.Kin (f f' : Field) : Prop := f' = { f with initializer := f'.initializer }

structure Class.Kin (c c' : Class) : Prop where
  symbol : c'.symbol = c.symbol
  scope : c'.scope = c.scope
  fields : List.Forall₂ Field.Kin c.fields c'.fields
  methods : List.Forall₂ Method.Kin c.methods c'.methods

theorem Class.Kin.refl (c : Class) : c.Kin c :=
  ⟨rfl, rfl, List.forall₂_same.mpr fun _ _ => rfl, List.forall₂_same.mpr fun m _ => ⟨.refl m.function, rfl⟩⟩

theorem Class.Kin.owns {c c' : Class} (kin : c.Kin c') : c'.Owns = c.Owns := by
  have symbols : List.Forall₂ (fun f f' : Field => f.symbol = f'.symbol) c.fields c'.fields :=
    kin.fields.imp fun _ _ same => (congrArg Field.symbol same).symm
  have maps := List.forall₂_map_left_iff.mpr (List.forall₂_map_right_iff.mpr symbols)
  rw [List.forall₂_eq_eq_eq] at maps
  exact funext fun id => by rw [Class.Owns, Class.Owns, maps]

/-- The members of a class are bound. Its initializers read none of its fields. -/
structure Class.Bound (t : Table) (waiting : SymbolId → Prop) (c : Class) : Prop where
  fields : ∀ scope, c.scope = some scope → ∀ f ∈ c.fields, ∀ e, f.initializer = some e →
    e.All (Expr.Bound t ⟨scope, .topLevel, fun id => waiting id ∨ c.Owns id⟩)
  methods : ∀ scope, c.scope = some scope → ∀ m ∈ c.methods, m.Bound t c.name.name scope waiting

/-! ## Items -/

/-- The item is the class that declares the field `id`. -/
def Item.Owns (item : Item) (id : SymbolId) : Prop := item.Are (·.Owns id) (fun _ => False) fun _ => False

/-- An item of which more is known declares the same. -/
def Item.Kin : Item → Item → Prop
  | .cls c, .cls c' => c.Kin c'
  | .function f, .function f' => f.Kin f'
  | .stmt _, .stmt _ => True
  | _, _ => False

theorem Item.Kin.owns {item item' : Item} (kin : item.Kin item') (id : SymbolId) : item'.Owns id ↔ item.Owns id := by
  cases item <;> cases item' <;> try exact kin.elim
  next c c' => simp only [Item.Owns, Item.Are, Class.Kin.owns kin]
  · rfl
  · rfl

theorem Item.Kin.owners {items items' : List Item} (kins : List.Forall₂ Item.Kin items items') (id : SymbolId) :
    (∃ item ∈ items', item.Owns id) ↔ ∃ item ∈ items, item.Owns id := by
  induction kins with
  | nil => simp
  | cons kin _ ih => simp only [List.mem_cons, exists_eq_or_imp, kin.owns, ih]

end Quasicode
