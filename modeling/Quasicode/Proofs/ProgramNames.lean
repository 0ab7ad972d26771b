import Quasicode.Proofs.GlobalReferences
import Quasicode.Proofs.MemberNames

/-!
Names in whole programs. The items are bound one after the other, each while the fields of the classes that come later
cannot be read. A variable that has no type yet when the program is bound lies at the top level or in a body, never in a
class, and a definition of a global reads nothing but variables that have a type and globals of the program.
-/
namespace Quasicode

open Analysis
open Binding (Spot)

variable {item item' : Item} {t : Table}

/-! ## Items -/

theorem Item.Kin.ofLike (like : item.Like item') : item.Kin item' := by
  unfold Item.Like at like
  split at like
  · trivial
  · trivial
  · subst like
    cases item with
    | cls c => exact Class.Kin.refl c
    | function f => exact Function.Kin.refl f
    | stmt => trivial

theorem Item.Like.told (like : item.Like item') (told : Binding.ItemTold t item) : Binding.ItemTold t item' := by
  unfold Item.Like at like
  split at like
  · trivial
  · trivial
  · exact like ▸ told

theorem Item.Like.classSymbol (like : item.Like item') : item'.classSymbol = item.classSymbol := by
  unfold Item.Like at like
  split at like
  · rfl
  · rfl
  · rw [like]

/-- An item whose names are bound; the fields in `waiting` cannot be read there. -/
def Item.Bound (t : Table) (waiting : SymbolId → Prop) : Item → Prop :=
  Item.Are (·.Bound t waiting) (·.Bound t ⟨.root, .function, fun _ => False⟩) (·.Holds (.bound t .outside))

/-- Items that are bound one after the other: no item reads a field of a class that comes later. -/
def boundInTurn (t : Table) : List Item → Prop
  | [] => True
  | item :: items => item.Bound t (fun id => ∃ later ∈ items, later.Owns id) ∧ boundInTurn t items

section Mono

variable {t t' : Table} (stays : t.Stays t')
variable {waiting : SymbolId → Prop}
include stays

theorem Class.Bound.mono {c : Class} (isBound : c.Bound t waiting) : c.Bound t' waiting :=
  ⟨fun scope isScope f inside e same => (isBound.fields scope isScope f inside e same).mono
    fun _ isBound => isBound.mono stays,
    fun scope isScope m inside => (isBound.methods scope isScope m inside).mono stays⟩

theorem Item.Bound.mono (isBound : item.Bound t waiting) : item.Bound t' waiting :=
  Item.Are.mono isBound (fun _ isBound => isBound.mono stays) (fun _ isBound => isBound.mono stays)
    fun _ isBound => isBound.mono (Checks.bound_mono stays)

end Mono

namespace Binding

variable {bound : Nat} {t t' : Table}

/-- What declarations guarantee of the classes among the items: their fields lie in their
scopes, and no two of them share a symbol. -/
structure Homes (t : Table) (items : List Item) : Prop where
  home : t.FieldsHome
  housed : ∀ c, Item.cls c ∈ items → c.Housed t
  lies : ∀ c, Item.cls c ∈ items → ∀ id, c.Owns id → t.Pending id ∧ ∃ s, t.symbol? id = some s ∧ c.scope = some s.scope
  apart : (items.filterMap Item.classSymbol).Nodup

theorem Homes.tail {item : Item} {items : List Item} (homes : Homes t (item :: items)) : Homes t items :=
  ⟨homes.home, fun c inside => homes.housed c (List.mem_cons_of_mem _ inside),
    fun c inside => homes.lies c (List.mem_cons_of_mem _ inside),
    homes.apart.sublist ((List.sublist_cons_self item items).filterMap _)⟩

/-- Later classes have other scopes. -/
theorem Homes.scope_ne {c d : Class} {items : List Item} {scope : ScopeId} (homes : Homes t (.cls c :: items))
    (intact : t.Intact bound) (inside : Item.cls d ∈ items) (here : c.scope = some scope) : d.scope ≠ some scope := by
  intro there
  rcases homes.housed c List.mem_cons_self with ⟨_, none⟩ | ⟨i, k, isSymbol, held, own⟩
  · cases here.symm.trans none
  rcases homes.housed d (List.mem_cons_of_mem _ inside) with ⟨_, none⟩ | ⟨j, k', isSymbol', held', own'⟩
  · cases there.symm.trans none
  have same : k.scope = k'.scope := by
    rw [here] at own
    rw [there] at own'
    exact Option.some.inj (own.symm.trans own')
  cases intact.arranged.apart held held' same
  have apart := homes.apart
  rw [List.filterMap_cons_some (show (Item.cls c).classSymbol = some i from isSymbol), List.nodup_cons,
    List.mem_filterMap] at apart
  exact apart.1 ⟨.cls d, inside, isSymbol'⟩

/-- What an item opens: the variables in the scope of its class. -/
def Opened (t : Table) (item : Item) (id : SymbolId) : Prop :=
  ∃ c s, item = .cls c ∧ t.symbol? id = some s ∧ c.scope = some s.scope

theorem Homes.closed {item : Item} {items : List Item} {id : SymbolId} (homes : Homes t (item :: items))
    (intact : t.Intact bound) (owned : ∃ later ∈ items, later.Owns id) : ¬ Opened t item id := by
  rintro ⟨c, s, rfl, held, here⟩
  obtain ⟨later, inside, owns⟩ := owned
  cases later with
  | cls d =>
    obtain ⟨_, s', held', there⟩ := homes.lies d (List.mem_cons_of_mem _ inside) id owns
    cases held.symm.trans held'
    exact homes.scope_ne intact inside here there
  | _ => exact owns

/-! ## Globals -/

/-- Declaring the globals leaves other variables what they are. -/
theorem Claims.moves (claims : Table.Claims bound t t') : t.Moves (fun _ => False) t' := by
  have kept {id s} (held : t.symbol? id = some s) : t'.symbol? id = some s :=
    (claims.old (Table.symbol_bound held)).trans held
  refine ⟨claims.persists.scopes, .added kept fun new held => ?_, fun held _ _ => kept held,
    fun {id s v} held isVar none => ?_⟩
  · obtain ⟨site, kind, _⟩ := claims.new new held
    simp [Symbol.var?, kind, SymbolKind.var?]
  · by_cases old : id.index < t.symbols.size
    · exact .inl ⟨s, v, (claims.old old).symm.trans held, isVar, none, rfl⟩
    · obtain ⟨_, _, isRoot⟩ := claims.new (Nat.not_lt.mp old) held
      exact .inr (.inl isRoot)

/-- Ordering the globals changes nothing of other variables. -/
theorem Recolors.moves (recolors : Table.Recolors t t') : t.Moves t.IsGlobal t' := by
  refine ⟨Nat.le_of_eq (congrArg Array.size recolors.scopes.symm), fun id => ?_, fun {id s v} held isVar other => ?_,
    fun {id s v} held isVar none => ?_⟩
  · obtain ⟨status, same⟩ := recolors.symbols id
    rw [Table.member?, Table.member?, same]
    cases t.symbol? id with
    | none => rfl
    | some s => exact Symbol.member_variable _ s
  · rw [recolors.others id other, held]
  · obtain ⟨s', status, held', rfl⟩ := recolors.symbol held
    left
    obtain ⟨v', isVar', none'⟩ : ∃ v', s'.var? = some v' ∧ v'.type = .none := by
      unfold Symbol.var? at isVar ⊢
      cases kind : s'.kind with
      | «variable» w | globalVariable w =>
        rw [Symbol.mapKind, kind] at isVar
        cases isVar
        exact ⟨w, rfl, none⟩
      | _ => simp [Symbol.mapKind, kind, SymbolKind.mapVariable, SymbolKind.var?] at isVar
    exact ⟨s', v', held', isVar', none', rfl⟩

end Binding

/-! ## Whole programs -/

namespace Table

variable {bound : Nat} {t t' : Table}

theorem FieldsHome.kept (home : t.FieldsHome) (persists : t.Persists t')
    (classes : ∀ id, t'.class? id = t.class? id) : t'.FieldsHome := by
  intro id k held j inside
  obtain ⟨s, found, scope⟩ := home id k (classes id ▸ held) j inside
  obtain ⟨kind, found', _⟩ := persists.symbols found
  exact ⟨_, found', scope⟩

theorem Moves.untypedApart {opened : SymbolId → Prop} (moves : t.Moves opened t') (typed : t.Typed 0 t.symbols.size)
    (intact : t.Intact bound) (intact' : t'.Intact bound) : t'.UntypedApart := by
  intro id s v cls k held isVar none isClass same
  rcases moves.untyped held isVar none with ⟨s', v', held', isVar', none', _⟩ | isRoot | new
  · have isTyped := typed id v' (Nat.zero_le _) (symbol_bound held') (by rw [var_of held', isVar'])
    simp [none'] at isTyped
  · exact intact'.arranged.inner isClass (same ▸ isRoot)
  · rw [moves.classes] at isClass
    exact absurd (intact.sound.class_sound isClass).scope (Nat.not_lt.mpr (same ▸ new))

end Table

/-! ## Declarations -/

/-- What was declared is still there: variables, functions and classes are what they were, and
no variable has lost its type. -/
structure Table.Carries (t t' : Table) : Prop where
  vars : ∀ {id s v}, t.symbol? id = some s → s.var? = some v → ∃ s' v', t'.symbol? id = some s' ∧ s'.var? = some v' ∧
    s'.scope = s.scope ∧ v'.kind = v.kind ∧ v'.visibility = v.visibility ∧ (v.type.isSome → v'.type.isSome)
  functions : ∀ {id s g}, t.symbol? id = some s → s.function? = some g → ∃ s', t'.symbol? id = some s' ∧
    s'.function? = some g
  classes : ∀ id, t'.class? id = t.class? id

theorem Table.Persists.carries {t' : Table} (persists : t.Persists t')
    (classes : ∀ id, t'.class? id = t.class? id) : t.Carries t' := by
  refine ⟨fun {id s v} held isVar => ?_, fun {id s g} held isFunction => ?_, classes⟩
  · obtain ⟨s', v', held', isVar', scope, kind, visibility⟩ := persists.vars held isVar
    refine ⟨s', v', held', isVar', scope, kind, visibility, fun typed => ?_⟩
    obtain ⟨w, isVar'', type, _⟩ := persists.var_old (symbol_bound held) ((var_of held').trans isVar')
    cases ((var_of held).trans isVar).symm.trans isVar''
    rwa [← type]
  · obtain ⟨kind, held', core⟩ := persists.symbols held
    have functions := congrArg SymbolKind.function? core
    rw [SymbolKind.function_core, SymbolKind.function_core] at functions
    exact ⟨_, held', functions.trans isFunction⟩

/-- A field is what it is written to be, in the scope of its class, and has a type. -/
def Field.Registered (t : Table) (scope : Option ScopeId) (f : Field) : Prop := ∀ id, f.symbol = some id →
  ∃ s v, t.symbol? id = some s ∧ s.var? = some v ∧ scope = some s.scope ∧
    v.kind = (if f.isStatic then .staticField else .instanceField) ∧ v.visibility = f.visibility ∧ v.type.isSome

/-- A class has its scope and its fields, and its methods have the numbers of parameters that
they were declared with. -/
structure Class.Registered (t : Table) (c : Class) : Prop where
  housed : c.Housed t
  fields : ∀ f ∈ c.fields, f.Registered t c.scope
  methods : ∀ m ∈ c.methods, m.function.Sized t

/-- The declarations of a program are in the table. -/
def Item.Registered (t : Table) : Item → Prop := Item.Are (·.Registered t) (·.Sized t) fun _ => True

theorem Binding.ItemTold.registered (told : ItemTold t item) (typed : t.Typed 0 t.symbols.size) :
    item.Registered t := by
  refine Item.Are.mono told (fun c told => ⟨told.housed, fun f inside id same => ?_, told.methods⟩)
    (fun _ sized => sized) fun _ known => known
  obtain ⟨s, v, held, isVar, scope, kind, visibility, _⟩ := told.fields f inside id same
  exact ⟨s, v, held, isVar, scope, kind, visibility, typed id v (Nat.zero_le _) (Table.symbol_bound held)
    ((Table.var_of held).trans isVar)⟩

section Kept

variable {t t' : Table} (carries : t.Carries t')
include carries

omit carries in
theorem Function.requiredParams_eq (f : Function) :
    Binding.requiredParams f.params = (f.defaults.takeWhile id).length := by
  rw [Function.defaults, List.takeWhile_map, List.length_map]
  rfl

theorem Function.Sized.kept {f f' : Function} (sized : f.Sized t) (kin : f.Kin f') : f'.Sized t' := by
  intro id same
  obtain ⟨s, g, held, isFunction, least, most, all⟩ := sized id (kin.symbol ▸ same)
  obtain ⟨s', held', isFunction'⟩ := carries.functions held isFunction
  have length : f'.params.length = f.params.length := by
    have lengths := congrArg List.length kin.defaults
    simpa [Function.defaults] using lengths
  have required : Binding.requiredParams f'.params = Binding.requiredParams f.params := by
    rw [Function.requiredParams_eq, Function.requiredParams_eq, kin.defaults]
  exact ⟨s', g, held', isFunction', required ▸ least, length ▸ most, length ▸ all⟩

theorem Field.Registered.kept {f f' : Field} {scope : Option ScopeId} (registered : f.Registered t scope)
    (kin : f.Kin f') :
    f'.Registered t' scope := by
  intro id same
  rw [kin] at same ⊢
  obtain ⟨s, v, held, isVar, inside, kind, visibility, typed⟩ := registered id same
  obtain ⟨s', v', held', isVar', scope', kind', visibility', typed'⟩ := carries.vars held isVar
  exact ⟨s', v', held', isVar', scope' ▸ inside, kind'.trans kind, visibility'.trans visibility, typed' typed⟩

omit carries in
theorem Class.Housed.kept {c c' : Class} (housed : c.Housed t) (classes : ∀ id, t'.class? id = t.class? id)
    (symbol : c'.symbol = c.symbol) (scope : c'.scope = c.scope) : c'.Housed t' := by
  unfold Class.Housed
  rw [symbol, scope]
  simp only [classes]
  exact housed

theorem Class.Registered.kept {c c' : Class} (registered : c.Registered t) (kin : c.Kin c') : c'.Registered t' := by
  refine ⟨registered.housed.kept carries.classes kin.symbol kin.scope, ?_, ?_⟩
  · have fields := (List.forall₂_and_left (p := fun f : Field => f.Registered t c.scope) _ _).mpr
      ⟨registered.fields, kin.fields⟩
    exact kin.scope ▸ forall_right fields fun f f' ⟨registered, kin⟩ => registered.kept carries kin
  · have methods := (List.forall₂_and_left (p := fun m : Method => m.function.Sized t) _ _).mpr
      ⟨registered.methods, kin.methods⟩
    exact forall_right methods fun m m' ⟨sized, kin⟩ => sized.kept carries kin.function

theorem Item.Registered.kept {item item' : Item} (registered : item.Registered t)
    (kin : item.Kin item') : item'.Registered t' := by
  cases item <;> cases item' <;> try exact kin.elim
  · exact Class.Registered.kept carries registered kin
  · exact Function.Sized.kept carries registered kin
  · trivial

end Kept

/-- The definition of a global reads globals of the program and variables that have types. -/
structure Assignment.Grounded (t : Table) (order : List SymbolId) (a : Assignment) : Prop where
  outside : a.Outside
  reads : ∀ r ∈ a.reads, r.1 ∈ order ∨ t.HasType r.1

namespace Program

def assignments (program : Program) : List Assignment := program.items.flatMap Item.assignments

/-- What binding makes of the names of a program. -/
structure Names (t : Table) (program : Program) (order : List SymbolId) : Prop where
  apart : t.UntypedApart
  grounded : ∀ a ∈ program.assignments, a.declares ≠ [] → a.Grounded t order
  registered : ∀ item ∈ program.items, item.Registered t

end Program

end Quasicode
