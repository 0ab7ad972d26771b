import Quasicode.Proofs.DispatchTables
import Quasicode.Proofs.MangledKeys
import Quasicode.Proofs.TableScopes

/-!
Tables while classes and functions are being declared. Every class stands in the root scope under the key of its name,
unlinked, with a scope and a number of its own; every method stands in the scope of its class under a key that spells
out the types of its parameters. A declared method is listed by its class, except for the moment in between.
-/
namespace Quasicode

open Hierarchy

theorem Ty.spelled_mono {known known' : String → SymbolId → Prop} {a : Ty}
    (implies : ∀ {name id}, known name id → known' name id) (spelled : a.Spelled known) : a.Spelled known' := by
  induction a with
  | array element ih => exact ih spelled
  | ofClass name id => exact implies spelled
  | _ => trivial

/-- Where an id has one name, equal types are one type. -/
theorem Ty.eq_of_same {known : String → SymbolId → Prop}
    (functional : ∀ {name name' id}, known name id → known name' id → name = name') {a b : Ty}
    (spelled : a.Spelled known) (spelled' : b.Spelled known) (same : a == b) : a = b := by
  induction a generalizing b with
  | array element ih =>
    cases b with
    | array other => rw [@ih other spelled spelled' same]
    | _ => cases same
  | ofClass name id =>
    cases b with
    | ofClass name' id' =>
      obtain rfl : id = id' := beq_iff_eq.mp same
      rw [functional spelled spelled']
    | _ => cases same
  | _ =>
    cases b with
    | array other => cases same
    | ofClass name id => cases same
    | _ => first | rfl | cases same

@[simp] theorem SymbolKind.class_mapClass (f : ClassSymbol → ClassSymbol) (kind : SymbolKind) :
    (kind.mapClass f).class? = kind.class?.map f := by
  cases kind <;> rfl

@[simp] theorem SymbolKind.method_mapClass (f : ClassSymbol → ClassSymbol) (kind : SymbolKind) :
    (kind.mapClass f).method? = kind.method? := by
  cases kind <;> rfl

/-- A class without its members. -/
def ClassSymbol.core (k : ClassSymbol) : ClassSymbol := { k with methods := [], fields := [] }

theorem ClassSymbol.of_core {k k' : ClassSymbol} (same : k'.core = k.core) :
    ∃ methods fields, k' = { k with methods, fields } := by
  refine ⟨k'.methods, k'.fields, ?_⟩
  cases k
  cases k'
  simpa [ClassSymbol.core] using same

/-- A change of overload sets leaves every class and every method as it is. -/
theorem Symbol.map_overloads (f : OverloadSet → OverloadSet) (s : Symbol) :
    s.mapKind (SymbolKind.mapOverloads f) = s ∨ (s.mapKind (SymbolKind.mapOverloads f)).class? = none ∧
      (s.mapKind (SymbolKind.mapOverloads f)).method? = none ∧ s.class? = none ∧ s.method? = none := by
  obtain ⟨id, name, span, scope, kind⟩ := s
  cases kind with
  | overloads set => exact .inr ⟨rfl, rfl, rfl, rfl⟩
  | _ => exact .inl rfl

namespace Table

variable {t t' : Table} {id j cls : SymbolId} {scope : ScopeId} {name : String} {span : Span} {kind : SymbolKind}
  {pending : Option SymbolId} {s : Symbol} {k : ClassSymbol} {m : MethodSymbol}

/-- The class of an id has the given name. -/
def Known (t : Table) (name : String) (id : SymbolId) : Prop := ∃ k, t.class? id = some k ∧ k.displayName = name

/-- A class as it is declared. -/
structure ClassDeclared (t : Table) (id : SymbolId) (s : Symbol) (k : ClassSymbol) : Prop where
  place : s.scope = .root
  key : s.name = classKey k.displayName
  named : IsName k.displayName
  unlinked : k.upper = none ∧ k.children = [] ∧ k.depth = none
  numbered : 1 ≤ k.runtimeId ∧ k.runtimeId ≤ t.classCount
  ownScope : k.scope ≠ .root ∧ k.scope.index < t.scopes.size
  methods : ∀ m ∈ k.methods, ∃ sm method, t.symbol? m = some sm ∧ sm.method? = some method ∧ method.owner = id ∧
    sm.scope = k.scope

/-- A method as it is declared under a key. -/
structure MethodDeclared (t : Table) (key : String) (m : MethodSymbol) : Prop where
  bare : m.overriders = []
  key : ∃ name, IsName name ∧ key = functionKey name m.function.params
  params : ∀ p ∈ m.function.params, p.Spelled t.Known
  returns : m.function.returns.Spelled t.Known

/-- All classes and methods are as they are declared; the method `pending` is not listed by its class yet. -/
structure Declared (pending : Option SymbolId) (t : Table) : Prop where
  well : t.WellScoped
  rooted : 0 < t.scopes.size
  classes : ∀ {id s k}, t.symbol? id = some s → s.class? = some k → ClassDeclared t id s k
  methods : ∀ {id s m}, t.symbol? id = some s → s.method? = some m → MethodDeclared t s.name m
  distinct : ∀ {id id' k k'}, t.class? id = some k → t.class? id' = some k' → k.runtimeId = k'.runtimeId → id = id'
  listed : ∀ {m method}, t.method? m = some method → m ∈ t.methodsOf method.owner ∨ pending = some m

/-! ## What no declaration changes -/

/-- Between `t` and `t'` there may be more of everything, but no method has changed, and no class its name, its scope
or a method. -/
structure Grows (t t' : Table) : Prop where
  classCount : t.classCount ≤ t'.classCount
  scopes : t.scopes.size ≤ t'.scopes.size
  methods : ∀ {id s m}, t.symbol? id = some s → s.method? = some m → t'.symbol? id = some s
  classes : ∀ {id k}, t.class? id = some k → ∃ k', t'.class? id = some k' ∧ k'.displayName = k.displayName ∧
    k'.scope = k.scope ∧ ∀ m ∈ k.methods, m ∈ k'.methods

namespace Grows

theorem refl (t : Table) : Grows t t :=
  ⟨Nat.le_refl _, Nat.le_refl _, fun held _ => held, fun held => ⟨_, held, rfl, rfl, fun _ inside => inside⟩⟩

theorem trans {t'' : Table} (first : Grows t t') (second : Grows t' t'') : Grows t t'' := by
  refine ⟨first.classCount.trans second.classCount, first.scopes.trans second.scopes,
    fun held isMethod => second.methods (first.methods held isMethod) isMethod, fun held => ?_⟩
  obtain ⟨k', held', name', scope', methods'⟩ := first.classes held
  obtain ⟨k'', held'', name'', scope'', methods''⟩ := second.classes held'
  exact ⟨k'', held'', name''.trans name', scope''.trans scope', fun m inside => methods'' m (methods' m inside)⟩

variable (grows : Grows t t')
include grows

theorem known {name : String} (known : t.Known name id) : t'.Known name id := by
  obtain ⟨k, held, rfl⟩ := known
  obtain ⟨k', held', same, _⟩ := grows.classes held
  exact ⟨k', held', same⟩

theorem methodsOf {x : SymbolId} (inside : x ∈ t.methodsOf id) : x ∈ t'.methodsOf id := by
  unfold Table.methodsOf at inside ⊢
  cases held : t.class? id with
  | none => simp [held] at inside
  | some k =>
    obtain ⟨k', held', _, _, methods⟩ := grows.classes held
    simp only [held, Option.map_some, Option.getD_some] at inside
    simpa [held'] using methods x inside

theorem classDeclared (declared : ClassDeclared t id s k) : ClassDeclared t' id s k := by
  refine ⟨declared.place, declared.key, declared.named, declared.unlinked,
    ⟨declared.numbered.1, declared.numbered.2.trans grows.classCount⟩,
    ⟨declared.ownScope.1, Nat.lt_of_lt_of_le declared.ownScope.2 grows.scopes⟩, fun m inside => ?_⟩
  obtain ⟨sm, method, held, isMethod, rest⟩ := declared.methods m inside
  exact ⟨sm, method, grows.methods held isMethod, isMethod, rest⟩

theorem methodDeclared (declared : MethodDeclared t name m) : MethodDeclared t' name m :=
  ⟨declared.bare, declared.key, fun p inside => Ty.spelled_mono grows.known (declared.params p inside),
    Ty.spelled_mono grows.known declared.returns⟩

/-- A step that grows a table leaves it declared, if what it puts there is as it should be. -/
theorem declared {pending' : Option SymbolId} (declared : Declared pending t) (well : t'.WellScoped)
    (classes : ∀ {id s k}, t'.symbol? id = some s → s.class? = some k → t.symbol? id = some s ∨ ClassDeclared t' id s k)
    (methods : ∀ {id s m}, t'.symbol? id = some s → s.method? = some m → t.symbol? id = some s ∨
    MethodDeclared t' s.name m) (distinct : ∀ {id id' k k'}, t'.class? id = some k → t'.class? id' = some k' →
    k.runtimeId = k'.runtimeId → id = id')
    (listed : ∀ {m method}, t'.method? m = some method → m ∈ t'.methodsOf method.owner ∨ pending' = some m) :
    Declared pending' t' := by
  refine ⟨well, Nat.lt_of_lt_of_le declared.rooted grows.scopes, fun {id s k} held isClass => ?_,
    fun {id s m} held isMethod => ?_, distinct, listed⟩
  · rcases classes held isClass with old | new
    · exact grows.classDeclared (declared.classes old isClass)
    · exact new
  · rcases methods held isMethod with old | new
    · exact grows.methodDeclared (declared.methods old isMethod)
    · exact new

end Grows

/-! ## Declarations -/

namespace Declares

variable (declares : Declares scope name span kind id t t')
include declares

theorem class_eq (j : SymbolId) : t'.class? j =
    if j = id then kind.class?.map fun c => { c with runtimeId := t'.classCount } else t.class? j := by
  unfold class?
  rw [declares.symbol]
  split
  · simp [Symbol.class?]
  · rfl

theorem method_eq (j : SymbolId) : t'.method? j = if j = id then kind.method? else t.method? j := by
  unfold method?
  rw [declares.symbol]
  split
  · simp [Symbol.method?]
  · rfl

theorem class_old (held : t.class? j = some k) : t'.class? j = some k := by
  obtain ⟨s, found, isClass⟩ := class_symbol held
  rw [class?, declares.symbol_old (by simp [found]), found]
  exact isClass

theorem grows : Grows t t' := by
  refine ⟨?_, declares.scopes.ge, fun held _ => ?_,
    fun held => ⟨_, declares.class_old held, rfl, rfl, fun _ inside => inside⟩⟩
  · rw [declares.classCount]
    split <;> omega
  · rw [declares.symbol_old (by simp [held]), held]

theorem class_same (noClass : kind.class? = none) (j : SymbolId) : t'.class? j = t.class? j := by
  rw [declares.class_eq]
  split
  next same =>
    rw [noClass, class?, same, declares.fresh]
    rfl
  next => rfl

theorem method_same (noMethod : kind.method? = none) (j : SymbolId) : t'.method? j = t.method? j := by
  rw [declares.method_eq]
  split
  next same =>
    rw [noMethod, method?, same, declares.fresh]
    rfl
  next => rfl

/-- Of a symbol of the new table it is known what it is or that it has been there before. -/
theorem symbol_cases (held : t'.symbol? j = some s) : j = id ∧
    s = ⟨id, name, span, scope, kind.mapClass fun c => { c with runtimeId := t'.classCount }⟩ ∨
    t.symbol? j = some s := by
  rw [declares.symbol] at held
  split at held
  next same => exact .inl ⟨same, (Option.some.inj held).symm⟩
  next => exact .inr held

end Declares

namespace Declared

variable (declared : Declared pending t)
include declared

/-- Anything but a class or a method can be declared under a free key. -/
theorem declare_other (declares : Declares scope name span kind id t t') (free : t.lookupLocal scope name = .ok none)
    (noClass : kind.class? = none) (noMethod : kind.method? = none) : Declared pending t' := by
  have classSame (j : SymbolId) : t'.class? j = t.class? j := declares.class_same noClass j
  refine declares.grows.declared declared (declared.well.declare declares free) (fun {j s k} held isClass => ?_)
    (fun {j s m} held isMethod => ?_) (fun {j j' k k'} held held' => ?_) fun {m method} held => ?_
  · rcases declares.symbol_cases held with ⟨rfl, rfl⟩ | old
    · simp [Symbol.class?, noClass] at isClass
    · exact .inl old
  · rcases declares.symbol_cases held with ⟨rfl, rfl⟩ | old
    · simp [Symbol.method?, noMethod] at isMethod
    · exact .inl old
  · rw [classSame] at held held'
    exact declared.distinct held held'
  · rw [declares.method_same noMethod] at held
    exact (declared.listed held).imp_left declares.grows.methodsOf

/-- A class is declared under the key of its name, with a scope of its own. -/
theorem declare_class {c : ClassSymbol} (declares : Declares .root name span (.cls c) id t t')
    (key : name = classKey c.displayName) (free : t.lookupLocal .root name = .ok none) (named : IsName c.displayName)
    (unlinked : c.upper = none ∧ c.children = [] ∧ c.depth = none)
    (ownScope : c.scope ≠ .root ∧ c.scope.index < t.scopes.size) (bare : c.methods = []) : Declared pending t' := by
  have count : t'.classCount = t.classCount + 1 := declares.classCount
  have older {j : SymbolId} {k : ClassSymbol} (held : t.class? j = some k) : k.runtimeId < t'.classCount := by
    obtain ⟨s, found, isClass⟩ := class_symbol held
    have bound := (declared.classes found isClass).numbered.2
    omega
  refine declares.grows.declared declared (declared.well.declare declares free) (fun {j s k} held isClass => ?_)
    (fun {j s m} held isMethod => ?_) (fun {j j' k k'} held held' same => ?_) fun {m method} held => ?_
  · rcases declares.symbol_cases held with ⟨rfl, rfl⟩ | old
    · cases isClass
      refine .inr ⟨rfl, key, named, unlinked, ⟨by simp [count], Nat.le_refl _⟩, ⟨ownScope.1, ?_⟩, by simp [bare]⟩
      rw [declares.scopes]
      exact ownScope.2
    · exact .inl old
  · rcases declares.symbol_cases held with ⟨rfl, rfl⟩ | old
    · cases isMethod
    · exact .inl old
  · rw [declares.class_eq] at held held'
    split at held <;> split at held'
    next first second => exact first.trans second.symm
    next first second =>
      cases held
      have bound := older held'
      simp only at same
      omega
    next first second =>
      cases held'
      have bound := older held
      simp only at same
      omega
    next first second => exact declared.distinct held held' same
  · rw [declares.method_same rfl] at held
    exact (declared.listed held).imp_left declares.grows.methodsOf

end Declared

/-- A method is declared under a free key, and then waits to be listed by its class. -/
theorem Declared.declare_method {m : MethodSymbol} (declared : Declared none t)
    (declares : Declares scope name span (.method m) id t t') (free : t.lookupLocal scope name = .ok none)
    (isDeclared : MethodDeclared t name m) : Declared (some id) t' := by
  have classSame (j : SymbolId) : t'.class? j = t.class? j := declares.class_same rfl j
  refine declares.grows.declared declared (declared.well.declare declares free) (fun {j s k} held isClass => ?_)
    (fun {j s m} held isMethod => ?_) (fun {j j' k k'} held held' => ?_) fun {x method} held => ?_
  · rcases declares.symbol_cases held with ⟨rfl, rfl⟩ | old
    · cases isClass
    · exact .inl old
  · rcases declares.symbol_cases held with ⟨rfl, rfl⟩ | old
    · cases isMethod
      exact .inr (declares.grows.methodDeclared isDeclared)
    · exact .inl old
  · rw [classSame] at held held'
    exact declared.distinct held held'
  · rw [declares.method_eq] at held
    split at held
    next same => exact .inr (congrArg some same.symm)
    next =>
      rcases declared.listed held with listed | impossible
      · exact .inl (declares.grows.methodsOf listed)
      · cases impossible

/-! ## Changes -/

theorem createScope_grows (parent : ScopeId) : Grows t (t.createScope parent).2 :=
  ⟨Nat.le_refl _, by simp [Table.createScope], fun held _ => held,
    fun held => ⟨_, held, rfl, rfl, fun _ inside => inside⟩⟩

theorem Declared.createScope (declared : Declared pending t) (parent : ScopeId) :
    Declared pending (t.createScope parent).2 :=
  (createScope_grows parent).declared declared (declared.well.createScope parent) (fun held _ => .inl held)
    (fun held _ => .inl held) declared.distinct declared.listed

theorem Declared.resetToRoot (declared : Declared pending t) : Declared pending t.resetToRoot := by
  have grows : Grows t t.resetToRoot :=
    ⟨Nat.le_refl _, Nat.le_refl _, fun held _ => held, fun held => ⟨_, held, rfl, rfl, fun _ inside => inside⟩⟩
  exact grows.declared declared ⟨declared.well.numbered, declared.well.bound, declared.well.named⟩
    (fun held _ => .inl held) (fun held _ => .inl held) declared.distinct declared.listed

/-- A class whose key is free gets a new scope, in which nothing is declared yet. -/
theorem Declared.open_class {c : ClassSymbol} (declared : Declared none t)
    (made : (t.createScope .root).2.declare .root name span (.cls c) = .ok (id, t'))
    (key : name = classKey c.displayName) (free : t.lookupLocal .root name = .ok none) (named : IsName c.displayName)
    (unlinked : c.upper = none ∧ c.children = [] ∧ c.depth = none) (bare : c.methods = [])
    (own : c.scope = (t.createScope .root).1) :
    Declared none t' ∧ Grows t t' ∧ (∃ number, t'.class? id = some { c with runtimeId := number }) ∧
      ∀ key, t'.lookupLocal c.scope key = .ok none := by
  have declares := declare_declares made
  have notRoot : ScopeId.root ≠ (t.createScope .root).1 := by
    intro same
    have index : 0 = t.scopes.size := congrArg ScopeId.index same
    exact Nat.ne_of_lt declared.rooted index
  refine ⟨?_, (createScope_grows .root).trans declares.grows, ⟨t'.classCount, ?_⟩, fun key => ?_⟩
  · refine (declared.createScope .root).declare_class declares key ?_ named unlinked ⟨own ▸ notRoot.symm, ?_⟩ bare
    · rw [createScope_lookup, if_neg notRoot, free]
    · simp [own, Table.createScope]
  · rw [declares.class_eq, if_pos rfl]
    rfl
  · rw [declares.lookup, own, if_neg fun same => notRoot same.1.symm, createScope_lookup, if_pos rfl]

/-- A symbol that is a class or a method is not touched by a change of overload sets. -/
theorem symbol_edit_overloads {f : OverloadSet → OverloadSet} (member : s.class?.isSome ∨ s.method?.isSome) :
    (t.edit id (SymbolKind.mapOverloads f)).symbol? j = some s ↔ t.symbol? j = some s := by
  rw [edit_symbol?]
  cases held : t.symbol? j with
  | none => simp
  | some old =>
    by_cases here : j = id
    · rcases old.map_overloads f with same | ⟨noClass, noMethod, noClass', noMethod'⟩
      · simp [here, same]
      · simp only [here, if_true, Option.map_some, Option.some.injEq]
        constructor <;>
        · rintro rfl
          simp_all
    · simp [here]

theorem edit_overloads_class (f : OverloadSet → OverloadSet) (j : SymbolId) :
    (t.edit id (SymbolKind.mapOverloads f)).class? j = t.class? j := by
  refine Option.ext fun k => ?_
  unfold class?
  rw [Option.bind_eq_some_iff, Option.bind_eq_some_iff]
  constructor
  · rintro ⟨s, held, isClass⟩
    exact ⟨s, (symbol_edit_overloads (.inl (by simp [isClass]))).mp held, isClass⟩
  · rintro ⟨s, held, isClass⟩
    exact ⟨s, (symbol_edit_overloads (.inl (by simp [isClass]))).mpr held, isClass⟩

theorem edit_overloads_method (f : OverloadSet → OverloadSet) (j : SymbolId) :
    (t.edit id (SymbolKind.mapOverloads f)).method? j = t.method? j := by
  refine Option.ext fun m => ?_
  unfold method?
  rw [Option.bind_eq_some_iff, Option.bind_eq_some_iff]
  constructor
  · rintro ⟨s, held, isMethod⟩
    exact ⟨s, (symbol_edit_overloads (.inr (by simp [isMethod]))).mp held, isMethod⟩
  · rintro ⟨s, held, isMethod⟩
    exact ⟨s, (symbol_edit_overloads (.inr (by simp [isMethod]))).mpr held, isMethod⟩

theorem edit_overloads_grows (f : OverloadSet → OverloadSet) : Grows t (t.edit id (SymbolKind.mapOverloads f)) := by
  refine ⟨Nat.le_refl _, Nat.le_refl _, fun held isMethod => ?_,
    fun {j k} held => ⟨k, ?_, rfl, rfl, fun _ inside => inside⟩⟩
  · exact (symbol_edit_overloads (.inr (by simp [isMethod]))).mpr held
  · rw [edit_overloads_class, held]

theorem Declared.edit_overloads (declared : Declared pending t) (f : OverloadSet → OverloadSet) :
    Declared pending (t.edit id (SymbolKind.mapOverloads f)) := by
  have classSame (j : SymbolId) : (t.edit id (SymbolKind.mapOverloads f)).class? j = t.class? j :=
    edit_overloads_class f j
  have grows : Grows t (t.edit id (SymbolKind.mapOverloads f)) := edit_overloads_grows f
  refine grows.declared declared (declared.well.edit _) (fun held isClass => .inl ?_) (fun held isMethod => .inl ?_)
    (fun {j j' k k'} held held' => ?_) fun {m method} held => ?_
  · exact (symbol_edit_overloads (.inl (by simp [isClass]))).mp held
  · exact (symbol_edit_overloads (.inr (by simp [isMethod]))).mp held
  · rw [classSame] at held held'
    exact declared.distinct held held'
  · rw [edit_overloads_method] at held
    exact (declared.listed held).imp_left grows.methodsOf

/-- Between `t` and `t'` functions are grouped by their names. -/
structure Groups (t t' : Table) : Prop where
  declared : ∀ {pending}, Declared pending t → Declared pending t'
  grows : Grows t t'

theorem Groups.refl (t : Table) : Groups t t := ⟨id, .refl t⟩

theorem Groups.trans {t'' : Table} (first : Groups t t') (second : Groups t' t'') : Groups t t'' :=
  ⟨second.declared ∘ first.declared, first.grows.trans second.grows⟩

theorem Groups.edit (f : OverloadSet → OverloadSet) : Groups t (t.edit id (SymbolKind.mapOverloads f)) :=
  ⟨fun declared => declared.edit_overloads f, edit_overloads_grows f⟩

section EditClass

variable {g : ClassSymbol → ClassSymbol}

theorem edit_class_eq (j : SymbolId) : (t.edit cls (SymbolKind.mapClass g)).class? j =
    (t.class? j).map fun k => if j = cls then g k else k := by
  unfold class?
  rw [edit_symbol?]
  cases t.symbol? j with
  | none => rfl
  | some s =>
    by_cases here : j = cls
    · simp [here, Symbol.class?, Symbol.mapKind]
    · simp [here]

theorem edit_class_method (j : SymbolId) : (t.edit cls (SymbolKind.mapClass g)).method? j = t.method? j := by
  unfold method?
  rw [edit_symbol?]
  cases t.symbol? j with
  | none => rfl
  | some s =>
    by_cases here : j = cls
    · simp [here, Symbol.method?, Symbol.mapKind]
    · simp [here]

theorem edit_class_grows (core : ∀ k, (g k).core = k.core) (kept : ∀ k, ∀ m ∈ k.methods, m ∈ (g k).methods) :
    Grows t (t.edit cls (SymbolKind.mapClass g)) := by
  refine ⟨Nat.le_refl _, Nat.le_refl _, fun {j s m} held isMethod => ?_, fun {j k} held => ?_⟩
  · rw [edit_symbol?, held]
    obtain ⟨id, name, span, scope, kind⟩ := s
    cases kind with
    | method m => simp [Symbol.mapKind, SymbolKind.mapClass]
    | _ => cases isMethod
  · rw [edit_class_eq, held]
    by_cases here : j = cls
    · obtain ⟨methods, fields, same⟩ := ClassSymbol.of_core (core k)
      exact ⟨g k, by simp [here], by rw [same], by rw [same], kept k⟩
    · exact ⟨k, by simp [here], rfl, rfl, fun _ inside => inside⟩

/-- The members of a class change; each new method of it is a method of the table that the class owns. -/
theorem Declared.edit_class {pending' : Option SymbolId} (declared : Declared pending t)
    (core : ∀ k, (g k).core = k.core) (kept : ∀ k, ∀ m ∈ k.methods, m ∈ (g k).methods)
    (added : ∀ {k}, t.class? cls = some k → ∀ m ∈ (g k).methods, m ∈ k.methods ∨
      ∃ sm method, t.symbol? m = some sm ∧ sm.method? = some method ∧ method.owner = cls ∧ sm.scope = k.scope)
    (listed : ∀ {m method}, t.method? m = some method → pending = some m →
      m ∈ (t.edit cls (SymbolKind.mapClass g)).methodsOf method.owner ∨ pending' = some m) :
    Declared pending' (t.edit cls (SymbolKind.mapClass g)) := by
  have grows : Grows t (t.edit cls (SymbolKind.mapClass g)) := edit_class_grows core kept
  refine grows.declared declared (declared.well.edit _) (fun {j s k} held isClass => ?_)
    (fun {j s m} held isMethod => ?_) (fun {j j' k k'} held held' same => ?_) fun {m method} held => ?_
  · rw [edit_symbol?] at held
    obtain ⟨old, found, rfl⟩ := Option.map_eq_some_iff.mp held
    split at isClass
    next here =>
      subst here
      obtain ⟨k₀, isClass₀, rfl⟩ := Option.map_eq_some_iff.mp
        (by simpa [Symbol.class?, Symbol.mapKind] using isClass : Option.map g old.class? = some k)
      have before := declared.classes found isClass₀
      have isOld : t.class? j = some k₀ := by simp [class?, found, isClass₀]
      obtain ⟨methods, fields, same⟩ := ClassSymbol.of_core (core k₀)
      rw [if_pos rfl, same]
      refine .inr ⟨before.place, before.key, before.named, before.unlinked, before.numbered, before.ownScope,
        fun m inside => ?_⟩
      have owned : ∃ sm method, t.symbol? m = some sm ∧ sm.method? = some method ∧ method.owner = j ∧
          sm.scope = k₀.scope := (added isOld m (by rwa [same])).elim (before.methods m) id
      obtain ⟨sm, method, held, isMethod, rest⟩ := owned
      exact ⟨sm, method, grows.methods held isMethod, isMethod, rest⟩
    next elsewhere => exact .inl (by simp [found, elsewhere])
  · have mapped := held
    rw [edit_symbol?] at mapped
    obtain ⟨old, found, rfl⟩ := Option.map_eq_some_iff.mp mapped
    have wasMethod : old.method? = some m := by
      split at isMethod
      · simpa [Symbol.method?, Symbol.mapKind] using isMethod
      · exact isMethod
    exact .inl (found.trans ((grows.methods found wasMethod).symm.trans held))
  · rw [edit_class_eq] at held held'
    obtain ⟨k₀, found, rfl⟩ := Option.map_eq_some_iff.mp held
    obtain ⟨k₀', found', rfl⟩ := Option.map_eq_some_iff.mp held'
    have number (j : SymbolId) (k : ClassSymbol) : (if j = cls then g k else k).runtimeId = k.runtimeId := by
      split
      · obtain ⟨methods, fields, same⟩ := ClassSymbol.of_core (core k)
        rw [same]
      · rfl
    rw [number, number] at same
    exact declared.distinct found found' same
  · rw [edit_class_method] at held
    rcases declared.listed held with inside | waiting
    · exact .inl (grows.methodsOf inside)
    · exact listed held waiting

end EditClass

/-! ## Tables with the same classes -/

/-- Both tables have the same classes, up to their members. -/
def SameCore (t t' : Table) : Prop := ∀ id, (t'.class? id).map ClassSymbol.core = (t.class? id).map ClassSymbol.core

namespace SameCore

theorem refl (t : Table) : SameCore t t := fun _ => rfl

theorem trans {t'' : Table} (first : SameCore t t') (second : SameCore t' t'') : SameCore t t'' :=
  fun id => (second id).trans (first id)

theorem class_core (same : SameCore t t') (held : t.class? id = some k) :
    ∃ methods fields, t'.class? id = some { k with methods, fields } := by
  have cores := same id
  rw [held] at cores
  obtain ⟨k', held', core⟩ := Option.map_eq_some_iff.mp cores
  obtain ⟨methods, fields, rfl⟩ := ClassSymbol.of_core core
  exact ⟨methods, fields, held'⟩

end SameCore

theorem Declares.sameCore (declares : Declares scope name span kind id t t') (noClass : kind.class? = none) :
    SameCore t t' := fun j => by rw [declares.class_same noClass]

theorem edit_overloads_sameCore (f : OverloadSet → OverloadSet) :
    SameCore t (t.edit id (SymbolKind.mapOverloads f)) := fun j => by rw [edit_overloads_class]

theorem edit_class_sameCore {g : ClassSymbol → ClassSymbol} (core : ∀ k, (g k).core = k.core) :
    SameCore t (t.edit cls (SymbolKind.mapClass g)) := by
  intro j
  rw [edit_class_eq, Option.map_map]
  congr 1
  funext k
  by_cases here : j = cls
  · simp [here, core]
  · simp [here]

/-! ## Functions and methods -/

section Functions

variable {t₁ t₂ : Table} {set : SymbolId} {key plain : String} {place : Span} {forMethods : Bool}
  {f : OverloadSet → OverloadSet}

/-- Adding to an overload set, which may have to be declared first. -/
theorem Declared.add_overload (declared : Declared pending t)
    (found : t.overloadSet scope plain place forMethods = .ok (set, t₁))
    (added : t₁.modify set (·.mapOverloads f) = .ok t₂) : Declared pending t₂ ∧ Grows t t₂ ∧ SameCore t t₂ := by
  have first : Declared pending t₁ ∧ Grows t t₁ ∧ SameCore t t₁ := by
    obtain ⟨known, looked, found⟩ := bind_eq_ok.mp found
    cases known with
    | some old =>
      cases found
      exact ⟨declared, .refl _, .refl _⟩
    | none =>
      have declares := declare_declares found
      exact ⟨declared.declare_other declares looked rfl rfl, declares.grows, declares.sameCore rfl⟩
  obtain ⟨declared, grows, same⟩ := first
  obtain ⟨_, rfl⟩ := modify_ok_iff.mp added
  exact ⟨declared.edit_overloads f, grows.trans (edit_overloads_grows f), same.trans (edit_overloads_sameCore f)⟩

/-- The class of a pending method lists it. -/
theorem Declared.list_method (declared : Declared (some id) t) (held : t.symbol? id = some s)
    (isMethod : s.method? = some m) (isClass : t.class? m.owner = some k) (placed : s.scope = k.scope) :
    Declared none (t.edit m.owner (SymbolKind.mapClass fun c => { c with methods := c.methods ++ [id] })) := by
  refine declared.edit_class (fun _ => rfl) (fun _ _ inside => List.mem_append_left _ inside)
    (fun {k'} isClass' x inside => ?_) fun {x method} held' waiting => .inl ?_
  · obtain rfl := Option.some.inj (isClass.symm.trans isClass')
    rcases List.mem_append.mp inside with old | new
    · exact .inl old
    · obtain rfl := List.mem_singleton.mp new
      exact .inr ⟨s, m, held, isMethod, rfl, placed⟩
  · obtain rfl := Option.some.inj waiting
    obtain rfl : m = method := by simpa [method?, held, isMethod] using held'
    simp [methodsOf, edit_class_eq, isClass]

/-- Declaring a method, with its overload set and the list of its class. -/
theorem Declared.add_method {t₃ t₄ : Table} (declared : Declared none t)
    (made : t.declare k.scope key span (.method m) = .ok (id, t₁))
    (found : t₁.overloadSet k.scope plain place forMethods = .ok (set, t₂))
    (added : t₂.modify set (·.mapOverloads f) = .ok t₃)
    (listed : t₃.modify m.owner (·.mapClass fun c => { c with methods := c.methods ++ [id] }) = .ok t₄)
    (isClass : t.class? m.owner = some k) (free : t.lookupLocal k.scope key = .ok none)
    (isDeclared : MethodDeclared t key m) :
    Declared none t₄ ∧ SameCore t t₄ := by
  have declares := declare_declares made
  obtain ⟨declared, grows, same⟩ := (declared.declare_method declares free isDeclared).add_overload found added
  obtain ⟨k', isClass', _, scopeSame, _⟩ := (declares.grows.trans grows).classes isClass
  have held : t₃.symbol? id = some ⟨id, key, span, k.scope, .method m⟩ :=
    grows.methods (by rw [declares.symbol, if_pos rfl]; rfl) rfl
  obtain ⟨_, rfl⟩ := modify_ok_iff.mp listed
  refine ⟨declared.list_method held rfl isClass' scopeSame.symm, ?_⟩
  exact ((declares.sameCore rfl).trans same).trans (edit_class_sameCore fun _ => rfl)

end Functions

/-! ## What declared tables are like -/

theorem signature_name {key : String} (held : t.symbol? id = some s)
    (signed : t.signature? id = some key) : s.name = key := by
  unfold signature? at signed
  rw [held, Option.bind_some] at signed
  obtain ⟨m, _, signed⟩ := Option.bind_eq_some_iff.mp signed
  split at signed
  · cases signed
  · exact Option.some.inj signed

namespace Declared

section Any

variable (declared : Declared pending t)
include declared

theorem known_name (known : t.Known name id) : IsName name := by
  obtain ⟨k, held, rfl⟩ := known
  obtain ⟨s, found, isClass⟩ := class_symbol held
  exact (declared.classes found isClass).named

/-- Names tell classes apart. -/
theorem known_unique (known : t.Known name id) (known' : t.Known name j) : id = j := by
  obtain ⟨k, held, rfl⟩ := known
  obtain ⟨k', held', same⟩ := known'
  obtain ⟨s, found, isClass⟩ := class_symbol held
  obtain ⟨s', found', isClass'⟩ := class_symbol held'
  have one := declared.classes found isClass
  have other := declared.classes found' isClass'
  refine declared.well.unique found found' (one.place.trans other.place.symm) ?_
  rw [one.key, other.key, same]

theorem typedBySignature : t.TypedBySignature := by
  refine ⟨fun {m m' a b key} signed signed' held held' => ?_, fun {m m' a b} held held' same => ?_⟩
  · obtain ⟨s, found, isMethod⟩ := method_symbol held
    obtain ⟨s', found', isMethod'⟩ := method_symbol held'
    have one := declared.methods found isMethod
    have other := declared.methods found' isMethod'
    have named : s.name = s'.name := (signature_name found signed).trans (signature_name found' signed').symm
    obtain ⟨name, isName, spelled⟩ := one.key
    obtain ⟨name', isName', spelled'⟩ := other.key
    exact (functionKey_inj declared.known_name declared.known_unique isName isName' one.params other.params
      (spelled.symm.trans (named.trans spelled'))).2
  · obtain ⟨s, found, isMethod⟩ := method_symbol held
    obtain ⟨s', found', isMethod'⟩ := method_symbol held'
    refine Ty.eq_of_same (fun {name name' id} known known' => ?_) (declared.methods found isMethod).returns
      (declared.methods found' isMethod').returns same
    obtain ⟨k, held, rfl⟩ := known
    obtain ⟨k', held', rfl⟩ := known'
    obtain rfl := Option.some.inj (held.symm.trans held')
    rfl

/-- A class that is found by a signature has the name that the signature is made of. -/
theorem classBySignature_known {arguments : List TypeName} (isName : IsName name)
    (written : TypeName.WrittenAll arguments)
    (found : t.classBySignature (TypeName.signature name arguments) = some id) :
    t.Known name id ∧ arguments = [] := by
  obtain ⟨j, looked, found⟩ := Option.bind_eq_some_iff.mp found
  obtain ⟨s, held, found⟩ := Option.bind_eq_some_iff.mp found
  obtain ⟨k, isClass, found⟩ := Option.bind_eq_some_iff.mp found
  cases found
  obtain ⟨s', held', _, key⟩ := declared.well.named ((lookupRoot_eq declared.rooted).trans (congrArg _ looked))
  obtain rfl := Option.some.inj (held.symm.trans held')
  have isDeclared := declared.classes held isClass
  obtain ⟨rfl, bare⟩ := TypeName.signature_classKey isName isDeclared.named written (key.symm.trans isDeclared.key)
  exact ⟨⟨k, by simp [class?, symbol?, held, isClass], rfl⟩, bare⟩

/-- What a written type stands for is spelled with the names of classes. -/
theorem resolve_spelled : ∀ {type : TypeName} {ty : Ty}, type.Written → type.resolve t.classes = .ok ty →
    ty.Spelled t.Known
  | .int _, _, _, resolved | .double _, _, _, resolved | .boolean _, _, _, resolved | .any _, _, _, resolved => by
    cases resolved
    trivial
  | .array element _, ty, written, resolved => by
    rw [TypeName.resolve] at resolved
    cases inner : element.resolve t.classes with
    | error reason => simp [inner] at resolved
    | ok elementTy =>
      rw [inner] at resolved
      cases resolved
      exact @resolve_spelled element elementTy written inner
  | .ofClass name arguments _, ty, written, resolved => by
    rw [TypeName.resolve] at resolved
    split at resolved
    next id found =>
      cases resolved
      obtain ⟨known, rfl⟩ := declared.classBySignature_known written.1 written.2 found
      exact known
    · cases resolved
  | .parameter _ _ _, _, _, resolved => by cases resolved

end Any

section Listed

variable (declared : Declared none t)
include declared

theorem freshClasses : FreshClasses t := by
  refine ⟨fun {id k} held => ?_, fun {id k} held => ?_, declared.distinct, fun {id k} held => ?_,
    fun {id k} held m inside => ?_⟩
  all_goals obtain ⟨s, found, isClass⟩ := class_symbol held
  · exact (declared.classes found isClass).unlinked
  · exact (declared.classes found isClass).numbered
  · exact (declared.classes found isClass).ownScope
  · obtain ⟨sm, method, held, _⟩ := (declared.classes found isClass).methods m inside
    simp [held]

theorem ownedMethods : t.OwnedMethods := by
  have inClass {c m : SymbolId} (inside : m ∈ t.methodsOf c) : ∃ k sm method, t.class? c = some k ∧
      t.symbol? m = some sm ∧ sm.method? = some method ∧ method.owner = c ∧ sm.scope = k.scope := by
    unfold methodsOf at inside
    cases held : t.class? c with
    | none => simp [held] at inside
    | some k =>
      obtain ⟨s, found, isClass⟩ := class_symbol held
      simp only [held, Option.map_some, Option.getD_some] at inside
      obtain ⟨sm, method, rest⟩ := (declared.classes found isClass).methods m inside
      exact ⟨k, sm, method, rfl, rest⟩
  refine ⟨fun {m method} held => ?_, fun {c m} inside => ?_, fun {key c m m'} first second => ?_⟩
  · rcases declared.listed held with listed | impossible
    · exact listed
    · cases impossible
  · obtain ⟨k, sm, method, _, held, isMethod, owner, _⟩ := inClass inside
    exact ⟨method, by simp [method?, held, isMethod], owner⟩
  · obtain ⟨inside, signed⟩ := mem_declares.mp first
    obtain ⟨inside', signed'⟩ := mem_declares.mp second
    obtain ⟨k, sm, method, isClass, held, isMethod, _, place⟩ := inClass inside
    obtain ⟨k', sm', method', isClass', held', isMethod', _, place'⟩ := inClass inside'
    obtain rfl := Option.some.inj (isClass.symm.trans isClass')
    exact declared.well.unique held held' (place.trans place'.symm)
      ((signature_name held signed).trans (signature_name held' signed').symm)

theorem bare {method : MethodSymbol} (held : t.method? id = some method) : method.overriders = [] := by
  obtain ⟨s, found, isMethod⟩ := method_symbol held
  exact (declared.methods found isMethod).bare

end Listed

end Declared

end Table

end Quasicode
