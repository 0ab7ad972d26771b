import Quasicode.Proofs.TableArranged

/-!
Tables that an analysis can go on with, and what it never takes back: a symbol stays what it was declared as, and a name
that a scope holds stays held. Each way in which an analysis changes a table is shown once to leave it intact and to
persist, for all the phases that make such a change. An analysis works on its table one operation at a time, and what is
to hold at every point of it is said of the table after each of them.
-/
namespace Quasicode

/-! ## How one table comes about from another -/

namespace Table

open Relation

variable {t t' t'' : Table} {id : SymbolId} {scope : ScopeId} {name : String} {span : Span} {kind : SymbolKind}
  {f : SymbolKind → SymbolKind} {P Q : Table → Prop}

/-- One operation on a table. Hanging a scope elsewhere is none of them: only the build of the hierarchy does that. -/
inductive Operates (t : Table) : Table → Prop where
  | resetToRoot : Operates t t.resetToRoot
  | createScope (outer : ScopeId) : Operates t (t.createScope outer).2
  | declare {scope : ScopeId} {name : String} {span : Span} {kind : SymbolKind} {id : SymbolId} {t' : Table} :
    t.declare scope name span kind = .ok (id, t') → Operates t t'
  | modify {id : SymbolId} {f : SymbolKind → SymbolKind} {t' : Table} : t.modify id f = .ok t' → Operates t t'

/-- `t'` comes about from `t` by operations, and after each of them the table is as `P` says. -/
def Course (P : Table → Prop) : Table → Table → Prop := ReflTransGen fun t t' => t.Operates t' ∧ P t'

namespace Course

theorem refl : Course P t t := ReflTransGen.refl

theorem trans (first : Course P t t') (second : Course P t' t'') : Course P t t'' := ReflTransGen.trans first second

theorem single (operates : t.Operates t') (after : P t') : Course P t t' :=
  ReflTransGen.single ⟨operates, after⟩

theorem mono (implies : ∀ u, P u → Q u) (course : Course P t t') : Course Q t t' :=
  Relation.ReflTransGen.mono (fun _ u step => And.intro step.1 (implies u step.2)) t t' course

theorem edit (after : P (t.edit id f)) : Course P t (t.edit id f) := by
  cases held : t.symbol? id with
  | some s => exact .single (.modify (modify_edit held)) after
  | none =>
    have same : t.edit id f = t := by
      have outside : t.symbols.size ≤ id.index := Array.getElem?_eq_none_iff.mp held
      have unmoved : t.symbols.modify id.index (Symbol.mapKind f) = t.symbols := by
        apply Array.ext_getElem?
        intro i
        rw [Array.getElem?_modify]
        split
        next here =>
          subst here
          rw [Array.getElem?_eq_none_iff.mpr outside, Option.map_none]
        next => rfl
      rw [Table.edit, unmoved]
    rw [same]
    exact .refl

end Course

end Table

/-! ## Symbols as they were declared -/

/-- A symbol as it was declared, without what is filled in or decided later. -/
def SymbolKind.core : SymbolKind → SymbolKind
  | .variable var => .variable { var with status := .ready }
  | globalVariable var site => globalVariable { var with status := .ready } site
  | method m => method { m with overriders := [], ready := true }
  | overloads set => overloads { set with functions := [] }
  | cls c => cls { c with upper := none, children := [], depth := none, methods := [], fields := [] }
  | other => other

theorem SymbolKind.var_core (kind : SymbolKind) :
    kind.core.var? = kind.var?.map fun var => { var with status := .ready } := by
  cases kind <;> rfl

theorem SymbolKind.class_core (kind : SymbolKind) : kind.core.class? = kind.class?.map fun c =>
    { c with upper := none, children := [], depth := none, methods := [], fields := [] } := by
  cases kind <;> rfl

theorem SymbolKind.var_of_core {kind kind' : SymbolKind} {v : VariableSymbol} (core : kind'.core = kind.core)
    (isVar : kind.var? = some v) : ∃ v', kind'.var? = some v' ∧ v'.type = v.type ∧ v'.kind = v.kind := by
  have vars := congrArg SymbolKind.var? core
  rw [var_core, var_core, isVar] at vars
  obtain ⟨v', isVar', same⟩ := Option.map_eq_some_iff.mp vars
  exact ⟨v', isVar', (congrArg VariableSymbol.type same :), (congrArg VariableSymbol.kind same :)⟩

theorem SymbolKind.function_core (kind : SymbolKind) : kind.core.function? = kind.function? := by
  cases kind <;> rfl

theorem SymbolKind.isGlobal_core (kind : SymbolKind) : kind.core.isGlobal = kind.isGlobal := by
  cases kind <;> rfl

/-- Parameters take values, and a function returns one or nothing. -/
structure FunctionSymbol.Proper (f : FunctionSymbol) : Prop where
  params : ∀ p ∈ f.params, p.Proper
  returns : f.returns = .void ∨ f.returns.Proper

/-- The types of a kind are those of values. -/
structure SymbolKind.Proper (kind : SymbolKind) : Prop where
  var : ∀ {v : VariableSymbol} {ty}, kind.var? = some v → v.type = some ty → ty.Proper
  function : ∀ {f : FunctionSymbol}, kind.function? = some f → f.Proper

theorem SymbolKind.Proper.of_core {kind kind' : SymbolKind} (proper : kind.Proper)
    (core : kind'.core = kind.core) : kind'.Proper := by
  constructor
  · intro v ty isVar type
    obtain ⟨w, isVar', sameType, _⟩ := var_of_core core.symm isVar
    exact proper.var isVar' (sameType.trans type)
  · intro f isFunction
    have functions := congrArg SymbolKind.function? core
    rw [function_core, function_core, isFunction] at functions
    exact proper.function functions.symm

namespace Table

variable {bound : Nat} {t t' t'' : Table} {id : SymbolId} {scope : ScopeId} {name : String}
variable {span : Span} {kind : SymbolKind}
  {s : Symbol} {f : SymbolKind → SymbolKind}
variable {v : VariableSymbol}

/-- Nothing is missing in the table, and its classes are arranged. -/
structure Intact (bound : Nat) (t : Table) : Prop where
  sound : t.Sound bound
  arranged : t.Arranged
  leveled : t.Leveled

theorem Intact.rooted (intact : t.Intact bound) : t.Rooted := intact.arranged.rooted intact.sound

/-- What is in `t` is still in `t'`, and a signature stands for the same class. -/
structure Persists (t t' : Table) : Prop where
  scopes : t.scopes.size ≤ t'.scopes.size
  symbols : ∀ {id s}, t.symbol? id = some s → ∃ kind, t'.symbol? id = some { s with kind } ∧ kind.core = s.kind.core
  names : ∀ {scope name id}, t.lookupLocal scope name = .ok (some id) → ∃ id',
    t'.lookupLocal scope name = .ok (some id')
  signatures : ∀ {name arguments id}, t.lookupLocal .root (TypeName.signature name arguments) = .ok (some id) →
    t'.lookupLocal .root (TypeName.signature name arguments) = .ok (some id)

namespace Persists

theorem refl (t : Table) : Persists t t := ⟨Nat.le_refl _, fun held => ⟨_, held, rfl⟩, fun held => ⟨_, held⟩, id⟩

theorem trans (first : Persists t t') (second : Persists t' t'') : Persists t t'' := by
  refine ⟨Nat.le_trans first.scopes second.scopes, fun held => ?_, fun held => ?_, second.signatures ∘ first.signatures⟩
  · obtain ⟨kind, held', core⟩ := first.symbols held
    obtain ⟨kind', held'', core'⟩ := second.symbols held'
    exact ⟨kind', held'', core'.trans core⟩
  · obtain ⟨id', held'⟩ := first.names held
    exact second.names held'

theorem size (persists : Persists t t') : t.symbols.size ≤ t'.symbols.size := by
  apply Nat.le_of_not_lt
  intro less
  obtain ⟨s, held⟩ : ∃ s, t.symbol? ⟨t'.symbols.size⟩ = some s := symbol_exists less
  obtain ⟨_, held', _⟩ := persists.symbols held
  exact Nat.lt_irrefl _ (symbol_bound held')

theorem below (persists : Persists t t') (below : id.index < t.symbols.size) : id.index < t'.symbols.size :=
  Nat.lt_of_lt_of_le below persists.size

theorem inside (persists : Persists t t') (inside : scope.index < t.scopes.size) : scope.index < t'.scopes.size :=
  Nat.lt_of_lt_of_le inside persists.scopes

/-- A variable keeps its type. -/
theorem var (persists : Persists t t') (held : t.symbol? id = some s) (isVar : s.var? = some v) :
    ∃ s' v', t'.symbol? id = some s' ∧ s'.var? = some v' ∧ v'.type = v.type ∧ v'.kind = v.kind := by
  obtain ⟨kind, held', core⟩ := persists.symbols held
  obtain ⟨v', isVar', same⟩ := SymbolKind.var_of_core core isVar
  exact ⟨_, v', held', isVar', same⟩

/-- A function keeps its signature. -/
theorem function {g : FunctionSymbol} (persists : Persists t t') (held : t.symbol? id = some s)
    (isFunction : s.function? = some g) : ∃ s', t'.symbol? id = some s' ∧ s'.function? = some g := by
  obtain ⟨kind, held', core⟩ := persists.symbols held
  have functions := congrArg SymbolKind.function? core
  rw [SymbolKind.function_core, SymbolKind.function_core] at functions
  exact ⟨_, held', functions.trans isFunction⟩

/-- A class keeps its scope. -/
theorem cls {c : ClassSymbol} (persists : Persists t t') (held : t.class? id = some c) :
    ∃ c', t'.class? id = some c' ∧ c'.scope = c.scope ∧ c'.displayName = c.displayName := by
  obtain ⟨s, found, isClass⟩ := class_symbol held
  obtain ⟨kind, held', core⟩ := persists.symbols found
  have classes := congrArg SymbolKind.class? core
  rw [SymbolKind.class_core, SymbolKind.class_core, show s.kind.class? = some c from isClass] at classes
  obtain ⟨c', isClass', same⟩ := Option.map_eq_some_iff.mp classes
  exact ⟨c', by simp [class?, held', Symbol.class?, isClass'], (congrArg ClassSymbol.scope same :),
    (congrArg ClassSymbol.displayName same :)⟩

theorem isClass (persists : Persists t t') (isClass : (t.class? id).isSome) : (t'.class? id).isSome := by
  obtain ⟨c, held⟩ := Option.isSome_iff_exists.mp isClass
  obtain ⟨c', held', _⟩ := persists.cls held
  exact Option.isSome_iff_exists.mpr ⟨c', held'⟩

theorem signature {arguments : List TypeName} (persists : Persists t t')
    (held : t.classBySignature (TypeName.signature name arguments) = some id) :
    t'.classBySignature (TypeName.signature name arguments) = some id := by
  obtain ⟨found, isClass⟩ := classBySignature_iff.mp held
  obtain ⟨c, isClass⟩ := Option.isSome_iff_exists.mp isClass
  obtain ⟨c', isClass', _⟩ := persists.cls isClass
  exact classBySignature_iff.mpr ⟨persists.signatures found, by simp [isClass']⟩

/-- A written type stands for what it stood for. -/
theorem resolve (persists : Persists t t') : ∀ {type : TypeName} {ty : Ty}, type.resolve t.classes = .ok ty →
    type.resolve t'.classes = .ok ty
  | .int _, _, resolved | .double _, _, resolved | .boolean _, _, resolved | .any _, _, resolved => resolved
  | .array element span, ty, resolved => by
    simp only [TypeName.resolve] at resolved ⊢
    cases found : element.resolve t.classes with
    | error unknown =>
      rw [found] at resolved
      cases resolved
    | ok inner =>
      rw [found] at resolved
      rw [persists.resolve found]
      exact resolved
  | .ofClass name arguments span, ty, resolved => by
    simp only [TypeName.resolve] at resolved ⊢
    split at resolved
    next id found =>
      simp only [show t'.classes.bySignature (TypeName.signature name arguments) = some id
        from persists.signature found]
      exact resolved
    next => cases resolved
  | .parameter _ _ _, _, resolved => by cases resolved

/-! ## Steps -/

/-- A class is declared under a signature that stands for nothing yet. -/
theorem declare (adds : Adds scope name span kind t t') (suits : kind.Suits name)
    (free : kind.class?.isSome → t.lookupLocal .root name = .ok none) : Persists t t' := by
  refine ⟨Nat.le_of_eq adds.declares.scopes.symm, fun {id s} held => ⟨s.kind, ?_, rfl⟩, fun {asked key id} held => ?_,
    fun {n arguments id} held => ?_⟩
  · rw [adds.declares.symbol_old (by simp [held]), held]
  · rw [adds.declares.lookup]
    split
    · exact ⟨_, rfl⟩
    · exact ⟨id, held⟩
  · rw [adds.declares.lookup, if_neg]
    · exact held
    · rintro ⟨rfl, rfl⟩
      cases isClass : kind.class? with
      | none => exact suits.signature isClass (TypeName.signature_last n arguments)
      | some c =>
        rw [free (by simp [isClass])] at held
        cases held

theorem createScope (t : Table) (parent : ScopeId) : Persists t (t.createScope parent).2 := by
  have kept {asked : ScopeId} {key : String} {id : SymbolId} (held : t.lookupLocal asked key = .ok (some id)) :
      (t.createScope parent).2.lookupLocal asked key = .ok (some id) := by
    rw [createScope_lookup, if_neg]
    · exact held
    · rintro rfl
      exact Nat.lt_irrefl _ (lookup_bound held)
  exact ⟨by simp [Table.createScope], fun held => ⟨_, held, rfl⟩, fun {_ _ id} held => ⟨id, kept held⟩, kept⟩

/-- A symbol can be changed in what is filled in later. -/
theorem edit (kept : ∀ kind, (f kind).core = kind.core) : Persists t (t.edit id f) := by
  refine ⟨Nat.le_refl _, fun {j s} held => ?_, fun {asked key j} held => ⟨j, held⟩, fun held => held⟩
  rw [edit_symbol?, held]
  by_cases here : j = id
  · exact ⟨f s.kind, by simp [here, Symbol.mapKind], kept s.kind⟩
  · exact ⟨s.kind, by simp [here], rfl⟩

end Persists

/-! ## Variables -/

/-- The variable behind an id. -/
def var? (t : Table) (id : SymbolId) : Option VariableSymbol := (t.symbol? id).bind Symbol.var?

theorem var_symbol (held : t.var? id = some v) : ∃ s, t.symbol? id = some s ∧ s.var? = some v :=
  Option.bind_eq_some_iff.mp held

theorem var_of (held : t.symbol? id = some s) : t.var? id = s.var? := by
  rw [var?, held]
  rfl

/-- A variable keeps its type. -/
theorem Persists.var_kept (persists : t.Persists t') (held : t.var? id = some v) :
    ∃ v', t'.var? id = some v' ∧ v'.type = v.type ∧ v'.kind = v.kind := by
  obtain ⟨s, found, isVar⟩ := var_symbol held
  obtain ⟨s', v', found', isVar', rest⟩ := persists.var found isVar
  exact ⟨v', (var_of found').trans isVar', rest⟩

/-- What was there is a variable only if it was one. -/
theorem Persists.var_old (persists : t.Persists t') (below : id.index < t.symbols.size)
    (held : t'.var? id = some v) : ∃ v', t.var? id = some v' ∧ v'.type = v.type ∧ v'.kind = v.kind := by
  obtain ⟨s, found⟩ := symbol_exists below
  obtain ⟨kind, found', core⟩ := persists.symbols found
  rw [var_of found'] at held
  obtain ⟨v', isVar, same⟩ := SymbolKind.var_of_core core.symm held
  exact ⟨v', (var_of found).trans isVar, same⟩

/-- If the symbol is a variable, it has a type. -/
def HasType (t : Table) (id : SymbolId) : Prop := ∀ v, t.var? id = some v → v.type.isSome

/-- No variable in the scope of a class is without a type. -/
def UntypedApart (t : Table) : Prop := ∀ {id s v cls k}, t.symbol? id = some s → s.var? = some v → v.type = none →
  t.class? cls = some k → s.scope ≠ k.scope

/-- The variables that are declared between two numbers have types. -/
def Typed (t : Table) (first last : Nat) : Prop :=
  ∀ id v, first ≤ id.index → id.index < last → t.var? id = some v → v.type.isSome

namespace Typed

variable {first middle last : Nat}

theorem append (before : t.Typed first middle) (after : t.Typed middle last) : t.Typed first last := by
  intro id v least less isVar
  by_cases early : id.index < middle
  · exact before id v least early isVar
  · exact after id v (Nat.not_lt.mp early) less isVar

theorem single {n : Nat} {v : VariableSymbol} (held : t.var? ⟨n⟩ = some v)
    (typed : v.type.isSome) : t.Typed n (n + 1) := by
  intro id w least less isVar
  have same : id = ⟨n⟩ := congrArg SymbolId.mk (Nat.le_antisymm (Nat.le_of_lt_succ less) least)
  rw [same, held] at isVar
  cases isVar
  exact typed

theorem empty (le : last ≤ first) : t.Typed first last :=
  fun _ _ least less => absurd (Nat.lt_of_le_of_lt least less) (Nat.not_lt.mpr le)

theorem kept (typed : t.Typed first last) (persists : t.Persists t') (le : last ≤ t.symbols.size) :
    t'.Typed first last := by
  intro id v least less isVar
  obtain ⟨v', isVar', type, _⟩ := persists.var_old (Nat.lt_of_lt_of_le less le) isVar
  rw [← type]
  exact typed id v' least less isVar'

theorem declare (adds : Adds scope name span kind t t') (typed : ∀ v, kind.var? = some v → v.type.isSome) :
    t'.Typed t.symbols.size t'.symbols.size := by
  rw [adds.size]
  intro id v least less isVar
  have same : id = ⟨t.symbols.size⟩ := congrArg SymbolId.mk (Nat.le_antisymm (Nat.le_of_lt_succ less) least)
  rw [same, var_of adds.held] at isVar
  cases kind with
  | «variable» var => exact typed v isVar
  | globalVariable var site => exact typed v isVar
  | _ => cases isVar

end Typed

/-! ## Types and globals -/

/-- Every type that a symbol has is that of a value. -/
def Proper (t : Table) : Prop := ∀ id s, t.symbol? id = some s → s.kind.Proper

/-- Every global is initialized. -/
def GlobalsReady (t : Table) : Prop := ∀ id s, t.symbol? id = some s → s.isGlobal →
  ∃ v, s.var? = some v ∧ v.status = .ready

theorem Proper.declare (proper : t.Proper) (adds : Adds scope name span kind t t')
    (newKind : kind.Proper) : t'.Proper := by
  intro id s held
  rw [adds.declares.symbol] at held
  split at held
  · cases held
    cases kind with
    | cls c => exact ⟨nofun, nofun⟩
    | _ => exact newKind
  · exact proper id s held

theorem Proper.edit (proper : t.Proper) (kept : ∀ kind, (f kind).core = kind.core) : (t.edit id f).Proper := by
  intro j s held
  rw [edit_symbol?] at held
  obtain ⟨s', found, rfl⟩ := Option.map_eq_some_iff.mp held
  split
  · exact (proper j s' found).of_core (kept s'.kind)
  · exact proper j s' found

/-! ## Intact tables stay intact -/

/-- Something else than a class that an intact table can take: it refers to nothing that is
missing, and suits its key. -/
structure Allows (bound : Nat) (t : Table) (scope : ScopeId) (name : String) (span : Span)
    (kind : SymbolKind) : Prop where
  inside : scope.index < t.scopes.size
  within : span.Within bound
  sound : kind.Sound bound (t.symbols.size + 1) t.scopes.size
  suits : kind.Suits name
  noClass : kind.class? = none

/-- A variable under its name. -/
theorem Allows.var {name : Ident} (inside : scope.index < t.scopes.size) (named : name.Fit bound)
    (known : ∀ ty, v.type = some ty → ty.Below (t.symbols.size + 1)) (status : v.status ≠ .ordering) :
    Allows bound t scope name.name name.span (.variable v) :=
  ⟨inside, named.within, ⟨known, status⟩, SymbolKind.suits_name named.named _, rfl⟩

/-- A class that an intact table can take, with a scope of its own and under a signature that stands for nothing yet. -/
structure AllowsClass (bound : Nat) (t : Table) (name : String) (span : Span) (c : ClassSymbol) : Prop where
  within : span.Within bound
  suits : (SymbolKind.cls c).Suits name
  free : t.lookupRoot name = none
  own : c.scope = (t.createScope .root).1
  bare : c.upper = none ∧ c.children = [] ∧ c.depth = none ∧ c.methods = [] ∧ c.fields = []

namespace Intact

variable (intact : t.Intact bound)
include intact

theorem keep (same : SameClasses t t') (sound : t'.Sound bound) : t'.Intact bound :=
  ⟨sound, same.shapes.arranged intact.arranged, same.leveled intact.leveled⟩

theorem declare (adds : Adds scope name span kind t t')
    (allows : Allows bound t scope name span kind) : t'.Intact bound :=
  intact.keep (.declare adds allows.noClass)
    (intact.sound.declare adds allows.inside allows.within allows.sound allows.suits)

theorem createScope (inside : scope.index < t.scopes.size) : (t.createScope scope).2.Intact bound :=
  intact.keep (.createScope inside) (intact.sound.createScope scope)

theorem declare_class {c : ClassSymbol} (adds : Adds .root name span (.cls c) (t.createScope .root).2 t')
    (allows : AllowsClass bound t name span c) : t'.Intact bound := by
  obtain ⟨within, suits, _, own, top, leaf, unknown, noMethods, noFields⟩ := allows
  have size : (t.createScope .root).2.scopes.size = t.scopes.size + 1 := by simp [Table.createScope]
  have own' : c.scope.index = t.scopes.size := congrArg ScopeId.index own
  refine ⟨?_, ?_, ?_⟩
  · refine (intact.sound.createScope .root).declare adds ?_ within ⟨?_, ?_, ?_⟩ suits
    · rw [size]
      exact Nat.lt_succ_of_lt intact.sound.rootInside
    · rw [size, own']
      exact Nat.lt_succ_self _
    · simp [noMethods]
    · simp [noFields]
  · exact intact.arranged.declare_class intact.sound adds own ⟨top, leaf⟩
  · have leveled := (intact.createScope intact.sound.rootInside).leveled
    exact leveled.declare_class adds unknown

end Intact

/-! ## Steps that link no classes and declare no globals -/

/-- Between `t` and `t'` everything stays in order, and no globals are added. -/
structure Follows (bound : Nat) (t t' : Table) : Prop where
  intact : t'.Intact bound
  persists : t.Persists t'
  globals : ∀ {id s}, t'.symbol? id = some s → s.isGlobal → id.index < t.symbols.size
  ready : t.GlobalsReady → t'.GlobalsReady

/-- No links between classes are added either. -/
structure Enlarges (bound : Nat) (t t' : Table) : Prop extends Follows bound t t' where
  course : Course (Intact bound) t t'
  under : ∀ {c d}, t'.Under c d ↔ t.Under c d

/-- Not even classes are added, and no types but those of values. -/
structure Advances (bound : Nat) (t t' : Table) : Prop extends Enlarges bound t t' where
  classes : SameClasses t t'
  proper : t.Proper → t'.Proper

/-- A symbol that is declared as something else than a global leaves the globals as they are. -/
theorem Adds.global_old (adds : Adds scope name span kind t t') (notGlobal : kind.isGlobal = false)
    (held : t'.symbol? id = some s) (isGlobal : s.isGlobal) : t.symbol? id = some s := by
  rw [adds.declares.symbol] at held
  split at held
  · cases held
    cases kind with
    | globalVariable => cases notGlobal
    | _ => cases isGlobal
  · exact held

namespace Follows

theorem refl (intact : t.Intact bound) : Follows bound t t :=
  ⟨intact, .refl t, fun held _ => symbol_bound held, id⟩

theorem trans (first : Follows bound t t') (second : Follows bound t' t'') : Follows bound t t'' := by
  refine ⟨second.intact, first.persists.trans second.persists, fun {id s} held isGlobal => ?_,
    second.ready ∘ first.ready⟩
  have below := second.globals held isGlobal
  obtain ⟨s', held'⟩ := symbol_exists below
  obtain ⟨kind, held'', core⟩ := second.persists.symbols held'
  rw [held] at held''
  cases held''
  refine first.globals held' ?_
  rw [Symbol.isGlobal, ← SymbolKind.isGlobal_core, ← core, SymbolKind.isGlobal_core]
  exact isGlobal

theorem size (follows : Follows bound t t') : t.symbols.size ≤ t'.symbols.size := follows.persists.size

/-- A change in what is filled in later, after which a global is no less initialized than before. -/
theorem edit (intact : (t.edit id f).Intact bound) (kept : ∀ kind, (f kind).core = kind.core)
    (ready : ∀ {kind v}, kind.var? = some v → v.status = .ready → ∃ v', (f kind).var? = some v' ∧ v'.status = .ready) :
    Follows bound t (t.edit id f) := by
  refine ⟨intact, .edit kept, ?_, ?_⟩
  · intro j s held _
    have below := symbol_bound held
    rwa [edit_size] at below
  · intro old j s held isGlobal
    rw [edit_symbol?] at held
    obtain ⟨s', found, rfl⟩ := Option.map_eq_some_iff.mp held
    split at isGlobal
    next here =>
      have isGlobal' : s'.isGlobal := by
        rw [Symbol.isGlobal, ← SymbolKind.isGlobal_core, ← kept, SymbolKind.isGlobal_core]
        exact isGlobal
      obtain ⟨v, isVar, settled⟩ := old j s' found isGlobal'
      rw [if_pos here]
      exact ready isVar settled
    next here =>
      rw [if_neg here]
      exact old j s' found isGlobal

end Follows

namespace Enlarges

theorem refl (intact : t.Intact bound) : Enlarges bound t t := ⟨.refl intact, .refl, .rfl⟩

theorem trans (first : Enlarges bound t t') (second : Enlarges bound t' t'') : Enlarges bound t t'' :=
  ⟨first.toFollows.trans second.toFollows, first.course.trans second.course, second.under.trans first.under⟩

theorem declare_class {c : ClassSymbol} (intact : t.Intact bound)
    (adds : Adds .root name span (.cls c) (t.createScope .root).2 t') (allows : AllowsClass bound t name span c) :
    Enlarges bound t t' := by
  have free' : (t.createScope .root).2.lookupLocal .root name = .ok none := by
    rw [createScope_lookup, if_neg, lookupRoot_eq intact.sound.rootInside, allows.free]
    intro same
    have inside := intact.sound.rootInside
    rw [same] at inside
    exact Nat.lt_irrefl _ inside
  have after := intact.declare_class adds allows
  have opened : Course (Intact bound) t (t.createScope .root).2 :=
    .single (.createScope .root) (intact.createScope intact.sound.rootInside)
  refine ⟨⟨after, (Persists.createScope t .root).trans (.declare adds allows.suits fun _ => free'),
    fun held isGlobal => symbol_bound (adds.global_old rfl held isGlobal), fun old id s held isGlobal => ?_⟩,
    opened.trans (.single (.declare adds.ran) after), fun {a b} => ?_⟩
  · exact old id s (adds.global_old rfl held isGlobal) isGlobal
  · unfold Under
    rw [adds.declares.class_eq]
    split
    next here =>
      constructor
      · rintro ⟨k, held, above⟩
        cases held
        rw [allows.bare.1] at above
        cases above
      · rintro ⟨k, held, _⟩
        have below := class_bound (t := t) (c := a) (by simp [held])
        rw [here] at below
        exact absurd below (Nat.lt_irrefl _)
    next => exact .rfl

theorem declare (intact : t.Intact bound) (adds : Adds scope name span kind t t')
    (allows : Allows bound t scope name span kind) (notGlobal : kind.isGlobal = false) : Enlarges bound t t' := by
  have after := intact.declare adds allows
  refine ⟨⟨after, .declare adds allows.suits (by simp [allows.noClass]),
    fun held isGlobal => symbol_bound (adds.global_old notGlobal held isGlobal), fun old id s held isGlobal => ?_⟩,
    .single (.declare adds.ran) after, (SameClasses.declare adds allows.noClass).shapes.links.under_iff⟩
  exact old id s (adds.global_old notGlobal held isGlobal) isGlobal

end Enlarges

namespace Advances

theorem refl (intact : t.Intact bound) : Advances bound t t := ⟨.refl intact, .refl t, id⟩

theorem trans (first : Advances bound t t') (second : Advances bound t' t'') : Advances bound t t'' :=
  ⟨first.toEnlarges.trans second.toEnlarges, first.classes.trans first.persists.scopes second.classes,
    second.proper ∘ first.proper⟩

theorem declare (intact : t.Intact bound) (adds : Adds scope name span kind t t')
    (allows : Allows bound t scope name span kind)
    (notGlobal : kind.isGlobal = false) (proper : t.Proper → kind.Proper) : Advances bound t t' :=
  ⟨.declare intact adds allows notGlobal, .declare adds allows.noClass, fun good => good.declare adds (proper good)⟩

theorem createScope (intact : t.Intact bound) (inside : scope.index < t.scopes.size) :
    Advances bound t (t.createScope scope).2 := by
  have classes : SameClasses t (t.createScope scope).2 := .createScope inside
  have after := intact.createScope inside
  exact ⟨⟨⟨after, .createScope t scope, fun held _ => symbol_bound held, id⟩, .single (.createScope scope) after,
    classes.shapes.links.under_iff⟩, classes, id⟩

/-- A change in what is filled in later, after which a global is no less initialized than before. -/
theorem edit (intact : t.Intact bound) (sound : (t.edit id f).Sound bound) (kept : ∀ kind, (f kind).core = kind.core)
    (classes : ∀ kind, (f kind).class?.map ClassSymbol.core = kind.class?.map ClassSymbol.core)
    (ready : ∀ {kind v}, kind.var? = some v → v.status = .ready → ∃ v', (f kind).var? = some v' ∧ v'.status = .ready) :
    Advances bound t (t.edit id f) := by
  have same : SameClasses t (t.edit id f) := .edit classes
  have after := intact.keep same sound
  exact ⟨⟨.edit after kept ready, .edit after, same.shapes.links.under_iff⟩, same, fun good => good.edit kept⟩

/-- A change of something else than a variable. -/
theorem edit_other (intact : t.Intact bound) (sound : (t.edit id f).Sound bound)
    (kept : ∀ kind, (f kind).core = kind.core)
    (classes : ∀ kind, (f kind).class?.map ClassSymbol.core = kind.class?.map ClassSymbol.core)
    (vars : ∀ kind, kind.var?.isSome → f kind = kind) : Advances bound t (t.edit id f) := by
  refine edit intact sound kept classes fun {kind v} isVar settled => ⟨v, ?_, settled⟩
  rw [vars kind (by simp [isVar]), isVar]

end Advances

/-! ## Steps that declare no variables without a type -/

/-- The fields of every class lie in its scope. -/
def FieldsHome (t : Table) : Prop := ∀ id k, t.class? id = some k → ∀ j ∈ k.fields, ∃ s, t.symbol? j = some s ∧
  s.scope = k.scope

/-- Variables stay as they are declared, and the fields of a class lie in its scope. -/
structure Accrues (t t' : Table) : Prop where
  vars : ∀ {id s v}, t.symbol? id = some s → s.var? = some v → t'.symbol? id = some s
  home : t.FieldsHome → t'.FieldsHome

namespace Accrues

theorem refl (t : Table) : Accrues t t := ⟨fun held _ => held, id⟩

theorem trans (first : Accrues t t') (second : Accrues t' t'') : Accrues t t'' :=
  ⟨fun held isVar => second.vars (first.vars held isVar) isVar, second.home ∘ first.home⟩

theorem declare (adds : Adds scope name span kind t t')
    (bare : ∀ k, kind.class? = some k → k.fields = []) : Accrues t t' := by
  have old {j : SymbolId} {s : Symbol} (held : t.symbol? j = some s) : t'.symbol? j = some s := by
    rw [adds.declares.symbol_old (by simp [held]), held]
  refine ⟨fun held _ => old held, fun home j k held i inside => ?_⟩
  rw [adds.declares.class_eq] at held
  split at held
  · obtain ⟨k', isClass, rfl⟩ := Option.map_eq_some_iff.mp held
    simp [bare k' isClass] at inside
  · obtain ⟨s, found, same⟩ := home j k held i inside
    exact ⟨s, old found, same⟩

/-- A change in what is filled in later. -/
theorem edit (kept : ∀ kind, (f kind).core = kind.core) (vars : ∀ kind, kind.var?.isSome → f kind = kind)
    (fields : ∀ s k', t.symbol? id = some s → (f s.kind).class? = some k' →
      ∃ k, s.class? = some k ∧ k'.scope = k.scope ∧
      ∀ j ∈ k'.fields, j ∈ k.fields ∨ ∃ s, t.symbol? j = some s ∧ s.scope = k.scope) : Accrues t (t.edit id f) := by
  have scopes {j : SymbolId} {s : Symbol} {scope : ScopeId} (held : t.symbol? j = some s) (same : s.scope = scope) :
      ∃ s', (t.edit id f).symbol? j = some s' ∧ s'.scope = scope := by
    obtain ⟨kind, held', _⟩ := (Persists.edit kept).symbols held
    exact ⟨_, held', same⟩
  refine ⟨fun {j s v} held isVar => ?_, fun home j k' held i inside => ?_⟩
  · rw [edit_symbol?, held, Option.map_some]
    split
    · rw [Symbol.mapKind, vars s.kind (by rw [show s.kind.var? = some v from isVar]; rfl)]
    · rfl
  · obtain ⟨s', found, isClass⟩ := class_symbol held
    rw [edit_symbol?, Option.map_eq_some_iff] at found
    obtain ⟨s, found, rfl⟩ := found
    split at isClass
    next here =>
      subst here
      obtain ⟨k, isClass', own, fields⟩ := fields s k' found isClass
      rw [own]
      rcases fields i inside with inside | ⟨s', held, same⟩
      · obtain ⟨s', held, same⟩ := home j k (by simp [class?, found, isClass']) i inside
        exact scopes held same
      · exact scopes held same
    next =>
      obtain ⟨s', held, same⟩ := home j k' (by simp [class?, found, isClass]) i inside
      exact scopes held same

/-- A class gets a member or a link. -/
theorem edit_class {g : ClassSymbol → ClassSymbol} (kept : ∀ kind, (SymbolKind.mapClass g kind).core = kind.core)
    (fields : ∀ k, t.class? id = some k → ∀ j ∈ (g k).fields, j ∈ k.fields ∨ ∃ s, t.symbol? j = some s ∧
    s.scope = k.scope) :
    Accrues t (t.edit id (SymbolKind.mapClass g)) := by
  apply edit kept
  · intro kind isVar
    cases kind with
    | cls => cases isVar
    | _ => rfl
  · intro s k' held isClass
    cases kind : s.kind with
    | cls k =>
      rw [kind] at isClass
      cases isClass
      have isClass : s.class? = some k := by simp [Symbol.class?, kind, SymbolKind.class?]
      have core := kept (.cls k)
      simp only [SymbolKind.mapClass, SymbolKind.core, SymbolKind.cls.injEq] at core
      exact ⟨k, isClass, (congrArg ClassSymbol.scope core :), fields k (by simp [class?, held, isClass])⟩
    | _ => simp [kind, SymbolKind.mapClass, SymbolKind.class?] at isClass

end Accrues

/-- Everything between `t` and `t'` that is a variable has a type, and fields are added in the
scopes of their classes. -/
structure Lays (bound : Nat) (t t' : Table) : Prop extends Enlarges bound t t' where
  typed : t'.Typed t.symbols.size t'.symbols.size
  accrues : t.Accrues t'

namespace Lays

theorem refl (intact : t.Intact bound) : Lays bound t t := ⟨.refl intact, .empty (Nat.le_refl _), .refl t⟩

theorem trans (first : Lays bound t t') (second : Lays bound t' t'') : Lays bound t t'' :=
  ⟨first.toEnlarges.trans second.toEnlarges, (first.typed.kept second.persists (Nat.le_refl _)).append second.typed,
    first.accrues.trans second.accrues⟩

theorem declare_class {c : ClassSymbol} (intact : t.Intact bound)
    (adds : Adds .root name span (.cls c) (t.createScope .root).2 t') (allows : AllowsClass bound t name span c) :
    Lays bound t t' := by
  refine ⟨.declare_class intact adds allows, ?_, ?_⟩
  · exact Typed.declare (t := (t.createScope .root).2) adds (by rintro _ ⟨⟩)
  · have opened : t.Accrues (t.createScope .root).2 := ⟨fun held _ => held, id⟩
    refine opened.trans (.declare adds ?_)
    rintro _ ⟨⟩
    exact allows.bare.2.2.2.2

theorem declare (intact : t.Intact bound) (adds : Adds scope name span kind t t')
    (allows : Allows bound t scope name span kind)
    (notGlobal : kind.isGlobal = false) (typed : ∀ v, kind.var? = some v → v.type.isSome) : Lays bound t t' :=
  ⟨.declare intact adds allows notGlobal, .declare adds typed, .declare adds (by simp [allows.noClass])⟩

/-- A change of something that is neither a variable nor a class, in what is filled in later. -/
theorem edit (intact : t.Intact bound) (sound : (t.edit id f).Sound bound) (kept : ∀ kind, (f kind).core = kind.core)
    (classes : ∀ kind, (f kind).class? = kind.class?) (vars : ∀ kind, kind.var?.isSome → f kind = kind) :
    Advances bound t (t.edit id f) ∧ Lays bound t (t.edit id f) := by
  have advances : Advances bound t (t.edit id f) := .edit_other intact sound kept (fun kind => by rw [classes]) vars
  refine ⟨advances, advances.toEnlarges, .empty (Nat.le_of_eq edit_size), .edit kept vars fun s k' _ isClass => ?_⟩
  exact ⟨k', (classes s.kind).symm.trans isClass, rfl, fun _ => .inl⟩

end Lays

end Table

namespace Analysis

open Table (Adds Persists Advances Lays)

variable {bound : Nat} {F : Diagnostic → Prop} {t : Table} {id : SymbolId} {scope : ScopeId}
variable {name : String} {span : Span}
  {kind : SymbolKind}

theorem declare_goes (intact : t.Intact bound) (allows : t.Allows bound scope name span kind) :
    Goes F t (Analysis.declare scope name span kind)
      (fun id t' => id = ⟨t.symbols.size⟩ ∧ Adds scope name span kind t t' ∧ t'.Intact bound) := by
  obtain ⟨t', ran, adds⟩ := Table.declare_total (t := t) allows.inside name span kind
  exact .update ran ⟨rfl, adds, intact.declare adds allows⟩ trivial

theorem createScope_goes (intact : t.Intact bound) (inside : scope.index < t.scopes.size) :
    Goes F t (Analysis.createScope scope) (fun new t' => new = ⟨t.scopes.size⟩ ∧ t' = (t.createScope scope).2 ∧
      Advances bound t t') :=
  .update rfl ⟨rfl, rfl, .createScope intact inside⟩ trivial

/-- A variable is done. -/
theorem setReady_goes (intact : t.Intact bound) (below : id.index < t.symbols.size) :
    Goes F t (Analysis.setStatus id .ready)
      (fun _ t' => t' = t.edit id (·.mapVariable fun var => { var with status := .ready }) ∧ Advances bound t t') := by
  obtain ⟨s, held⟩ := Table.symbol_exists below
  have advances : Advances bound t (t.edit id (·.mapVariable fun var => { var with status := .ready })) := by
    apply Advances.edit intact
    · exact intact.sound.edit_variable (fun sound => ⟨sound.type, by simp⟩) fun known => known
    · intro kind
      cases kind <;> rfl
    · simp
    · intro kind v isVar _
      cases kind <;> cases isVar <;> exact ⟨_, rfl, rfl⟩
  have ran : (do return ((), ← t.setStatus id .ready) : Except Fault (Unit × Table)) =
      .ok ((), t.edit id (·.mapVariable fun var => { var with status := .ready })) := by
    rw [Table.setStatus, Table.modify_edit held]
    rfl
  apply Goes.update ran
  · exact ⟨rfl, advances⟩
  · trivial

/-- A method gets overriding methods or can be called from now on. -/
theorem modifyMethod_goes {f : MethodSymbol → MethodSymbol} (intact : t.Intact bound)
    (below : id.index < t.symbols.size)
    (change : ∀ {m : MethodSymbol}, m.Sound bound t.symbols.size → (f m).Sound bound t.symbols.size)
    (kept : ∀ m : MethodSymbol,
    { f m with overriders := [], ready := true } = { m with overriders := [], ready := true }) :
    Goes F t (Analysis.modifySymbol id (SymbolKind.mapMethod f)) (fun _ t' => t' = t.edit id (SymbolKind.mapMethod f) ∧
      Advances bound t t' ∧ t.Accrues t') := by
  obtain ⟨s, held⟩ := Table.symbol_exists below
  have core : ∀ kind, (SymbolKind.mapMethod f kind).core = kind.core := by
    intro kind
    cases kind with
    | method m => exact congrArg SymbolKind.method (kept m)
    | _ => rfl
  have lays : Advances bound t (t.edit id (SymbolKind.mapMethod f)) ∧
      Lays bound t (t.edit id (SymbolKind.mapMethod f)) := by
    apply Lays.edit intact (intact.sound.edit fun held => intact.sound.map_method held change) core
    · simp
    · intro kind isVar
      cases kind <;> first | rfl | cases isVar
  exact .modify held ⟨rfl, lays.1, lays.2.accrues⟩ trivial

/-- A class gets a member. -/
theorem modifyMembers_goes {f : ClassSymbol → ClassSymbol} (intact : t.Intact bound) (below : id.index < t.symbols.size)
    (change : ∀ {c : ClassSymbol}, c.Sound t.symbols.size t.scopes.size → (f c).Sound t.symbols.size t.scopes.size)
    (kept : ∀ c : ClassSymbol, (f c).core = c.core)
    (fields : ∀ k, t.class? id = some k → ∀ j ∈ (f k).fields, j ∈ k.fields ∨ ∃ s, t.symbol? j = some s ∧
    s.scope = k.scope) :
    Goes F t (Analysis.modifySymbol id (SymbolKind.mapClass f))
      (fun _ t' => Advances bound t t' ∧ Lays bound t t' ∧ t' = t.edit id (SymbolKind.mapClass f)) := by
  obtain ⟨s, held⟩ := Table.symbol_exists below
  have core : ∀ kind, (SymbolKind.mapClass f kind).core = kind.core := by
    intro kind
    cases kind with
    | cls c =>
      exact congrArg (fun k : ClassSymbol => SymbolKind.cls { k with upper := none, children := [], depth := none })
        (kept c)
    | _ => rfl
  have advances : Advances bound t (t.edit id (SymbolKind.mapClass f)) := by
    apply Advances.edit_other intact (intact.sound.edit fun held => intact.sound.map_class held change) core
    · intro kind
      cases kind with
      | cls c => exact congrArg some (kept c)
      | _ => rfl
    · intro kind isVar
      cases kind <;> first | rfl | cases isVar
  exact .modify held ⟨advances, ⟨advances.toEnlarges, .empty (Nat.le_of_eq Table.edit_size), .edit_class core fields⟩,
    rfl⟩ trivial

/-- The functions of a name get one more. -/
theorem addFunction_goes {added : SymbolId} (intact : t.Intact bound) (below : id.index < t.symbols.size)
    (there : added.index < t.symbols.size) :
    Goes F t (Analysis.modifySymbol id (·.mapOverloads fun set => { set with functions := set.functions ++ [added] }))
      (fun _ t' => Advances bound t t' ∧ Lays bound t t' ∧ t.Groups t') := by
  obtain ⟨s, held⟩ := Table.symbol_exists below
  have core : ∀ kind : SymbolKind,
      (kind.mapOverloads fun set => { set with functions := set.functions ++ [added] }).core = kind.core := by
    intro kind
    cases kind <;> rfl
  have lays := Lays.edit intact (intact.sound.edit_overloads there : (t.edit id _).Sound bound) core (by simp)
    fun kind isVar => by
    cases kind <;> first | rfl | cases isVar
  exact .modify held ⟨lays.1, lays.2, .edit _⟩ trivial

end Analysis

end Quasicode
