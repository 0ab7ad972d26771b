import Quasicode.Binding.Declaration
import Quasicode.Proofs.TableIntact

/-!
The declaration of classes, their members and functions. From an intact table and a program as it is read it always goes
through; what has a symbol afterwards was declared. On a quiet run everything has a symbol, with the types that were
written.
-/
namespace Quasicode

open Analysis
open Diagnostic (Plain)

/-! ## Programs whose declarations are in the table -/

/-- The type that is written, or the one that stands for none. -/
def TypeName.Means (t : Table) (otherwise : Ty) : Option TypeName → Ty → Prop
  | some type, ty => type.resolve t.classes = .ok ty
  | none, ty => ty = otherwise

/-- A function is declared with the number of parameters that it has, and of those before the first default. -/
def Function.Sized (t : Table) (f : Function) : Prop := ∀ id, f.symbol = some id → ∃ s g, t.symbol? id = some s ∧
  s.function? = some g ∧ g.minArgs = Binding.requiredParams f.params ∧ g.maxArgs = f.params.length ∧
  g.params.length = f.params.length

/-- A function with its symbol, if it could be declared. -/
structure Function.Declared (bound : Nat) (t : Table) (f : Function) : Prop where
  name : f.name.Fit bound
  params : ∀ p ∈ f.params, p.Fresh bound True
  returns : ∀ type, f.returns = some type → type.Fit bound True
  body : holdsInAll (.fresh bound True) f.body
  endSpan : f.endSpan.Within bound
  unplaced : f.scope = none
  symbol : f.Sized t

/-- The functions of a name are kept behind an id. -/
def Table.IsOverloads (t : Table) (id : SymbolId) : Prop := ∃ s set, t.symbol? id = some s ∧ s.kind = .overloads set

/-- A function whose symbol is there, with the types that are written, among the functions of its name. -/
structure Function.Signed (t : Table) (owner : Option Binding.MethodOwner) (f : Function) : Prop where
  grouped : ∃ id, f.overloads = some id ∧ t.IsOverloads id
  symbol : ∃ id s g, f.symbol = some id ∧ t.symbol? id = some s ∧ s.kind.core = (Binding.functionKind f g owner).core ∧
    TypeName.Means t .void f.returns g.returns ∧
    List.Forall₂ (fun p => TypeName.Means t .any p.typeName) f.params g.params

structure Method.Declared (bound : Nat) (t : Table) (m : Method) : Prop where
  function : m.function.Declared bound t
  staticSpan : ∀ span, m.staticSpan = some span → span.Within bound

/-- A field with its symbol, if it could be declared. -/
structure Field.Declared (bound : Nat) (t : Table) (f : Field) : Prop where
  initializer : ∀ e, f.initializer = some e → e.All (Expr.Fresh bound True)
  symbol : ∀ id, f.symbol = some id → id.index < t.symbols.size

/-- A field is declared as it is written, in the scope of its class, and cannot be read yet. -/
def Field.Lies (t : Table) (scope : Option ScopeId) (f : Field) : Prop := ∀ id, f.symbol = some id →
  ∃ s v, t.symbol? id = some s ∧ s.var? = some v ∧ scope = some s.scope ∧
  v.kind = (if f.isStatic then .staticField else .instanceField) ∧ v.visibility = f.visibility ∧ v.status = .pending

/-- A field whose symbol is there, with the type that is written. -/
structure Field.Signed (t : Table) (f : Field) : Prop where
  symbol : ∃ id s v ty, f.symbol = some id ∧ t.symbol? id = some s ∧ s.var? = some v ∧ v.type = some ty ∧
    f.typeName.resolve t.classes = .ok ty

/-- A class has a symbol with the scope of the class, or neither of them. -/
def Class.Housed (t : Table) (c : Class) : Prop :=
  c.symbol = none ∧ c.scope = none ∨ ∃ id k, c.symbol = some id ∧ t.class? id = some k ∧ c.scope = some k.scope

/-- What declarations tell of a class and its members. -/
structure Class.Told (t : Table) (c : Class) : Prop where
  housed : c.Housed t
  methods : ∀ m ∈ c.methods, m.function.Sized t
  fields : ∀ f ∈ c.fields, f.Lies t c.scope

/-- A class with its symbol and its scope, declared after the first `count` symbols. -/
structure Class.Opened (count : Nat) (t : Table) (c : Class) (id : SymbolId) : Prop where
  newer : count ≤ id.index
  plain : c.templateParams = []
  held : ∃ scope k, c.scope = some scope ∧ t.class? id = some k ∧ k.scope = scope

/-- A class that may have been declared, before its members are. -/
structure Class.Begun (bound count : Nat) (t : Table) (c : Class) : Prop where
  name : c.name.Fit bound
  superclass : ∀ type, c.superclass = some type → type.Fit bound (c.templateParams = [])
  methods : ∀ m ∈ c.methods, m.Fresh bound (c.templateParams = [])
  fields : ∀ f ∈ c.fields, f.Fresh bound (c.templateParams = [])
  opened : ∀ id, c.symbol = some id → c.Opened count t id
  housed : c.Housed t

/-- A class that may have been declared, with its members. One that has no symbol is never looked at again. -/
structure Class.Declared (bound count : Nat) (t : Table) (c : Class) : Prop where
  name : c.name.Fit bound
  superclass : ∀ type, c.superclass = some type → type.Fit bound (c.templateParams = [])
  opened : ∀ id, c.symbol = some id → c.Opened count t id
  methods : c.symbol.isSome → ∀ m ∈ c.methods, m.Declared bound t
  fields : c.symbol.isSome → ∀ f ∈ c.fields, f.Declared bound t

/-- A class whose symbol is there, and all of its members. -/
structure Class.Signed (t : Table) (c : Class) : Prop where
  symbol : ∃ id, c.symbol = some id ∧ ∀ m ∈ c.methods, m.function.Signed t (some ⟨id, c.name.name, m⟩)
  fields : ∀ f ∈ c.fields, f.Signed t

/-- The symbol of the class that an item declares. -/
def Item.classSymbol : Item → Option SymbolId
  | .cls c => c.symbol
  | _ => none

/-- An item whose class, function or statement is as told. -/
def Item.Are (classes : Class → Prop) (functions : Function → Prop) (stmts : Stmt → Prop) : Item → Prop
  | .cls c => classes c
  | .function f => functions f
  | .stmt s => stmts s

section Stable

variable {bound count : Nat} {t t' : Table} {owner : Option Binding.MethodOwner}
variable {f : Function} {id : SymbolId} {c : Class}

theorem TypeName.Means.mono {otherwise ty : Ty} {written : Option TypeName} (persists : t.Persists t')
    (means : TypeName.Means t otherwise written ty) : TypeName.Means t' otherwise written ty := by
  cases written with
  | none => exact means
  | some type => exact persists.resolve means

theorem Function.Fresh.declared (fresh : f.Fresh bound True) : f.Declared bound t :=
  ⟨fresh.name, fresh.params, fresh.returns, fresh.body, fresh.endSpan, fresh.unplaced,
    by simp [Function.Sized, fresh.unset]⟩

theorem Function.Sized.mono (persists : t.Persists t') (sized : f.Sized t) : f.Sized t' := by
  intro id same
  obtain ⟨s, g, held, isFunction, counts⟩ := sized id same
  obtain ⟨s', held', isFunction'⟩ := persists.function held isFunction
  exact ⟨s', g, held', isFunction', counts⟩

theorem Function.Declared.mono (persists : t.Persists t') (declared : f.Declared bound t) :
    f.Declared bound t' :=
  { declared with symbol := declared.symbol.mono persists }

theorem Table.IsOverloads.mono (persists : t.Persists t') (isOverloads : t.IsOverloads id) : t'.IsOverloads id := by
  obtain ⟨s, set, held, kind⟩ := isOverloads
  obtain ⟨kind', held', core⟩ := persists.symbols held
  rw [kind] at core
  cases kind' with
  | overloads set' => exact ⟨_, set', held', rfl⟩
  | _ => cases core

theorem Function.Signed.mono (persists : t.Persists t') (signed : f.Signed t owner) : f.Signed t' owner := by
  obtain ⟨id, s, g, same, held, core, returns, params⟩ := signed.symbol
  obtain ⟨kind, held', core'⟩ := persists.symbols held
  obtain ⟨set, grouped, isOverloads⟩ := signed.grouped
  exact ⟨⟨set, grouped, isOverloads.mono persists⟩, id, _, g, same, held', core'.trans core, returns.mono persists,
    params.imp fun _ _ => .mono persists⟩

theorem Method.Declared.mono {m : Method} (persists : t.Persists t') (declared : m.Declared bound t) :
    m.Declared bound t' :=
  ⟨declared.function.mono persists, declared.staticSpan⟩

theorem Field.Declared.mono {f : Field} (persists : t.Persists t') (declared : f.Declared bound t) :
    f.Declared bound t' :=
  ⟨declared.initializer, fun id same => persists.below (declared.symbol id same)⟩

theorem Field.Lies.mono {scope : Option ScopeId} {f : Field} (accrues : t.Accrues t')
    (lies : f.Lies t scope) : f.Lies t' scope := by
  intro id same
  obtain ⟨s, v, held, isVar, rest⟩ := lies id same
  exact ⟨s, v, accrues.vars held isVar, isVar, rest⟩

theorem Field.Signed.mono {f : Field} (persists : t.Persists t') (signed : f.Signed t) : f.Signed t' := by
  obtain ⟨id, s, v, ty, same, held, isVar, typed, resolved⟩ := signed.symbol
  obtain ⟨s', v', held', isVar', type, _⟩ := persists.var held isVar
  exact ⟨id, s', v', ty, same, held', isVar', type.trans typed, persists.resolve resolved⟩

theorem Class.Opened.mono (persists : t.Persists t') (opened : c.Opened count t id) : c.Opened count t' id := by
  obtain ⟨scope, k, placed, held, same⟩ := opened.held
  obtain ⟨k', held', scopes, _⟩ := persists.cls held
  exact ⟨opened.newer, opened.plain, scope, k', placed, held', scopes.trans same⟩

theorem Class.Housed.mono (persists : t.Persists t') (housed : c.Housed t) : c.Housed t' := by
  refine housed.imp id ?_
  rintro ⟨id, k, same, held, own⟩
  obtain ⟨k', held', own', _⟩ := persists.cls held
  exact ⟨id, k', same, held', own'.symm ▸ own⟩

theorem Class.Told.mono (persists : t.Persists t') (accrues : t.Accrues t') (told : c.Told t) : c.Told t' :=
  ⟨told.housed.mono persists, fun m inside => (told.methods m inside).mono persists,
    fun f inside => (told.fields f inside).mono accrues⟩

theorem Class.Begun.mono (persists : t.Persists t') (begun : c.Begun bound count t) : c.Begun bound count t' :=
  { begun with opened := fun id same => (begun.opened id same).mono persists, housed := begun.housed.mono persists }

theorem Class.Begun.older {count' : Nat} (le : count' ≤ count) (begun : c.Begun bound count t) :
    c.Begun bound count' t :=
  { begun with
    opened := fun id same => { begun.opened id same with newer := Nat.le_trans le (begun.opened id same).newer } }

theorem Class.Declared.mono (persists : t.Persists t') (declared : c.Declared bound count t) :
    c.Declared bound count t' :=
  ⟨declared.name, declared.superclass, fun id same => (declared.opened id same).mono persists,
    fun some m inside => (declared.methods some m inside).mono persists,
    fun some f inside => (declared.fields some f inside).mono persists⟩

theorem Class.Signed.mono (persists : t.Persists t') (signed : c.Signed t) : c.Signed t' := by
  obtain ⟨id, same, methods⟩ := signed.symbol
  exact ⟨⟨id, same, fun m inside => (methods m inside).mono persists⟩,
    fun f inside => (signed.fields f inside).mono persists⟩

theorem Item.Are.mono {classes classes' : Class → Prop} {functions functions' : Function → Prop}
    {stmts stmts' : Stmt → Prop} {item : Item} (are : item.Are classes functions stmts)
    (ofClass : ∀ c, classes c → classes' c)
    (ofFunction : ∀ f, functions f → functions' f) (ofStmt : ∀ s, stmts s → stmts' s) :
    item.Are classes' functions' stmts' := by
  cases item with
  | cls c => exact ofClass c are
  | function f => exact ofFunction f are
  | stmt s => exact ofStmt s are

end Stable

/-- Between `t` and `t'` declarations are made, each of them to its end. -/
structure Table.Fills (bound : Nat) (t t' : Table) : Prop extends Lays bound t t' where
  declared : t.Declared none → t'.Declared none

namespace Table.Fills

variable {bound : Nat} {t t' t'' : Table}

theorem refl (intact : t.Intact bound) : Fills bound t t := ⟨.refl intact, id⟩

theorem trans (first : Fills bound t t') (second : Fills bound t' t'') : Fills bound t t'' :=
  ⟨first.toLays.trans second.toLays, second.declared ∘ first.declared⟩

end Table.Fills

namespace Binding

open Table (Fills Lays Persists)

variable {bound count : Nat} {t t₀ : Table} {scope : ScopeId}
variable {c : Class} {type : TypeName} {id cls : SymbolId} {f : Function} {signature : FunctionSymbol}
variable {owner : Option MethodOwner}
  {items : List Item}

/-! ## Classes -/

theorem isTaken_answers (sound : t.Sound bound) (name : String) :
    Answers (Plain bound) t (isTaken name) (fun _ => True) := by
  unfold isTaken
  apply Goes.askRoot
  cases found : t.lookupRoot name with
  | none => exact .done
  | some id =>
    obtain ⟨s, held, _⟩ := sound.found found
    exact .askSymbol held (.done)

/-- What is declared of a class, or left as it is read. -/
theorem declareClass_goes (fresh : c.Fresh bound) (intact : t.Intact bound) :
    Goes (Plain bound) t (declareClass c) (fun c' t' => Fills bound t t' ∧ c'.Begun bound t.symbols.size t')
      fun c' t' => t.Proper → t'.Proper ∧ c'.symbol.isSome := by
  have asRead {t' : Table} : c.Begun bound t.symbols.size t' :=
    ⟨fresh.name, fresh.superclass, fresh.methods, fresh.fields, by simp [fresh.unset],
      .inl ⟨fresh.unset, fresh.unplaced⟩⟩
  unfold declareClass
  extract_lets name rest
  -- The class itself, once its name stands for something.
  have opens {t₁ : Table} (lays : Fills bound t t₁) (proper : t.Proper → t₁.Proper)
      (free : t₁.lookupRoot (classKey name) = none) (plain : c.templateParams = []) :
      Goes (Plain bound) t₁ (rest ()) (fun c' t' => Fills bound t t' ∧ c'.Begun bound t.symbols.size t')
        fun c' t' => t.Proper → t'.Proper ∧ c'.symbol.isSome := by
    apply (createScope_goes lays.intact lays.intact.sound.rootInside).seq
    rintro own _ ⟨rfl, rfl, advances⟩
    obtain ⟨t', ran, adds⟩ :=
      Table.declare_total (t := (t₁.createScope .root).2) advances.intact.sound.rootInside (classKey name)
      c.name.span (.cls { displayName := name, plainName := name, builtin := false, scope := ⟨t₁.scopes.size⟩ })
    have opened : Fills bound t₁ t' := by
      refine ⟨.declare_class lays.intact adds ⟨fresh.name.within,
        SymbolKind.suits_classKey fresh.name.named _, free, rfl, rfl, rfl, rfl, rfl, rfl⟩, fun declared => ?_⟩
      have free' : t₁.lookupLocal .root (classKey name) = .ok none := by
        rw [Table.lookupRoot_eq lays.intact.sound.rootInside, free]
      exact (declared.open_class ran rfl free' fresh.name.named ⟨rfl, rfl, rfl⟩ rfl rfl).1
    have declared : ∃ k, t'.class? ⟨t₁.symbols.size⟩ = some k ∧ k.scope = ⟨t₁.scopes.size⟩ := by
      rw [adds.declares.class_eq]
      exact ⟨_, if_pos rfl, rfl⟩
    have begun : Class.Begun bound t.symbols.size t'
        { c with symbol := some ⟨t₁.symbols.size⟩, scope := some ⟨t₁.scopes.size⟩ } := by
      obtain ⟨k, held, own⟩ := declared
      refine ⟨fresh.name, fresh.superclass, fresh.methods, fresh.fields, ?_,
        .inr ⟨_, k, rfl, held, congrArg some own.symm⟩⟩
      rintro id same
      cases same
      exact ⟨lays.size, plain, _, k, rfl, held, own⟩
    apply Goes.does ran
    refine .pure ⟨lays.trans opened, begun⟩ fun good => ⟨?_, rfl⟩
    exact (advances.proper (proper good)).declare adds ⟨nofun, nofun⟩
  apply Goes.ite
  · intro _
    exact .reports ⟨fresh.name.within, rfl⟩ (.pure ⟨.refl intact, asRead⟩ trivial)
  · intro plain
    replace plain : c.templateParams = [] := by simpa using plain
    apply Goes.askRoot
    apply (isTaken_answers intact.sound name).seq
    rintro taken -
    apply Goes.ite
    · intro _
      exact .reports ⟨fresh.name.within, rfl⟩ (.pure ⟨.refl intact, asRead⟩ trivial)
    · intro unknown
      have free : t.lookupRoot (classKey name) = none := by
        cases held : t.lookupRoot (classKey name) with
        | none => rfl
        | some id => simp [held] at unknown
      apply Goes.askRoot
      apply Goes.ite
      · intro unused
        have allows : t.Allows bound .root name c.name.span (.className false) :=
          ⟨intact.sound.rootInside, fresh.name.within, trivial, SymbolKind.suits_name fresh.name.named _, rfl⟩
        apply (declare_goes intact allows).seq
        rintro _ t₁ ⟨rfl, adds, intact₁⟩
        have lays : Fills bound t t₁ := by
          refine ⟨.declare intact adds allows rfl (by rintro _ ⟨⟩), fun declared => ?_⟩
          have freeName : t.lookupLocal .root name = .ok none := by
            rw [Table.lookupRoot_eq intact.sound.rootInside, Option.isNone_iff_eq_none.mp unused]
          exact declared.declare_other adds.declares freeName rfl rfl
        have stillFree : t₁.lookupRoot (classKey name) = none := by
          have found := adds.declares.lookup .root (classKey name)
          rw [if_neg fun same => classKey_ne name same.2, Table.lookupRoot_eq intact.sound.rootInside,
            Table.lookupRoot_eq intact₁.sound.rootInside, free] at found
          exact Except.ok.inj found
        exact opens lays (fun good => good.declare adds ⟨nofun, nofun⟩) stillFree plain
      · intro _
        exact opens (.refl intact) id free plain

/-! ## Functions and methods -/

/-- What a written type stands for is spelled with the names of classes. -/
theorem resolveType_spelled (fit : type.Fit bound True) :
    Answers (Plain bound) t (resolveType type) (fun ty => ty.Over t ∧ (t.Declared none → ty.Spelled t.Known))
      fun ty => type.resolve t.classes = .ok ty ∧ ty.Proper := by
  unfold resolveType
  apply Goes.askTable
  rcases TypeName.resolve_cases (t := t) fit with ⟨ty, resolved, known, proper⟩ | ⟨name, span, unresolved, within⟩
  · simp only [resolved]
    exact .pure ⟨rfl, known, fun declared => declared.resolve_spelled fit.written resolved⟩ ⟨rfl, proper⟩
  · simp only [unresolved]
    exact .reports ⟨within, rfl⟩ (.pure ⟨rfl, ⟨trivial, nofun⟩, fun _ => trivial⟩ trivial)

theorem paramTypes_answers {params : List Param} (fresh : ∀ p ∈ params, p.Fresh bound True) :
    Answers (Plain bound) t (paramTypes params) (fun types => types.length = params.length ∧ ∀ ty ∈ types,
      ty.Below t.symbols.size ∧ (t.Declared none → ty.Spelled t.Known))
      fun types => List.Forall₂ (fun p => TypeName.Means t .any p.typeName) params types ∧ ∀ ty ∈ types, ty.Proper := by
  induction params with
  | nil => exact .pure (by simp) ⟨.nil, by simp⟩
  | cons p ps ih =>
    unfold paramTypes
    extract_lets rest
    have others (ty : Ty) (below : ty.Below t.symbols.size ∧ (t.Declared none → ty.Spelled t.Known)) :
        Answers (Plain bound) t (rest ty)
          (fun types => types.length = (p :: ps).length ∧ ∀ ty ∈ types, ty.Below t.symbols.size ∧
          (t.Declared none → ty.Spelled t.Known)) fun types => TypeName.Means t .any p.typeName ty ∧ ty.Proper →
            List.Forall₂ (fun p => TypeName.Means t .any p.typeName) (p :: ps) types ∧ ∀ ty ∈ types, ty.Proper := by
      apply (ih fun q inside => fresh q (List.mem_cons_of_mem _ inside)).bind
      rintro types ⟨length, belows⟩
      refine .pure ⟨congrArg Nat.succ length, List.forall_mem_cons.mpr ⟨below, belows⟩⟩
        fun known here => ⟨.cons here.1 known.1, ?_⟩
      exact List.forall_mem_cons.mpr ⟨here.2, known.2⟩
    cases written : p.typeName with
    | none =>
      rw [written] at others
      exact (others .any ⟨trivial, fun _ => trivial⟩).mono (fun _ holds => holds) fun _ _ known => known ⟨rfl, trivial⟩
    | some type =>
      rw [written] at others
      exact (resolveType_spelled ((fresh p List.mem_cons_self).typeName type written)).bind
        fun ty known => others ty ⟨known.1.below, known.2⟩

/-- The set of the functions of a name is there, or it is declared. -/
theorem overloadSet_total {name : String} {span : Span} (intact : t.Intact bound) (inside : scope.index < t.scopes.size)
    (named : IsName name) (within : span.Within bound) (forMethods : Bool) :
    ∃ set t₁ s functions, t.overloadSet scope name span forMethods = .ok (set, t₁) ∧
      Table.Advances bound t t₁ ∧ Lays bound t t₁ ∧ t.Groups t₁ ∧ t₁.symbol? set = some s ∧
      s.kind = .overloads functions := by
  obtain ⟨found, asked⟩ := Table.lookupLocal_total inside (overloadKey name)
  simp only [Table.overloadSet, asked, ok_bind]
  cases found with
  | some set =>
    obtain ⟨s, held, _, isSet⟩ := intact.sound.named asked
    obtain ⟨functions, kind⟩ := (intact.sound.keyed held).overloads name isSet
    exact ⟨set, t, s, functions, rfl, .refl intact, .refl intact, .refl t, held, kind⟩
  | none =>
    obtain ⟨t₁, ran, adds⟩ := Table.declare_total (t := t) inside (overloadKey name) span (.overloads ⟨forMethods, []⟩)
    have noFunctions : (SymbolKind.overloads ⟨forMethods, []⟩).Sound bound (t.symbols.size + 1) t.scopes.size :=
      fun id inside => absurd inside List.not_mem_nil
    have proper : (SymbolKind.overloads ⟨forMethods, []⟩).Proper := by
      constructor
      · intro v ty isVar
        cases isVar
      · intro f isFunction
        cases isFunction
    have advances : Table.Advances bound t t₁ := .declare intact adds ⟨inside, within, noFunctions,
      SymbolKind.suits_overloadKey named _, rfl⟩ rfl fun _ => proper
    exact ⟨_, t₁, _, _, ran, advances,
      ⟨advances.toEnlarges, .declare adds (by rintro _ ⟨⟩), .declare adds (by rintro _ ⟨⟩)⟩,
      ⟨fun declared => declared.declare_other adds.declares asked rfl rfl, adds.declares.grows⟩, adds.held, rfl⟩

theorem addOverload_goes {name : Ident} {forMethods : Bool} (intact : t.Intact bound)
    (inside : scope.index < t.scopes.size) (fit : name.Fit bound) (there : id.index < t.symbols.size) :
    Goes (Plain bound) t (addOverload scope name forMethods id)
      (fun set t' => Table.Advances bound t t' ∧ Lays bound t t' ∧ t.Groups t' ∧ t'.IsOverloads set) := by
  obtain ⟨set, t₁, s, functions, ran, advances, lays, groups, held, kind⟩ :=
    overloadSet_total intact inside fit.named fit.within forMethods
  unfold addOverload
  apply Goes.does ran
  apply Goes.askSymbol held
  simp only [kind]
  apply (addFunction_goes advances.intact (Table.symbol_bound held) (advances.persists.below there)).seq
  rintro _ t₂ ⟨advances₂, lays₂, groups₂⟩
  exact .pure ⟨advances.trans advances₂, lays.trans lays₂, groups.trans groups₂,
    Table.IsOverloads.mono advances₂.persists ⟨s, functions, held, kind⟩⟩ trivial

theorem isClassNameIn_answers (sound : t.Sound bound) (inside : scope.index < t.scopes.size) (name : String) :
    Answers (Plain bound) t (isClassNameIn scope name) (fun _ => True) := by
  unfold isClassNameIn
  apply Goes.askLocal sound inside
  intro found _ there
  cases found with
  | none => exact .done
  | some id =>
    obtain ⟨s, held, _⟩ := there id rfl
    exact .askSymbol held (.done)

/-- The owner of a method can be mentioned. -/
structure MethodOwner.Fit (bound count : Nat) (owner : MethodOwner) : Prop where
  cls : owner.cls.index < count
  staticSpan : ∀ span, owner.method.staticSpan = some span → span.Within bound

theorem functionKind_sound {n scopes : Nat}
    (fresh : f.Fresh bound True) (sound : signature.Sound n) (fit : ∀ o, owner = some o → o.Fit bound n) :
    (functionKind f signature owner).Sound bound n scopes := by
  cases owner with
  | none => exact sound
  | some o =>
    obtain ⟨cls, staticSpan⟩ := fit o rfl
    refine ⟨sound, cls, nofun, fresh.name.within, staticSpan, ?_⟩
    rintro span same
    obtain ⟨type, written, rfl⟩ := Option.map_eq_some_iff.mp same
    exact (fresh.returns type written).within

theorem functionKind_proper (proper : signature.Proper) : (functionKind f signature owner).Proper := by
  cases owner with
  | none => exact ⟨nofun, fun same => Option.some.inj same ▸ proper⟩
  | some o => exact ⟨nofun, fun same => Option.some.inj same ▸ proper⟩

theorem declareFunction_goes (intact : t.Intact bound) (inside : scope.index < t.scopes.size)
    (fresh : f.Fresh bound True) (fit : ∀ o, owner = some o → o.Fit bound t.symbols.size)
    (owned : ∀ o, owner = some o → ∃ k, t.class? o.cls = some k ∧ k.scope = scope) :
    Goes (Plain bound) t (declareFunction scope owner f)
      (fun f' t' => Fills bound t t' ∧ f'.Declared bound t')
      fun f' t' => t.Proper → t'.Proper ∧ f'.Signed t' owner := by
  unfold declareFunction
  apply (paramTypes_answers fresh.params).then
  rintro params ⟨length, belows⟩
  extract_lets name key declared
  have declares (returns : Ty) (below : returns.Below t.symbols.size ∧ (t.Declared none → returns.Spelled t.Known)) :
      Goes (Plain bound) t (declared returns) (fun f' t' => Fills bound t t' ∧ f'.Declared bound t')
        fun f' t' => TypeName.Means t .void f.returns returns ∧ (returns = .void ∨ returns.Proper) →
          (List.Forall₂ (fun p => TypeName.Means t .any p.typeName) f.params params ∧ ∀ ty ∈ params, ty.Proper) →
            t.Proper → t'.Proper ∧ f'.Signed t' owner := by
    have refused {cause : Cause} {B : Function → Table → Prop} (other : cause.isPlain) :
        Goes (Plain bound) t (do report cause f.name.span; return f)
          (fun f' t' => Fills bound t t' ∧ f'.Declared bound t') B :=
      .reports ⟨fresh.name.within, other⟩ (.pure ⟨.refl intact, fresh.declared⟩ trivial)
    apply Goes.askLocal intact.sound inside
    intro found asked _
    apply Goes.ite
    · exact fun _ => refused rfl
    · intro unknown
      obtain rfl : found = none := by simpa using unknown
      apply (isClassNameIn_answers intact.sound inside name).seq
      intro taken _
      apply Goes.ite
      · exact fun _ => refused rfl
      · intro _
        extract_lets signature
        have allows : t.Allows bound scope key f.name.span (functionKind f signature owner) := by
          refine ⟨inside, fresh.name.within, functionKind_sound fresh ?_ ?_,
            SymbolKind.suits_functionKey fresh.name.named _ _, by cases owner <;> rfl⟩
          · exact FunctionSymbol.Sound.mono (Nat.le_succ _) ⟨below.1, fun ty inside => (belows ty inside).1, rfl⟩
          · intro o same
            exact ⟨Nat.lt_succ_of_lt (fit o same).cls, (fit o same).staticSpan⟩
        have notGlobal : (functionKind f signature owner).isGlobal = false := by cases owner <;> rfl
        apply (declare_goes intact allows).seq
        rintro _ t₁ ⟨rfl, adds, intact₁⟩
        have noVar : ∀ v, (functionKind f signature owner).var? = some v → v.type.isSome := by
          cases owner <;> rintro _ ⟨⟩
        have first : Lays bound t t₁ := .declare intact adds allows notGlobal noVar
        have held := adds.held
        apply (addOverload_goes intact₁ (first.persists.inside inside) fresh.name (Table.symbol_bound held)).seq
        rintro set t₂ ⟨second, laid₂, groups, isOverloads⟩
        have members : Goes (Plain bound) t₂ (owner.forM fun owner =>
            modifySymbol owner.cls (·.mapClass fun c => { c with methods := c.methods ++ [⟨t.symbols.size⟩] }))
            (fun _ t₃ => Table.Advances bound t₂ t₃ ∧ Lays bound t₂ t₃ ∧ (t.Declared none → t₃.Declared none)) := by
          cases owner with
          | none =>
            exact .pure ⟨.refl second.intact, .refl second.intact, fun declared =>
              groups.declared (declared.declare_other adds.declares asked rfl rfl)⟩ trivial
          | some o =>
            have below₂ {id : SymbolId} (below : id.index < t₁.symbols.size) := second.persists.below below
            apply (modifyMembers_goes second.intact (below₂ (first.persists.below (fit o rfl).cls)) _ _ _).mono
            · rintro _ t₃ ⟨third, laid₃, rfl⟩
              refine ⟨third, laid₃, fun whole => ?_⟩
              obtain ⟨k, isClass, rfl⟩ := owned o rfl
              obtain ⟨k₂, isClass₂, _, own, _⟩ := (adds.declares.grows.trans groups.grows).classes isClass
              have pending := groups.declared
                (whole.declare_method adds.declares asked ⟨rfl, ⟨f.name.name, fresh.name.named, rfl⟩,
                fun ty inside => (belows ty inside).2 whole, below.2 whole⟩)
              exact pending.list_method (groups.grows.methods held rfl) rfl isClass₂ own.symm
            · exact fun _ _ _ _ => trivial
            · intro c sound
              refine ⟨sound.scope, List.forall_mem_append.mpr ⟨sound.methods, ?_⟩, sound.fields⟩
              simpa using below₂ (Table.symbol_bound held)
            · exact fun c => rfl
            · exact fun _ _ _ => .inl
        apply members.seq
        rintro _ t₃ ⟨third, laid₃, filled⟩
        have later : Fills bound t t₃ := ⟨first.trans (laid₂.trans laid₃), filled⟩
        have proper : signature.Proper → t.Proper → t₃.Proper := fun known good =>
          third.proper (second.proper (good.declare adds (functionKind_proper known)))
        refine .pure ⟨later, ?_⟩ fun known known' good => ⟨proper ⟨known'.2, known.2⟩ good, ?_⟩
        · exact ⟨fresh.name, fresh.params, fresh.returns, fresh.body, fresh.endSpan, fresh.unplaced, fun id same => by
            cases same
            obtain ⟨s, held', isFunction'⟩ :=
              (laid₂.trans laid₃).persists.function (g := signature) held (by cases owner <;> rfl)
            exact ⟨s, signature, held', isFunction', rfl, length, length⟩⟩
        · obtain ⟨kind, held₃, core⟩ := (second.trans third).persists.symbols held
          refine ⟨⟨set, rfl, isOverloads.mono third.persists⟩, ⟨t.symbols.size⟩, _, signature, rfl, held₃,
            core.trans ?_, known.1.mono later.persists, known'.1.imp fun _ _ => .mono later.persists⟩
          cases owner <;> rfl
  cases written : f.returns with
  | none =>
    rw [written] at declares
    exact (declares .void ⟨trivial, fun _ => trivial⟩).mono (fun _ _ holds => holds)
      fun _ _ _ known => known ⟨rfl, .inl rfl⟩
  | some type =>
    rw [written] at declares
    apply (resolveType_spelled (fresh.returns type written)).then
    intro returns known
    apply (declares returns ⟨known.1.below, known.2⟩).mono
    · exact fun _ _ holds => holds
    · exact fun _ _ _ known here => known ⟨here.1, .inr here.2⟩

/-! ## Members -/

theorem declareMethod_goes {className : String} {m : Method} (intact : t.Intact bound)
    (inside : scope.index < t.scopes.size) (owned : ∃ k, t.class? cls = some k ∧ k.scope = scope)
    (fresh : m.Fresh bound True) :
    Goes (Plain bound) t (declareMethod cls className scope m) (fun m' t' => Fills bound t t' ∧ m'.Declared bound t')
      fun m' t' => t.Proper → t'.Proper ∧ m'.function.Signed t' (some ⟨cls, className, m'⟩) := by
  have fit : ∀ o, some (⟨cls, className, m⟩ : MethodOwner) = some o → o.Fit bound t.symbols.size := by
    rintro _ ⟨⟩
    obtain ⟨k, isClass, _⟩ := owned
    exact ⟨Table.class_bound (by simp [isClass]), fresh.staticSpan⟩
  apply (declareFunction_goes intact inside fresh.function fit (by rintro _ ⟨⟩; exact owned)).bind
  rintro f t' ⟨lays, declared⟩
  refine .pure ⟨lays, declared, fresh.staticSpan⟩ fun known good => ⟨(known good).1, ?_⟩
  obtain ⟨id, s, g, same, held, core, types⟩ := (known good).2.symbol
  exact ⟨(known good).2.grouped, id, s, g, same, held, core, types⟩

theorem declareField_goes {f : Field} (intact : t.Intact bound) (inside : scope.index < t.scopes.size)
    (below : cls.index < t.symbols.size) (own : ∀ k, t.class? cls = some k → k.scope = scope)
    (fresh : f.Fresh bound True) :
    Goes (Plain bound) t (declareField cls scope f)
      (fun f' t' => Fills bound t t' ∧ f'.Declared bound t' ∧ f'.Lies t' (some scope))
      fun f' t' => t.Proper → t'.Proper ∧ f'.Signed t' := by
  unfold declareField
  apply (resolveType_answers fresh.typeName).then
  intro ty known
  apply Goes.askLocal intact.sound inside
  intro found asked _
  apply Goes.ite
  · intro _
    refine .reports ⟨fresh.name.within, rfl⟩ (.pure ⟨.refl intact, ⟨fresh.initializer, ?_⟩, ?_⟩ trivial)
    · simp [fresh.unset]
    · simp [Field.Lies, fresh.unset]
  · intro unknown
    obtain rfl : found = none := by simpa using unknown
    generalize isKind : (if f.isStatic = true then VariableKind.staticField else VariableKind.instanceField) = kind
    have allows : t.Allows bound scope f.name.name f.name.span (.variable ⟨some ty, .pending, kind, f.visibility⟩) := by
      refine .var inside fresh.name ?_ nofun
      rintro _ ⟨⟩
      exact known.below.mono (Nat.le_succ _)
    apply (declare_goes intact allows).seq
    rintro _ t₁ ⟨rfl, adds, intact₁⟩
    have first : Lays bound t t₁ := .declare intact adds allows rfl (by rintro _ ⟨⟩; rfl)
    have held := adds.held
    have members : Goes (Plain bound) t₁
        (modifySymbol cls (·.mapClass fun c => { c with fields := c.fields ++ [⟨t.symbols.size⟩] }))
        (fun _ t₂ => Table.Advances bound t₁ t₂ ∧ Lays bound t₁ t₂ ∧
          t₂ = t₁.edit cls (SymbolKind.mapClass fun c => { c with fields := c.fields ++ [⟨t.symbols.size⟩] })) := by
      apply modifyMembers_goes intact₁ (first.persists.below below)
      · intro c sound
        refine ⟨sound.scope, sound.methods, List.forall_mem_append.mpr ⟨sound.fields, ?_⟩⟩
        simpa using Table.symbol_bound held
      · exact fun c => rfl
      · intro k isClass j inside
        have isClass : t.class? cls = some k := by
          rw [adds.declares.class_eq] at isClass
          split at isClass
          · cases isClass
          · exact isClass
        refine (List.mem_append.mp inside).imp id fun inside => ?_
        cases List.mem_singleton.mp inside
        exact ⟨_, held, (own k isClass).symm⟩
    apply members.seq
    rintro _ t₂ ⟨second, laid, rfl⟩
    have later : Fills bound t _ :=
      ⟨first.trans laid, fun declared => (declared.declare_other adds.declares asked rfl rfl).edit_class
      (fun _ => rfl) (fun _ _ inside => inside) (fun _ _ inside => .inl inside) (by simp)⟩
    refine .pure ⟨later, ⟨fresh.initializer, ?_⟩, ?_⟩ fun resolved good => ⟨?_, ?_⟩
    · rintro id ⟨⟩
      exact second.persists.below (Table.symbol_bound held)
    · rintro id ⟨⟩
      exact ⟨_, _, laid.accrues.vars held rfl, rfl, rfl, isKind.symm, rfl, rfl⟩
    · apply second.proper (good.declare adds ⟨?_, nofun⟩)
      rintro _ _ ⟨⟩ ⟨⟩
      exact resolved.2
    · obtain ⟨s', v', held', isVar, typed, _⟩ := second.persists.var held rfl
      exact ⟨_, s', v', ty, rfl, held', isVar, typed, later.persists.resolve resolved.1⟩

theorem declareMembers_goes (intact : t.Intact bound) (begun : c.Begun bound count t) :
    Goes (Plain bound) t (declareMembers c)
      (fun c' t' => Fills bound t t' ∧ (c'.Declared bound count t' ∧ c'.Told t') ∧ c'.symbol = c.symbol)
      fun c' t' => t.Proper → t'.Proper ∧ (c.symbol.isSome → c'.Signed t') := by
  unfold declareMembers
  split
  next id scope isSymbol isScope =>
    obtain ⟨newer, plain, scope', k, placed, held, own⟩ := begun.opened id isSymbol
    rw [isScope] at placed
    cases placed
    have inside : scope.index < t.scopes.size := own ▸ (intact.sound.class_sound held).scope
    have below : id.index < t.symbols.size := Table.class_bound (by simp [held])
    have freshMethods : ∀ m ∈ c.methods, m.Fresh bound True := by simpa [plain] using begun.methods
    have freshFields : ∀ f ∈ c.fields, f.Fresh bound True := by simpa [plain] using begun.fields
    have methods : Goes (Plain bound) t (c.methods.mapM (declareMethod id c.name.name scope))
        (fun ms t' => Fills bound t t' ∧ t.Persists t' ∧ List.Forall₂ (fun _ m => m.Declared bound t') c.methods ms)
        fun ms t' => t.Proper → t'.Proper ∧
          List.Forall₂ (fun _ m => m.function.Signed t' (some ⟨id, c.name.name, m⟩)) c.methods ms := by
      apply Goes.mapM (I := fun t' => Fills bound t t') (K := Table.Proper) Persists.refl Persists.trans
        (fun persists declared => declared.mono persists) (fun persists signed => signed.mono persists)
      · intro m inside' t₁ lays
        obtain ⟨k₁, held₁, own₁, _⟩ := lays.persists.cls held
        apply (declareMethod_goes lays.intact (lays.persists.inside inside) ⟨k₁, held₁, own₁.trans own⟩
          (freshMethods m inside')).mono
        · exact fun m' t' holds => ⟨lays.trans holds.1, holds.1.persists, holds.2⟩
        · exact fun m' t' _ holds => holds
      · exact .refl intact
    apply methods.bind
    rintro ms t₁ ⟨lays₁, _, declaredMethods⟩
    have fields : Goes (Plain bound) t₁ (c.fields.mapM (declareField id scope))
        (fun fs t' => Fills bound t t' ∧ (t₁.Persists t' ∧ t₁.Accrues t') ∧
          List.Forall₂ (fun _ f => f.Declared bound t' ∧ f.Lies t' (some scope)) c.fields fs)
        fun fs t' => t₁.Proper → t'.Proper ∧ List.Forall₂ (fun _ f => f.Signed t') c.fields fs := by
      apply Goes.mapM (I := fun t' => Fills bound t t') (K := Table.Proper) (fun t => ⟨.refl t, .refl t⟩)
        (fun first second => ⟨first.1.trans second.1, first.2.trans second.2⟩)
        (fun kept holds => ⟨holds.1.mono kept.1, holds.2.mono kept.2⟩) (fun kept signed => signed.mono kept.1)
      · intro f inside' t₂ lays
        have own₂ : ∀ k', t₂.class? id = some k' → k'.scope = scope := by
          intro k' isClass
          obtain ⟨k₂, held₂, own', _⟩ := lays.persists.cls held
          cases held₂.symm.trans isClass
          exact own'.trans own
        apply (declareField_goes lays.intact (lays.persists.inside inside) (lays.persists.below below) own₂
          (freshFields f inside')).mono
        · exact fun f' t' holds => ⟨lays.trans holds.1, ⟨holds.1.persists, holds.1.accrues⟩, holds.2⟩
        · exact fun f' t' _ holds => holds
      · exact lays₁
    apply fields.bind
    rintro fs t₂ ⟨later, ⟨persists₂, _⟩, declaredFields⟩
    have methods₂ : ∀ m ∈ ms, m.Declared bound t₂ := fun m inside' =>
      (forall_right declaredMethods (fun _ _ declared => declared) m inside').mono persists₂
    refine .pure ⟨later, ⟨⟨begun.name, begun.superclass, ?_, fun _ => methods₂, ?_⟩, begun.housed.mono later.persists,
      fun m inside' => (methods₂ m inside').function.symbol, ?_⟩, rfl⟩ fun knownFields knownMethods good => ?_
    · intro id' same
      obtain ⟨newer', plain', held'⟩ := (begun.opened id' same).mono later.persists
      exact ⟨newer', plain', held'⟩
    · intro _
      exact forall_right declaredFields fun _ _ declared => declared.1
    · exact forall_right declaredFields fun _ _ declared => isScope ▸ declared.2
    · obtain ⟨good₁, signedMethods⟩ := knownMethods good
      obtain ⟨good₂, signedFields⟩ := knownFields good₁
      refine ⟨good₂, fun _ => ⟨⟨id, isSymbol, fun m inside' => ?_⟩, forall_right signedFields fun _ _ signed => signed⟩⟩
      exact (forall_right signedMethods (fun _ _ signed => signed) m inside').mono persists₂
  next missing =>
    have unset : c.symbol = none := by
      cases isSymbol : c.symbol with
      | none => rfl
      | some id =>
        obtain ⟨_, _, scope, _, placed, _⟩ := begun.opened id isSymbol
        exact (missing id scope isSymbol placed).elim
    refine .pure ⟨.refl intact, ⟨⟨begun.name, begun.superclass, ?_, ?_, ?_⟩, begun.housed, fun m inside => ?_,
      fun f inside => ?_⟩, rfl⟩ fun good => ⟨good, ?_⟩
    · simp [unset]
    · simp [unset]
    · simp [unset]
    · simp [Function.Sized, (begun.methods m inside).function.unset]
    · simp [Field.Lies, (begun.fields f inside).unset]
    · simp [unset]

/-! ## Programs -/

theorem filterMap_same {α β : Type} {f : α → Option β} {xs ys : List α}
    (all : List.Forall₂ (fun x y => f y = f x) xs ys) :
    ys.filterMap f = xs.filterMap f := by
  induction all with
  | nil => rfl
  | cons here _ ih => rw [List.filterMap_cons, List.filterMap_cons, here, ih]

/-- One pass over the items: what is known of each item before, with `P` and on a quiet run `Q`, and after it. -/
theorem pass_goes {g : Item → Analysis Item} {P Q R S : Table → Item → Prop} (intact : t.Intact bound)
    (mono : ∀ {t₁ t₂ item}, Persists t₁ t₂ → t₁.Accrues t₂ → P t₁ item → P t₂ item)
    (monoQuiet : ∀ {t₁ t₂ item}, Persists t₁ t₂ → Q t₁ item → Q t₂ item)
    (mono' : ∀ {t₁ t₂ item}, Persists t₁ t₂ → t₁.Accrues t₂ → R t₁ item → R t₂ item)
    (monoQuiet' : ∀ {t₁ t₂ item}, Persists t₁ t₂ → S t₁ item → S t₂ item)
    (each : ∀ item t₁, Fills bound t t₁ → P t₁ item → Goes (Plain bound) t₁ (g item)
      (fun item' t' => Fills bound t₁ t' ∧ R t' item' ∧ item'.classSymbol = item.classSymbol)
      fun item' t' => t₁.Proper → t'.Proper ∧ (Q t₁ item → S t' item'))
    (before : ∀ item ∈ items, P t item) :
    Goes (Plain bound) t (items.mapM g) (fun items' t' => Fills bound t t' ∧ (∀ item ∈ items', R t' item) ∧
        items'.filterMap Item.classSymbol = items.filterMap Item.classSymbol)
      fun items' t' => t.Proper → t'.Proper ∧ ((∀ item ∈ items, Q t item) → ∀ item ∈ items', S t' item) := by
  have all : Goes (Plain bound) t (items.mapM g)
      (fun items' t' => Fills bound t t' ∧ (t.Persists t' ∧ t.Accrues t') ∧
        List.Forall₂ (fun item item' => R t' item' ∧ item'.classSymbol = item.classSymbol) items items')
      fun items' t' => t.Proper → t'.Proper ∧ List.Forall₂ (fun item item' => Q t item → S t' item') items items' := by
    apply Goes.mapM (I := fun t' => Fills bound t t') (K := Table.Proper)
      (A := fun item item' t' => R t' item' ∧ item'.classSymbol = item.classSymbol)
      (B := fun item item' t' => Q t item → S t' item') (fun t => ⟨.refl t, .refl t⟩)
      (fun first second => ⟨first.1.trans second.1, first.2.trans second.2⟩)
    · exact fun kept holds => ⟨mono' kept.1 kept.2 holds.1, holds.2⟩
    · exact fun kept holds known => monoQuiet' kept.1 (holds known)
    · intro item inside t₁ lays
      apply (each item t₁ lays (mono lays.persists lays.accrues (before item inside))).mono
      · exact fun item' t' holds => ⟨lays.trans holds.1, ⟨holds.1.persists, holds.1.accrues⟩, holds.2⟩
      · intro item' t' _ holds good
        exact ⟨(holds good).1, fun known => (holds good).2 (monoQuiet lays.persists known)⟩
    · exact .refl intact
  apply all.mono
  · intro items' t' holds
    exact ⟨holds.1, forall_right holds.2.2 fun _ _ holds => holds.1,
      filterMap_same (holds.2.2.imp fun _ _ holds => holds.2)⟩
  · intro items' t' _ holds good
    refine ⟨(holds good).1, fun known => ?_⟩
    have both := (List.forall₂_and_left (p := Q t) items items').mpr ⟨known, (holds good).2⟩
    exact forall_right both fun _ _ pair => pair.2 pair.1

theorem superclassName_found (found : superclassName items id = some type) :
    ∃ c, Item.cls c ∈ items ∧ c.symbol = some id ∧ c.superclass = some type := by
  obtain ⟨item, inside, named⟩ := List.exists_of_findSome?_eq_some found
  cases item with
  | cls c =>
    simp only at named
    split at named
    next same => exact ⟨c, inside, by simpa using same, named⟩
    next => cases named
  | function f => cases named
  | stmt s => cases named

theorem classEdges_answers {symbols : List Symbol} (sound : t.Sound bound)
    (declared : ∀ c, Item.cls c ∈ items → c.Declared bound count t) (held : ∀ s ∈ symbols, t.symbol? s.id = some s) :
    Answers (Plain bound) t (classEdges items symbols)
      (fun edges => edges.map Hierarchy.Edge.cls = (symbols.filter (·.class?.isSome)).map Symbol.id ∧
        (∀ edge ∈ edges, edge.span.Within bound) ∧
        ∀ edge ∈ edges, ∀ d, edge.superclass = some d → count ≤ edge.cls.index ∧ (t.class? d).isSome) := by
  induction symbols with
  | nil => exact .pure (by simp) trivial
  | cons s ss ih =>
    have others := ih fun s' inside => held s' (List.mem_cons_of_mem _ inside)
    unfold classEdges
    extract_lets rest
    apply Goes.ite
    · intro isClass
      have edge {superclass : Option SymbolId}
          (known : ∀ d, superclass = some d → count ≤ s.id.index ∧ (t.class? d).isSome) :
          Answers (Plain bound) t (rest superclass)
            (fun edges => edges.map Hierarchy.Edge.cls = ((s :: ss).filter (·.class?.isSome)).map Symbol.id ∧
              (∀ edge ∈ edges, edge.span.Within bound) ∧
              ∀ edge ∈ edges, ∀ d, edge.superclass = some d → count ≤ edge.cls.index ∧ (t.class? d).isSome) := by
        apply others.bind
        rintro edges ⟨same, within, superclasses⟩
        refine .pure ⟨?_, ?_, ?_⟩ fun _ => trivial
        · simp [isClass, same]
        · exact List.forall_mem_cons.mpr ⟨sound.located (held s List.mem_cons_self), within⟩
        · exact List.forall_mem_cons.mpr ⟨known, superclasses⟩
      cases named : superclassName items s.id with
      | none => exact edge nofun
      | some type =>
        obtain ⟨c, inside, isSymbol, written⟩ := superclassName_found named
        obtain ⟨newer, plain, _⟩ := (declared c inside).opened s.id isSymbol
        have fit := (declared c inside).superclass type written
        rw [plain] at fit
        have fit : type.Fit bound True := by simpa using fit
        apply (resolveType_answers fit).seq
        intro ty known
        exact edge fun d same => ⟨newer, known.cls d same⟩
    · intro noClass
      apply others.mono
      · rintro edges ⟨same, rest⟩
        exact ⟨by simp [noClass, same], rest⟩
      · exact fun _ _ _ => trivial

end Binding

end Quasicode
