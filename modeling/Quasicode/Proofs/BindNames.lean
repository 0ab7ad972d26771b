import Quasicode.Proofs.NamesInSight

/-!
Binding of expressions. An expression as it is read is bound without touching the table; its slots get symbols that are
there, and without a diagnostic all of them are filled, with names that the body around may use. Only the left of an
assignment can declare something, and then it declares the next symbol.
-/
namespace Quasicode

open Relation Analysis
open Table (Persists Advances Binds Hangs)
open Diagnostic (Plain)

section Mono

variable {t t' : Table} {inherits : Prop} (persists : t.Persists t')
include persists

theorem Table.Persists.isVar {id : SymbolId} (isVar : (t.var? id).isSome) : (t'.var? id).isSome := by
  obtain ⟨v, held⟩ := Option.isSome_iff_exists.mp isVar
  obtain ⟨v', held', _⟩ := persists.var_kept held
  exact Option.isSome_iff_exists.mpr ⟨v', held'⟩

/-- What was found stays found. -/
theorem Expr.Filled.mono {e : Expr} (filled : e.Filled t inherits) : e.Filled t' inherits := by
  have var {slot : Option SymbolId} : (∃ id, slot = some id ∧ (t.var? id).isSome) →
      ∃ id, slot = some id ∧ (t'.var? id).isSome :=
    fun ⟨id, same, isVar⟩ => ⟨id, same, persists.isVar isVar⟩
  have type {type : TypeName} : (∃ ty, type.resolve t.classes = .ok ty) → ∃ ty, type.resolve t'.classes = .ok ty :=
    fun ⟨ty, resolved⟩ => ⟨ty, persists.resolve resolved⟩
  cases e with
  | classRef =>
    obtain ⟨id, same, isClass⟩ := filled
    exact ⟨id, same, persists.isClass isClass⟩
  | this | var => exact var filled
  | superField =>
    obtain ⟨inherits, ⟨d, same, isClass⟩, field⟩ := filled
    exact ⟨inherits, ⟨d, same, persists.isClass isClass⟩, var field⟩
  | cast | newArray | isType => exact type filled
  | newObject =>
    obtain ⟨unset, ty, id, resolved, same⟩ := filled
    exact ⟨unset, ty, id, persists.resolve resolved, same⟩
  | call => exact filled
  | assignee =>
    obtain ⟨types, new, slot⟩ := filled
    exact ⟨fun written same => type (types written same), new, var slot⟩
  | widen => exact filled.elim
  | _ => trivial

theorem Expr.All.filled_later {e : Expr} (filled : e.All (Expr.Filled t inherits)) : e.All (Expr.Filled t' inherits) :=
  filled.mono fun _ filled => filled.mono persists

theorem Checks.filled_mono : (Checks.filled t inherits).Implies (.filled t' inherits) := by
  have more : ∀ e : Expr, e.All (Expr.Filled t inherits) → e.All (Expr.Filled t' inherits) :=
    fun _ filled => filled.filled_later persists
  refine ⟨more, fun a filled => ⟨more _ filled.1, fun e inside => more e (filled.2.1 e inside), more _ filled.2.2⟩,
    fun _ filled e same => more e (filled e same), fun _ _ filled => ?_, fun _ known => known, fun _ known => known⟩
  obtain ⟨id, same, isVar⟩ := filled
  exact ⟨id, same, persists.isVar isVar⟩

end Mono

section Met

variable {bound : Nat} {t t' : Table} {inherits : Prop} {spot : Binding.Spot}

/-- What was found and may be used stays so. -/
theorem Checks.met_mono (persists : t.Persists t') (stays : t.Stays t') :
    (Checks.met t inherits spot).Implies (.met t' inherits spot) := by
  have nodes := Checks.nodes_mono (P := Expr.Met t inherits spot) (Q := Expr.Met t' inherits spot) fun _ met =>
    ⟨met.filled.mono persists, met.bound.mono stays⟩
  refine ⟨nodes.value, nodes.assignment, nodes.returned, fun _ _ met => ?_, fun _ known => known, nodes.place⟩
  obtain ⟨id, same, seen⟩ := met
  exact ⟨id, same, seen.mono stays⟩

theorem Table.Advances.checks (advances : Advances bound t t') :
    (Checks.met t inherits spot).Implies (.met t' inherits spot) :=
  Checks.met_mono advances.persists advances.stays

theorem Table.Advances.met {e : Expr} (advances : Advances bound t t') :
    e.All (Expr.Met t inherits spot) → e.All (Expr.Met t' inherits spot) :=
  advances.checks.value e

theorem Checks.met_filled : (Checks.met t inherits spot).Implies (.filled t inherits) := by
  have nodes := Checks.nodes_mono (P := Expr.Met t inherits spot) (Q := Expr.Filled t inherits) fun _ met => met.filled
  refine ⟨nodes.value, nodes.assignment, nodes.returned, fun _ _ met => ?_, fun _ known => known, fun _ _ => trivial⟩
  obtain ⟨id, same, s, v, held, isVar, _⟩ := met
  exact ⟨id, same, by simp [Table.var_of held, isVar]⟩

theorem Checks.met_bound : (Checks.met t inherits spot).Implies (.bound t spot) := by
  have nodes := Checks.nodes_mono (P := Expr.Met t inherits spot) (Q := Expr.Bound t spot) fun _ met => met.bound
  refine ⟨nodes.value, nodes.assignment, nodes.returned, fun _ _ met id same => ?_,
    fun _ _ => trivial, fun _ _ => trivial⟩
  obtain ⟨id', same', seen⟩ := met
  cases same.symm.trans same'
  exact seen

/-- Parts that are filled and bound are both. -/
theorem Checks.filled_bound : (Checks.filled t inherits).Meets (.bound t spot) (.met t inherits spot) := by
  have nodes : ∀ e : Expr, e.All (Expr.Filled t inherits) → e.All (Expr.Bound t spot) →
      e.All (Expr.Met t inherits spot) :=
    fun _ filled isBound => filled.meet (fun _ => .mk) isBound
  refine ⟨nodes, fun a filled isBound => ⟨nodes _ filled.1 isBound.1,
    fun e inside => nodes e (filled.2.1 e inside) (isBound.2.1 e inside),
    nodes _ filled.2.2 isBound.2.2⟩, fun _ filled isBound e same => nodes e (filled e same) (isBound e same), ?_,
    fun _ filled _ => filled, fun _ _ _ => trivial⟩
  rintro _ slot ⟨id, same, _⟩ seen
  exact ⟨id, same, seen id same⟩

end Met

/-! ## What an expression becomes -/

/-- A node as it stands outside every class: it names no object and no field of a superclass, and it assigns nothing. -/
def Expr.Outside : Expr → Prop
  | .this _ slot => slot = none
  | .superField _ _ superclass field => superclass = none ∧ field = none
  | .assignee _ _ _ _ _ | .widen _ _ => False
  | _ => True

/-- A node whose names are looked up among the first `count` symbols, and of which no more is known yet. -/
structure Expr.LookedUp (bound count : Nat) (outside : Prop) (e : Expr) : Prop where
  placed : e.Placed bound count
  unset : e.Unset
  outside : outside → e.Outside

/-- What an expression becomes where it is bound. -/
abbrev Expr.BoundAs (bound count : Nat) (context : Binding.Context) := Expr.Dresses
  (Expr.LookedUp bound count (context = .top))

section BoundAs

variable {bound count : Nat} {context : Binding.Context} {e e' : Expr} {es es' : List Expr}

theorem Expr.BoundAs.placed (done : e.BoundAs bound count context e') : e'.All (Expr.Placed bound count) :=
  done.all.mono fun _ named => named.placed

theorem Expr.BoundAs.unset (done : e.BoundAs bound count context e') : e.Dresses Expr.Unset e' :=
  ⟨done.same, done.all.mono fun _ named => named.unset⟩

/-- An expression that is read as a value declares no variable. -/
theorem Expr.undeclaring_of_bare (fresh : e.bare.All (Expr.Fresh bound True)) : e.declares = none := by
  cases e with
  | assignee => exact fresh.elim
  | _ => rfl

theorem Expr.BoundAs.inner (done : e.BoundAs bound count context e') (fresh : e.All (Expr.Fresh bound True)) :
    e'.Inner bound count := by
  have bare : e'.bare.All (Expr.Fresh bound True) := by rwa [done.same, fresh.bare]
  exact ⟨done.placed, Expr.undeclaring_of_bare bare⟩

theorem DressesAll.inner (done : DressesAll (Expr.LookedUp bound count (context = .top)) es es')
    (fresh : allOf (Expr.Fresh bound True) es) :
    ∀ e ∈ es', e.Inner bound count := by
  intro e inside
  refine ⟨(allOf_iff.mp done.all e inside).mono fun _ named => named.placed,
    Expr.undeclaring_of_bare (allOf_iff.mp fresh _ ?_)⟩
  rw [← bareAll_fresh fresh, ← done.same, bareAll_eq]
  exact List.mem_map_of_mem inside

theorem DressesAll.unset (done : DressesAll (Expr.LookedUp bound count (context = .top)) es es') :
    DressesAll Expr.Unset es es' :=
  ⟨done.same, allOf_iff.mpr fun e inside => (allOf_iff.mp done.all e inside).mono fun _ named => named.unset⟩

end BoundAs

/-- Elements that have become others, one by one. -/
theorem Dresses.list {α : Type} {bare : α → α} {All : α → Prop} {xs ys : List α}
    (each : List.Forall₂ (Dresses bare All) xs ys) :
    ys.map bare = xs.map bare ∧ ∀ y ∈ ys, All y := by
  induction each with
  | nil => exact ⟨rfl, by simp⟩
  | cons here _ ih =>
    exact ⟨by rw [List.map_cons, List.map_cons, here.same, ih.1], List.forall_mem_cons.mpr ⟨here.all, ih.2⟩⟩

namespace Binding

variable {bound base : Nat} {start t t' : Table} {spot : Spot} {context : Context} {alone : Prop}
variable {span : Span} {count : Nat} {info : NodeInfo} {e : Expr} {name : Ident} {typeName : Option TypeName}

/-! ## Where a name stands -/

/-- A place at which expressions can be bound: in methods of objects the object can be seen. -/
structure Context.Valid (t : Table) (context : Context) : Prop where
  inside : context.scope.index < t.scopes.size
  superclass : ∀ cls d, context.cls = some cls → cls.superclass = some d → (t.class? d).isSome
  object : context.body = .constructor ∨ context.body = .instanceMethod →
    ∃ outer id, ReflTransGen (Outward t) context.scope outer ∧ t.lookupLocal outer instanceThisKey = .ok (some id)

/-- The class around has a superclass. -/
def Context.Inherits (context : Context) : Prop := ∃ cls d, context.cls = some cls ∧ cls.superclass = some d

theorem outward_kept {scope outer : ScopeId} (same : t.SameClasses t') (path : ReflTransGen (Outward t) scope outer) :
    ReflTransGen (Outward t') scope outer := by
  refine ReflTransGen.mono (fun inner around up => ?_) _ _ path
  rw [Outward, same.parents (Table.parent_bound up)]
  exact up

theorem Context.Valid.mono (valid : context.Valid t) (advances : Advances bound t t') : context.Valid t' := by
  refine ⟨advances.persists.inside valid.inside, fun cls d same super => advances.persists.isClass
    (valid.superclass cls d same super), fun body => ?_⟩
  obtain ⟨outer, id, path, held⟩ := valid.object body
  obtain ⟨id', held'⟩ := advances.persists.names held
  exact ⟨outer, id', outward_kept advances.classes path, held'⟩

/-- A scope of its own under the scope of a context. -/
theorem Context.Valid.nested (valid : context.Valid t) (intact : t.Intact bound) :
    Context.Valid (t.createScope context.scope).2 { context with scope := ⟨t.scopes.size⟩ } := by
  have advances : Advances bound t (t.createScope context.scope).2 := .createScope intact valid.inside
  have later := valid.mono advances
  refine ⟨by simp [Table.createScope], later.superclass, fun body => ?_⟩
  obtain ⟨outer, id, path, held⟩ := later.object body
  refine ⟨outer, id, .head ?_ path, held⟩
  rw [Outward, Table.createScope_parent]
  exact if_pos rfl

theorem Context.Valid.lookup_object (valid : context.Valid t) (intact : t.Intact bound)
    (body : context.body = .constructor ∨ context.body = .instanceMethod) :
    ∃ id, t.lookupChain context.scope instanceThisKey = .ok (some id) := by
  obtain ⟨n, rises⟩ := intact.rooted context.scope valid.inside
  obtain ⟨outer, id, path, held⟩ := valid.object body
  exact Table.lookupChain_found rises path held

/-- The place in a body that was begun in the table `start`. -/
structure Underway (bound : Nat) (start : Table) (spot : Spot) (t : Table) (context : Context) : Prop where
  origin : start.Intact bound
  inside : spot.top.index < start.scopes.size
  waits : ∀ id, spot.waiting id → start.Pending id
  body : context.body = spot.body
  binds : Binds start.scopes.size bound start t
  valid : context.Valid t
  hangs : Hangs start t spot.top context.scope

/-- A place where variables are declared: at the top level, or in a scope of the body. -/
def Context.Writable (start : Table) (context : Context) : Prop :=
  context.scope = .root ∨ start.scopes.size ≤ context.scope.index

namespace Underway

variable {id : SymbolId} {s : Symbol} {v : VariableSymbol}

theorem begin (intact : t.Intact bound) (valid : context.Valid t) (waits : ∀ id, spot.waiting id → t.Pending id)
    (scope : context.scope = spot.top) (body : context.body = spot.body) : Underway bound t spot t context :=
  ⟨intact, scope ▸ valid.inside, waits, body, .refl intact, valid, scope ▸ .top⟩

variable (underway : Underway bound start spot t context)
include underway

theorem intact : t.Intact bound := underway.binds.intact

theorem mono (binds : Binds start.scopes.size bound t t') : Underway bound start spot t' context :=
  { underway with
    binds := underway.binds.trans binds
    valid := underway.valid.mono binds.toAdvances
    hangs := underway.hangs.mono binds.parents }

/-- A scope of its own under the scope of a place. -/
theorem nested : Underway bound start spot (t.createScope context.scope).2
    { context with scope := ⟨t.scopes.size⟩ } := by
  have later := underway.mono (.createScope underway.intact underway.valid.inside)
  refine { later with
    valid := underway.valid.nested underway.intact
    hangs := .inner underway.binds.scopes ?_ later.hangs }
  rw [Table.createScope_parent]
  exact if_pos rfl

theorem inLoop : Underway bound start spot t { context with inLoop := true } :=
  { underway with valid := ⟨underway.valid.inside, underway.valid.superclass, underway.valid.object⟩ }

/-- What is found from the place. -/
theorem inSight {name : String} (found : t.lookupChain context.scope name = .ok (some id))
    (held : t.symbol? id = some s) (isVar : s.var? = some v) :
    t.InSight spot.top id := by
  refine ⟨s, v, held, isVar, fun isField => ?_⟩
  by_cases old : id.index < start.symbols.size
  · obtain ⟨at_, path, holds⟩ := Table.lookupWithin_path found
    -- A symbol that was there at the start is held where it was held then.
    have before : start.lookupLocal at_ name = .ok (some id) := by
      rcases underway.binds.names holds with before | new
      · exact before
      · exact absurd old (Nat.not_lt.mpr new)
    obtain ⟨s', held', rfl, _⟩ := underway.origin.sound.named before
    cases (underway.binds.symbols held').symm.trans held
    have way := underway.hangs.around underway.origin.rooted underway.binds.parents underway.inside path
      (Table.lookup_bound before)
    exact underway.binds.stays.outward way
  · obtain ⟨v', isVar', isLocal, _⟩ := underway.binds.added held (Nat.not_lt.mp old)
    cases isVar'.symm.trans isVar
    rcases isField with isField | isField <;> cases isLocal.symm.trans isField

theorem ready (held : t.symbol? id = some s) (isVar : s.var? = some v) (status : v.status ≠ .pending) :
    ¬ spot.waiting id := by
  intro waiting
  obtain ⟨s', v', held', isVar', pending⟩ := underway.waits id waiting
  cases (underway.binds.symbols held').symm.trans held
  cases isVar'.symm.trans isVar
  exact status pending

end Underway

/-! ## Single names -/

theorem checkInstanceUse_answers {var : VariableSymbol} (within : span.Within bound) :
    Answers (Plain bound) t (checkInstanceUse context var span) (fun _ => True)
      fun _ => var.kind = .instanceField → context.body ≠ .staticMethod := by
  unfold checkInstanceUse
  apply Goes.ite
  · exact fun _ => .report ⟨within, rfl⟩ ⟨rfl, trivial⟩
  · intro allowed
    refine .pure ⟨rfl, trivial⟩ fun isField isStatic => ?_
    simp [isField, isStatic] at allowed

/-- A fresh node with a slot that is there. -/
theorem placed_of_info (fresh : info.Fresh bound) (same : e.info = info)
    (types : ∀ type ∈ e.writtenTypes, type.Fit bound True) (slots : ∀ id ∈ e.slots, id.index < count) :
    e.Placed bound count := by
  refine ⟨?_, ?_, types, slots⟩
  · rw [Expr.span, same]
    exact fresh.within
  · simp [same, fresh.untyped]

theorem named_plain (fresh : info.Fresh bound) (same : e.info = info)
    (types : e.writtenTypes = []) (slots : e.slots = []) (unset : e.Unset) (outside : e.Outside) :
    e.LookedUp bound count alone :=
  ⟨placed_of_info fresh same (by simp [types]) (by simp [slots]), unset, fun _ => outside⟩

theorem named_written {type : TypeName} (fit : type.Fit bound True) (fresh : info.Fresh bound) (same : e.info = info)
    (types : e.writtenTypes = [type]) (slots : e.slots = []) (unset : e.Unset) (outside : e.Outside) :
    e.LookedUp bound count alone :=
  ⟨placed_of_info fresh same (by simpa [types] using fit) (by simp [slots]), unset, fun _ => outside⟩

theorem bindVar_answers (underway : Underway bound start spot t context) (fresh : info.Fresh bound) :
    Answers (Plain bound) t (bindVar context info name none)
      ((Expr.var info name none).BoundAs bound t.symbols.size context)
      fun e => e.All (Expr.Met t context.Inherits spot) := by
  have unbound : (Expr.var info name none).BoundAs bound t.symbols.size context (.var info name none) :=
    ⟨rfl, named_plain fresh rfl rfl rfl trivial trivial⟩
  unfold bindVar
  apply Goes.askChain underway.intact.sound underway.intact.rooted underway.valid.inside
  intro found asked there
  cases found with
  | none => exact .reports ⟨fresh.within, rfl⟩ (.pure ⟨rfl, unbound⟩ trivial)
  | some id =>
    obtain ⟨s, held, _⟩ := there id rfl
    have below := Table.symbol_bound held
    apply Goes.askSymbol held
    cases isVar : s.var? with
    | none => exact .reports ⟨fresh.within, rfl⟩ (.pure ⟨rfl, unbound⟩ trivial)
    | some var =>
      have placed : (Expr.var info name none).BoundAs bound t.symbols.size context (.var info name (some id)) :=
        ⟨rfl, placed_of_info fresh rfl (by simp [Expr.writtenTypes]) (by simpa [Expr.slots] using below),
          trivial, fun _ => trivial⟩
      apply (checkInstanceUse_answers fresh.within).then
      intro _ _
      cases status : var.status with
      | declaring | pending => exact .reports ⟨fresh.within, rfl⟩ (.pure ⟨rfl, placed⟩ trivial)
      | ordering => exact absurd status (underway.intact.sound.variable_sound held isVar).status
      | unset | ready =>
        refine .pure ⟨rfl, placed⟩ fun allowed => ⟨⟨id, rfl, by simp [Table.var_of held, isVar]⟩, trivial, ?_⟩
        rintro _ ⟨⟩
        exact ⟨underway.inSight asked held isVar, ⟨s, var, held, isVar, underway.body ▸ allowed⟩,
          underway.ready held isVar (by simp [status])⟩

theorem checkSuper_answers (valid : context.Valid t) (within : span.Within bound) :
    Answers (Plain bound) t (checkSuper context span) (fun found => ∀ d, found = some d →
      (t.class? d).isSome ∧ context ≠ .top)
      fun found => found.isSome ∧ context.Inherits ∧ context.body ≠ .topLevel := by
  have refused {cause : Cause} (other : cause.isPlain) :
      Answers (Plain bound) t (do report cause span; return none) (fun found => ∀ d, found = some d →
        (t.class? d).isSome ∧ context ≠ .top)
        fun found : Option SymbolId => found.isSome ∧ context.Inherits ∧ context.body ≠ .topLevel :=
    .reports ⟨within, other⟩ (.pure ⟨rfl, nofun⟩ trivial)
  unfold checkSuper
  cases isClass : context.cls with
  | none => exact refused rfl
  | some cls =>
    simp only
    cases super : cls.superclass with
    | none => exact refused rfl
    | some d =>
      simp only
      split
      · exact refused rfl
      next inBody =>
        refine Answers.pure ?_ ⟨rfl, ⟨cls, d, isClass, super⟩, inBody⟩
        rintro _ ⟨⟩
        refine ⟨valid.superclass cls d isClass super, fun top => ?_⟩
        rw [top] at isClass
        cases isClass

theorem fieldOf_answers {cls : SymbolId} {name : String} (intact : t.Intact bound)
    (below : cls.index < t.symbols.size) :
    Answers (Plain bound) t (fieldOf cls name)
      (fun found => ∀ id var, found = some (id, var) → ∃ s, t.symbol? id = some s ∧ s.var? = some var) := by
  unfold fieldOf
  apply Goes.askBelow below
  intro s held
  cases isClass : s.class? with
  | none => exact .pure ⟨rfl, nofun⟩ trivial
  | some c =>
    have sound := intact.sound.class_sound (show t.class? cls = some c by simp [Table.class?, held, isClass])
    apply Goes.askChain intact.sound intact.rooted sound.scope
    intro found _ there
    cases found with
    | none => exact .pure ⟨rfl, nofun⟩ trivial
    | some id =>
      obtain ⟨s', held', _⟩ := there id rfl
      apply Goes.askSymbol held'
      cases isVar : s'.var? with
      | none => exact .pure ⟨rfl, nofun⟩ trivial
      | some var =>
        apply Goes.ite
        · intro _
          refine .pure ⟨rfl, ?_⟩ trivial
          rintro _ _ ⟨⟩
          exact ⟨s', held', isVar⟩
        · exact fun _ => .pure ⟨rfl, nofun⟩ trivial

theorem bindSuperField_answers {property : Ident} (underway : Underway bound start spot t context)
    (fresh : info.Fresh bound) :
    Answers (Plain bound) t (bindSuperField context info property none none)
      ((Expr.superField info property none none).BoundAs bound t.symbols.size context)
      fun e => e.All (Expr.Met t context.Inherits spot) := by
  have placed {d : SymbolId} {field : Option SymbolId} (super : (t.class? d).isSome ∧ context ≠ .top)
      (fields : ∀ id, field = some id → id.index < t.symbols.size) :
      (Expr.superField info property none none).BoundAs bound t.symbols.size context
        (.superField info property (some d) field) := by
    refine ⟨rfl, placed_of_info fresh rfl (by simp [Expr.writtenTypes]) fun id inside => ?_, trivial,
      fun top => absurd top super.2⟩
    rcases List.mem_cons.mp inside with rfl | inside
    · exact Table.class_bound super.1
    · exact fields id (by simpa using inside)
  unfold bindSuperField
  apply (checkSuper_answers underway.valid fresh.within).then
  intro found supers
  cases found with
  | none =>
    exact .pure ⟨rfl, rfl, named_plain fresh rfl rfl rfl trivial ⟨rfl, rfl⟩⟩ fun known => absurd known.1 (by simp)
  | some superId =>
    have super := supers superId rfl
    have below := Table.class_bound super.1
    apply (fieldOf_answers underway.intact below).seq
    intro field fields
    cases field with
    | some entry =>
      obtain ⟨id, var⟩ := entry
      obtain ⟨s, held, isVar⟩ := fields id var rfl
      apply (checkInstanceUse_answers fresh.within).then
      intro _ _
      refine .pure ⟨rfl, placed super ?_⟩ fun allowed known =>
        ⟨⟨known.2.1, ⟨superId, rfl, super.1⟩, id, rfl, by simp [Table.var_of held, isVar]⟩, trivial,
          underway.body ▸ known.2.2, ?_⟩
      · rintro _ ⟨⟩
        exact Table.symbol_bound held
      · rintro _ ⟨⟩
        exact ⟨s, var, held, isVar, underway.body ▸ allowed⟩
    | none =>
      apply Goes.askBelow below
      intro s _
      exact .reports ⟨fresh.within, rfl⟩ (.pure ⟨rfl, placed super (by simp)⟩ trivial)

theorem bindThis_answers (underway : Underway bound start spot t context) (fresh : info.Fresh bound) :
    Answers (Plain bound) t (bindThis context info none) ((Expr.this info none).BoundAs bound t.symbols.size context)
      fun e => e.All (Expr.Met t context.Inherits spot) := by
  have intact := underway.intact
  have refused {cause : Cause} (other : cause.isPlain) :
      Answers (Plain bound) t (do report cause info.span; return Expr.this info none)
        ((Expr.this info none).BoundAs bound t.symbols.size context)
        fun e => e.All (Expr.Met t context.Inherits spot) :=
    .reports ⟨fresh.within, other⟩ (.pure ⟨rfl, rfl, named_plain fresh rfl rfl rfl trivial rfl⟩ trivial)
  have object (body : context.body = .constructor ∨ context.body = .instanceMethod) :
      ∃ id, t.lookupChain context.scope instanceThisKey = .ok (some id) ∧
        Answers (Plain bound) t (pure (Expr.this info (some id)))
          ((Expr.this info none).BoundAs bound t.symbols.size context)
          fun e => e.All (Expr.Met t context.Inherits spot) := by
    obtain ⟨id, held⟩ := underway.valid.lookup_object intact body
    obtain ⟨found, asked, there⟩ := intact.sound.lookupChain intact.rooted underway.valid.inside instanceThisKey
    rw [held] at asked
    cases asked
    obtain ⟨s, symbol, named⟩ := there id rfl
    obtain ⟨var, kind, _⟩ := (intact.sound.keyed symbol).object named
    have below := Table.symbol_bound symbol
    refine ⟨id, held, .pure ⟨rfl, placed_of_info fresh rfl (by simp [Expr.writtenTypes])
      (by simpa [Expr.slots] using below), trivial,
      fun top => ?_⟩ ⟨⟨id, rfl, ?_⟩, trivial, show spot.body.HasObject from underway.body ▸ body⟩⟩
    · rw [top] at body
      rcases body with body | body <;> cases body
    · rw [Table.var_of symbol, Symbol.var?, kind]
      rfl
  unfold bindThis
  cases body : context.body with
  | constructor =>
    obtain ⟨id, held, answers⟩ := object (.inl body)
    exact Goes.ask held answers
  | instanceMethod =>
    obtain ⟨id, held, answers⟩ := object (.inr body)
    exact Goes.ask held answers
  | staticMethod => exact refused rfl
  | topLevel | function => exact refused rfl

theorem checkSuperConstructor_answers (within : span.Within bound) :
    Answers (Plain bound) t (checkSuperConstructor context span) (fun _ => True)
      fun _ => context.Inherits ∧ context.body = .constructor := by
  have refused {cause : Cause} (other : cause.isPlain) :
      Answers (Plain bound) t (report cause span) (fun _ => True) fun _ => context.Inherits ∧
        context.body = .constructor :=
    .report ⟨within, other⟩ trivial
  unfold checkSuperConstructor
  cases isClass : context.cls with
  | none => exact refused rfl
  | some cls =>
    simp only
    split
    · exact refused rfl
    next inConstructor =>
      cases super : cls.superclass with
      | none => exact refused rfl
      | some d =>
        simp only [Option.isNone_some, Bool.false_eq_true, if_false]
        split
        · exact refused rfl
        · exact .pure trivial ⟨⟨cls, d, isClass, super⟩, not_not.mp inConstructor⟩

theorem checkMethodReady_answers (intact : t.Intact bound) (valid : context.Valid t) (within : name.span.Within bound) :
    Answers (Plain bound) t (checkMethodReady context name) (fun _ => True) := by
  unfold checkMethodReady
  cases context.cls with
  | none => exact .done
  | some cls =>
    apply Goes.askOverloads intact.sound intact.rooted valid.inside
    intro ids _ below
    have pending : Answers (Plain bound) t (ids.anyM (isPendingMethod cls.id)) (fun _ => True) := by
      apply Answers.anyM
      intro id inside
      apply Goes.askBelow (below id inside)
      exact fun s _ => .done
    apply pending.seq
    intro found _
    apply Goes.ite
    · exact fun _ => .report ⟨within, rfl⟩ ⟨rfl, trivial⟩
    · exact fun _ => .done

/-! ## Expressions -/

mutual

/-- **Binding an expression.** It always goes through and leaves the table as it is. -/
theorem bindExpr_answers (underway : Underway bound start spot t context) :
    ∀ {e : Expr}, e.All (Expr.Fresh bound True) →
    Answers (Plain bound) t (bindExpr context e) (e.BoundAs bound t.symbols.size context)
      fun e' => e'.All (Expr.Met t context.Inherits spot)
  | .literal info value, fresh => by
    exact .pure ⟨rfl, named_plain fresh rfl rfl rfl trivial trivial⟩ ⟨trivial, trivial, trivial⟩
  | .group _ _, ⟨fresh, inside⟩ | .unary _ _ _, ⟨fresh, inside⟩ => by
    apply (bindExpr_answers underway inside).bind
    intro e done
    exact .pure ⟨by simp only [Expr.bare, done.same], named_plain fresh rfl rfl rfl trivial trivial, done.all⟩
      fun met => ⟨⟨trivial, trivial, trivial⟩, met⟩
  | .widen _ _, ⟨fresh, _⟩ | .assignee _ _ _ _ _, fresh => fresh.elim
  | .arrayLiteral info values, ⟨fresh, inside⟩ => by
    apply (bindExprs_answers underway inside).bind
    intro es done
    exact .pure ⟨by simp only [Expr.bare, done.same], named_plain fresh rfl rfl rfl trivial trivial, done.all⟩
      fun met => ⟨⟨trivial, trivial, trivial⟩, met⟩
  | .classRef info type slot, fresh => by
    obtain ⟨fresh, fit, names, rfl⟩ := fresh
    unfold bindExpr
    apply (resolveType_answers fit).then
    intro ty known
    cases isClass : ty.classId? with
    | some id =>
      have below := Table.class_bound (known.cls id isClass)
      exact .pure ⟨rfl, rfl, placed_of_info fresh rfl (by simpa [Expr.writtenTypes] using fit)
        (by simpa [Expr.slots] using below),
        trivial, fun _ => trivial⟩ fun _ => ⟨⟨id, rfl, known.cls id isClass⟩, trivial, trivial⟩
    | none =>
      refine .pure ⟨rfl, rfl, named_written fit fresh rfl rfl rfl trivial trivial⟩ fun resolved => ?_
      obtain ⟨id, same⟩ := names.resolve resolved.1
      rw [isClass] at same
      cases same
  | .this info slot, fresh => by
    obtain ⟨fresh, rfl⟩ := fresh
    exact bindThis_answers underway fresh
  | .superField info property superclass field, fresh => by
    obtain ⟨fresh, _, rfl, rfl⟩ := fresh
    exact bindSuperField_answers underway fresh
  | .var info name slot, fresh => by
    obtain ⟨fresh, _, rfl⟩ := fresh
    exact bindVar_answers underway fresh
  | .subscript _ _ _, ⟨fresh, first, second⟩ | .binary _ _ _ _, ⟨fresh, first, second⟩
  | .logical _ _ _ _, ⟨fresh, first, second⟩ => by
    apply (bindExpr_answers underway first).bind
    intro a doneA
    apply (bindExpr_answers underway second).bind
    intro b doneB
    exact .pure ⟨by simp only [Expr.bare, doneA.same, doneB.same], named_plain fresh rfl rfl rfl trivial trivial,
      doneA.all, doneB.all⟩ fun metB metA => ⟨⟨trivial, trivial, trivial⟩, metA, metB⟩
  | .call info callee name arguments target, ⟨fresh, first, second⟩ => by
    obtain ⟨fresh, nameWithin, rfl⟩ := fresh
    apply (bindCallee_answers underway fresh.within nameWithin first).bind
    intro callee' done
    apply (bindExprs_answers underway second).bind
    intro es doneAll
    exact .pure ⟨by simp only [Expr.bare, done.same, doneAll.same], named_plain fresh rfl rfl rfl rfl trivial,
      done.all, doneAll.all⟩ fun met ⟨known, inherits, inBody⟩ => ⟨⟨⟨rfl, inherits⟩, rfl, inBody⟩, known, met⟩
  | .member info object property field, ⟨fresh, inside⟩ => by
    obtain ⟨fresh, _, rfl⟩ := fresh
    apply (bindExpr_answers underway inside).bind
    intro e done
    exact .pure ⟨by simp only [Expr.bare, done.same], named_plain fresh rfl rfl rfl rfl trivial, done.all⟩
      fun met => ⟨⟨trivial, rfl, trivial⟩, met⟩
  | .cast info type value, ⟨fresh, inside⟩ => by
    obtain ⟨fresh, fit⟩ := fresh
    apply (resolveType_answers fit).bind
    intro ty _
    apply (bindExpr_answers underway inside).bind
    intro e done
    exact .pure ⟨by simp only [Expr.bare, done.same], named_written fit fresh rfl rfl rfl trivial trivial, done.all⟩
      fun met resolved => ⟨⟨⟨ty, resolved.1⟩, trivial, trivial⟩, met⟩
  | .newArray info type capacities, ⟨fresh, inside⟩ => by
    obtain ⟨fresh, fit⟩ := fresh
    apply (resolveType_answers fit).bind
    intro ty _
    apply (bindExprs_answers underway inside).bind
    intro es done
    exact .pure ⟨by simp only [Expr.bare, done.same], named_written fit fresh rfl rfl rfl trivial trivial, done.all⟩
      fun met resolved => ⟨⟨⟨ty, resolved.1⟩, trivial, trivial⟩, met⟩
  | .newObject info type arguments target, ⟨fresh, inside⟩ => by
    obtain ⟨fresh, fit, names, rfl⟩ := fresh
    apply (resolveType_answers fit).bind
    intro ty _
    apply (bindExprs_answers underway inside).bind
    intro es done
    refine .pure ⟨by simp only [Expr.bare, done.same], named_written fit fresh rfl rfl rfl rfl trivial, done.all⟩
      fun met resolved => ⟨⟨?_, rfl, trivial⟩, met⟩
    obtain ⟨id, isClass⟩ := names.resolve resolved.1
    exact ⟨rfl, ty, id, resolved.1, isClass⟩
  | .isType info value type tested, ⟨fresh, inside⟩ => by
    obtain ⟨fresh, fit, _⟩ := fresh
    apply (bindExpr_answers underway inside).bind
    intro e done
    apply (resolveType_answers fit).bind
    intro ty _
    exact .pure ⟨by simp only [Expr.bare, done.same], named_written fit fresh rfl rfl rfl trivial trivial, done.all⟩
      fun resolved met => ⟨⟨⟨ty, resolved.1⟩, trivial, trivial⟩, met⟩

theorem bindExprs_answers (underway : Underway bound start spot t context) :
    ∀ {es : List Expr}, allOf (Expr.Fresh bound True) es →
    Answers (Plain bound) t (bindExprs context es) (DressesAll (Expr.LookedUp bound t.symbols.size (context = .top)) es)
      fun es' => allOf (Expr.Met t context.Inherits spot) es'
  | [], _ => .pure ⟨rfl, trivial⟩ trivial
  | e :: es, ⟨first, rest⟩ => by
    apply (bindExpr_answers underway first).bind
    intro e' done
    apply (bindExprs_answers underway rest).bind
    intro es' others
    exact .pure ⟨by simp only [bareAll, done.same, others.same], done.all, others.all⟩ fun others met => ⟨met, others⟩

theorem bindCallee_answers (underway : Underway bound start spot t context) {span : Span} {name : Ident}
    (within : span.Within bound) (nameWithin : name.span.Within bound) :
    ∀ {callee : Callee}, callee.All (Expr.Fresh bound True) →
    Answers (Plain bound) t (bindCallee context span name callee)
      (callee.Dresses (Expr.LookedUp bound t.symbols.size (context = .top)))
      fun callee' => callee'.All (Expr.Met t context.Inherits spot) ∧
        (callee' = .super ∨ callee' = .superConstructor → context.Inherits) ∧
        (callee' = .super → spot.body ≠ .topLevel) ∧ (callee' = .superConstructor → spot.body = .constructor)
  | .free, _ => by
    apply (checkMethodReady_answers underway.intact underway.valid nameWithin).seq
    intro _ _
    exact .pure ⟨rfl, rfl, trivial⟩ ⟨trivial, by simp, by simp, by simp⟩
  | .object receiver, fresh => by
    apply (bindExpr_answers underway fresh).bind
    intro e done
    extract_lets last
    have ends : Answers (Plain bound) t (last ())
        ((Callee.object receiver).Dresses (Expr.LookedUp bound t.symbols.size (context = .top)))
        fun callee' => e.All (Expr.Met t context.Inherits spot) →
          callee'.All (Expr.Met t context.Inherits spot) ∧
            (callee' = .super ∨ callee' = .superConstructor → context.Inherits) ∧
            (callee' = .super → spot.body ≠ .topLevel) ∧ (callee' = .superConstructor → spot.body = .constructor) :=
      .pure ⟨by simp only [Callee.bare, done.same], done.all⟩ fun met => ⟨met, by simp, by simp, by simp⟩
    apply Goes.ite
    · intro _
      apply (checkMethodReady_answers underway.intact underway.valid nameWithin).seq
      exact fun _ _ => ends
    · exact fun _ => ends
  | .super, _ => by
    apply (checkSuper_answers underway.valid within).bind
    intro _ _
    exact .pure ⟨rfl, trivial⟩ fun known => ⟨trivial, fun _ => known.2.1, fun _ => underway.body ▸ known.2.2, by simp⟩
  | .superConstructor, _ => by
    apply (checkSuperConstructor_answers within).bind
    intro _ _
    exact .pure ⟨rfl, trivial⟩ fun known => ⟨trivial, fun _ => known.1, by simp, fun _ => underway.body ▸ known.2⟩

end

/-! ## The left of an assignment -/

/-- The name can be declared: it stands for nothing that can be seen, and no function has it. -/
def Context.Free (t : Table) (context : Context) (name : Ident) : Prop :=
  t.lookupChain context.scope name.name = .ok none ∧ t.lookupChain context.scope (overloadKey name.name) = .ok none

theorem resolveOption_answers (fit : ∀ type, typeName = some type → type.Fit bound True) :
    Answers (Plain bound) t (typeName.forM fun type => do let _ ← resolveType type) (fun _ => True)
      fun _ => ∀ type, typeName = some type → ∃ ty, type.resolve t.classes = .ok ty := by
  cases typeName with
  | none => exact .pure trivial nofun
  | some type =>
    apply (resolveType_answers (fit type rfl)).bind
    intro ty _
    refine .pure trivial fun known => ?_
    rintro _ ⟨⟩
    exact ⟨ty, known.1⟩

/-- A variable on the left is one that is known already, or the next symbol. -/
theorem bindAssignee_goes (underway : Underway bound start spot t context)
    (writable : context.Writable start) (fresh : info.Fresh bound) (named : name.Fit bound)
    (fit : ∀ type, typeName = some type → type.Fit bound True) :
    Goes (Plain bound) t (bindAssignee context info name typeName)
      (fun e t' => Binds start.scopes.size bound t t' ∧ (e.declares.isSome → context.Free t name) ∧
        (Expr.assignee info name typeName none none).Dresses Expr.Unset e ∧
        ∀ later, t'.Persists later → e.Sets bound later t.symbols.size t'.symbols.size)
      fun e t' => (∀ type, typeName = some type → ∃ ty, type.resolve t.classes = .ok ty) →
        e.All (Expr.Met t' context.Inherits spot) := by
  have intact := underway.intact
  have valid := underway.valid
  have placed {t' : Table} {slot : Option SymbolId} {first : Option Bool}
      (below : ∀ id, slot = some id → id.index < t'.symbols.size) :
      (Expr.assignee info name typeName slot first).All (Expr.Placed bound t'.symbols.size) :=
    placed_of_info fresh rfl (fun type inside => fit type (by simpa [Expr.writtenTypes] using inside))
      fun id inside => below id (by simpa [Expr.slots] using inside)
  have refused {cause : Cause} {B : Expr → Table → Prop} (other : cause.isPlain) :
      Goes (Plain bound) t (do report cause info.span; return Expr.assignee info name typeName none none)
        (fun e t' => Binds start.scopes.size bound t t' ∧ (e.declares.isSome → context.Free t name) ∧
          (Expr.assignee info name typeName none none).Dresses Expr.Unset e ∧
          ∀ later, t'.Persists later → e.Sets bound later t.symbols.size t'.symbols.size) B :=
    .reports ⟨fresh.within, other⟩
      (.pure ⟨.refl intact, nofun, ⟨rfl, trivial⟩, fun _ _ => ⟨placed nofun, .inr ⟨rfl, rfl⟩⟩⟩ trivial)
  unfold bindAssignee
  apply Goes.askChain intact.sound intact.rooted valid.inside
  intro found unknown there
  cases found with
  | some id =>
    obtain ⟨s, held, _⟩ := there id rfl
    have below := Table.symbol_bound held
    apply Goes.askSymbol held
    cases isVar : s.var? with
    | none => exact refused rfl
    | some var =>
      simp only
      have ends {B : Expr → Table → Prop} (quiet : (var.kind = .instanceField → context.body ≠ .staticMethod) →
            B (.assignee info name typeName (some id) (some false)) t) :
          Goes (Plain bound) t (do
              checkInstanceUse context var info.span
              return Expr.assignee info name typeName (some id) (some false))
            (fun e t' => Binds start.scopes.size bound t t' ∧ (e.declares.isSome → context.Free t name) ∧
              (Expr.assignee info name typeName none none).Dresses Expr.Unset e ∧
              ∀ later, t'.Persists later → e.Sets bound later t.symbols.size t'.symbols.size) B := by
        apply (checkInstanceUse_answers fresh.within).then
        intro _ _
        refine .pure ⟨.refl intact, nofun, ⟨rfl, trivial⟩, fun _ _ => ⟨placed ?_, .inr ⟨rfl, rfl⟩⟩⟩ quiet
        rintro _ ⟨⟩
        exact below
      cases typeName with
      | some type => exact .reports ⟨fresh.within, rfl⟩ (ends fun _ => trivial)
      | none =>
        refine ends fun allowed _ => ⟨⟨nofun, rfl, id, rfl, by simp [Table.var_of held, isVar]⟩, trivial, ?_⟩
        rintro _ ⟨⟩
        exact ⟨underway.inSight unknown held isVar, s, var, held, isVar, underway.body ▸ allowed⟩
  | none =>
    apply Goes.askChain intact.sound intact.rooted valid.inside
    intro functions asked _
    apply Goes.ite
    · exact fun _ => refused rfl
    · intro none
      rw [Option.isSome_eq_false_iff, Option.isNone_iff_eq_none] at none
      have free : context.Free t name := ⟨unknown, none ▸ asked⟩
      have allows : t.Allows bound context.scope name.name name.span
          (.variable { status := .ready, kind := .localVar }) :=
        .var valid.inside named nofun nofun
      apply (declare_goes intact allows).seq
      rintro _ t₁ ⟨rfl, adds, intact₁⟩
      have binds : Binds start.scopes.size bound t t₁ := by
        refine ⟨.declare intact adds allows rfl fun _ => ?_, .declare adds rfl fun _ => writable⟩
        exact ⟨by rintro _ _ ⟨⟩ ⟨⟩, nofun⟩
      have held := adds.held
      refine .pure ⟨binds, fun _ => free, ⟨rfl, trivial⟩, fun later persists => ⟨placed ?_, .inl ⟨rfl, adds.size, ?_⟩⟩⟩
        fun resolved => ⟨⟨fun type written => ?_, rfl, _, rfl, ?_⟩, trivial, ?_⟩
      · rintro _ ⟨⟩
        exact Table.symbol_bound held
      · obtain ⟨v, kept, typed, _⟩ := persists.var_kept (Table.var_of held)
        exact ⟨v, kept, typed⟩
      · obtain ⟨ty, means⟩ := resolved type written
        exact ⟨ty, binds.persists.resolve means⟩
      · rw [Table.var_of held]
        rfl
      · rintro _ ⟨⟩
        exact ⟨.ofLocal held rfl rfl, _, _, held, rfl, nofun⟩

/-- **Binding the left of an assignment.** It declares at most one variable. -/
theorem bindTarget_goes (underway : Underway bound start spot t context) (writable : context.Writable start)
    (fresh : e.FreshTarget bound True) : Goes (Plain bound) t (bindExpr context e)
      (fun e' t' => Binds start.scopes.size bound t t' ∧
        (e'.declares.isSome → ∃ name, e.assigned? = some name ∧ context.Free t name) ∧
        e.Dresses Expr.Unset e' ∧ ∀ later, t'.Persists later → e'.Sets bound later t.symbols.size t'.symbols.size)
      fun e' t' => e'.All (Expr.Met t' context.Inherits spot) := by
  unfold Expr.FreshTarget at fresh
  split at fresh
  next info name typeName slot first =>
    obtain ⟨fresh, named, fit, rfl, rfl⟩ := fresh
    unfold bindExpr
    apply (resolveOption_answers fit).then
    intro _ _
    apply (bindAssignee_goes underway writable fresh named fit).mono
    · exact fun e' t' ⟨binds, free, rest⟩ => ⟨binds, fun declares => ⟨name, rfl, free declares⟩, rest⟩
    · exact fun e' t' _ quiet => quiet
  next =>
    apply Goes.mono (bindExpr_answers underway fresh)
    · rintro e' t' ⟨rfl, done⟩
      have inner := done.inner fresh
      exact ⟨.refl underway.intact, by simp [inner.undeclaring], done.unset,
        fun _ _ => ⟨inner.all, .inr ⟨inner.undeclaring, rfl⟩⟩⟩
    · rintro e' t' ⟨rfl, _⟩ met
      exact met

end Binding

end Quasicode
