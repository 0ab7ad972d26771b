import Quasicode.Proofs.BindStatements
import Quasicode.Proofs.MemberNames

/-!
Binding of functions and classes that have been declared. Parameters get the types of the signature; within a class the
object and the class itself get symbols, after which its methods can see them. The fields of a class can be read once
all of their initializers are bound.
-/
namespace Quasicode

open Diagnostic (Plain)

theorem Function.Signed.update {t : Table} {owner owner' : Option Binding.MethodOwner} {f f' : Function}
    (signed : f.Signed t owner) (symbol : f'.symbol = f.symbol) (overloads : f'.overloads = f.overloads)
    (returns : f'.returns = f.returns) (params : f'.params.map Param.typeName = f.params.map Param.typeName)
    (kind : ∀ g, Binding.functionKind f' g owner' = Binding.functionKind f g owner) : f'.Signed t owner' := by
  obtain ⟨id, s, g, same, held, core, means, types⟩ := signed.symbol
  refine ⟨overloads ▸ signed.grouped, id, s, g, symbol.trans same, held, ?_, returns ▸ means, ?_⟩
  · rw [kind]
    exact core
  · have byName {params : List Param} : List.Forall₂ (fun p => TypeName.Means t .any p.typeName) params g.params ↔
        List.Forall₂ (TypeName.Means t .any) (params.map Param.typeName) g.params := List.forall₂_map_left_iff.symm
    rw [byName, params, ← byName]
    exact types

section Mono

variable {t t' : Table} {inherits : Prop} (persists : t.Persists t')
include persists

theorem Param.Filled.mono {p : Param} (filled : p.Filled t inherits) : p.Filled t' inherits := by
  obtain ⟨id, v, ty, same, held, type, means⟩ := filled.symbol
  obtain ⟨v', held', type', _⟩ := persists.var_kept held
  exact ⟨⟨id, v', ty, same, held', type'.trans type, means.mono persists⟩,
    fun e same => (filled.default e same).filled_later persists⟩

theorem Function.Filled.mono {owner : Option Binding.MethodOwner} {f : Function} (filled : f.Filled t inherits owner) :
    f.Filled t' inherits owner :=
  ⟨filled.signed.mono persists, filled.scope, fun p inside => (filled.params p inside).mono persists,
    holdsInAll_mono (Checks.filled_mono persists) filled.body⟩

theorem Field.Filled.mono {f : Field} (filled : f.Filled t inherits) : f.Filled t' inherits :=
  ⟨filled.signed.mono persists, fun e same => (filled.initializer e same).filled_later persists⟩

theorem Class.Filled.mono {inherits : SymbolId → Prop} {c : Class} (filled : c.Filled t inherits) :
    c.Filled t' inherits := by
  obtain ⟨id, same, isClass, fields, methods⟩ := filled.symbol
  obtain ⟨object, sameObject, isObject⟩ := filled.object
  obtain ⟨itself, sameItself, isItself⟩ := filled.itself
  exact ⟨⟨id, same, persists.isClass isClass, fun f inside => (fields f inside).mono persists,
    fun m inside => (methods m inside).mono persists⟩, filled.scope, ⟨object, sameObject, persists.isVar isObject⟩,
    ⟨itself, sameItself, persists.isVar isItself⟩⟩

end Mono

namespace Binding

open Analysis
open Table (Persists Advances Binds)

variable {bound : Nat} {start t t' : Table} {spot : Spot} {context : Context} {waiting opened : SymbolId → Prop}
variable {count : Nat} {id : SymbolId} {scope : ScopeId} {body : BodyKind} {cls : ClassContext}
variable {c : Class} {key : String}

/-! ## Functions -/

theorem Param.Fresh.placed {p : Param} (fresh : p.Fresh bound True) : p.Placed bound count :=
  ⟨by simp [fresh.unset], fun e same => (fresh.default e same).mono fun _ fresh => fresh.placed⟩

/-- What a parameter becomes. -/
abbrev ParamDresses := Dresses Param.bare fun p => ∀ e, p.default = some e → e.All Expr.Unset

theorem Param.Fresh.dresses {p : Param} (fresh : p.Fresh bound True) : ParamDresses p p :=
  ⟨rfl, fun e same => (fresh.default e same).mono fun _ fresh => fresh.unset⟩

/-- The parameters of a function get the types of its signature. -/
theorem bindParams_goes {g : FunctionSymbol} : ∀ {params : List Param} {types : List Ty} {t : Table},
    Underway bound start spot t context → context.Writable start → (∃ s, t.symbol? id = some s ∧ s.function? = some g) →
    (∀ ty ∈ types, ty ∈ g.params) → (∀ p ∈ params, p.Fresh bound True) →
    Goes (Plain bound) t (bindParams context params types)
      (fun ps t' => Binds start.scopes.size bound t t' ∧ (∀ p ∈ ps, p.Placed bound t'.symbols.size) ∧
        (∀ p ∈ ps, ∀ id, p.symbol = some id → t.symbols.size ≤ id.index) ∧ List.Forall₂ ParamDresses params ps ∧
        ∀ later, t'.Persists later → later.Typed t.symbols.size t'.symbols.size)
      fun ps t' => List.Forall₂ (fun p => TypeName.Means t .any p.typeName) params types →
        ∀ p ∈ ps, p.Filled t' context.Inherits ∧ ∀ e, p.default = some e → e.All (Expr.Bound t' spot)
  | [], types, t, underway, _, _, _, _ => by
    exact .pure ⟨.refl underway.intact, by simp, by simp, .nil, fun _ _ => .empty (Nat.le_refl _)⟩ (by simp)
  | p :: ps, [], t, underway, _, _, _, fresh => by
    exact .pure ⟨.refl underway.intact, fun q inside => Param.Fresh.placed (fresh q inside),
      fun q inside => by simp [(fresh q inside).unset],
      List.forall₂_same.mpr fun q inside => Param.Fresh.dresses (fresh q inside),
      fun _ _ => .empty (Nat.le_refl _)⟩ nofun
  | p :: ps, ty :: types, t, underway, writable, function, among, fresh => by
    obtain ⟨s, held, isFunction⟩ := function
    have intact := underway.intact
    have inside := underway.valid.inside
    have here := fresh p List.mem_cons_self
    have there := fun q inside => fresh q (List.mem_cons_of_mem _ inside)
    have amongRest := fun ty inside => among ty (List.mem_cons_of_mem _ inside)
    unfold bindParams
    apply Goes.askLocal intact.sound inside
    intro found _ _
    apply Goes.ite
    · intro _
      refine .reports ⟨here.name.within, rfl⟩ ?_
      apply (bindParams_goes underway writable ⟨s, held, isFunction⟩ amongRest there).seq
      rintro ps' t' ⟨binds, placed, newer, dressed, typed⟩
      exact .pure ⟨binds, List.forall_mem_cons.mpr ⟨Param.Fresh.placed here, placed⟩,
        List.forall_mem_cons.mpr ⟨by simp [here.unset], newer⟩, .cons (Param.Fresh.dresses here) dressed, typed⟩ trivial
    · intro _
      have allows : t.Allows bound context.scope p.name.name p.name.span
          (.variable { type := some ty, status := .declaring, kind := .localVar }) := by
        refine .var inside here.name ?_ nofun
        rintro _ ⟨⟩
        exact ((intact.sound.function_sound held isFunction).params ty (among ty List.mem_cons_self)).mono
          (Nat.le_succ _)
      apply (declare_goes intact allows).seq
      rintro _ t₁ ⟨rfl, adds, intact₁⟩
      have binds₁ : Binds start.scopes.size bound t t₁ := by
        refine ⟨.declare intact adds allows rfl fun good => ⟨?_, nofun⟩, .declare adds rfl fun _ => writable⟩
        rintro _ _ ⟨⟩ ⟨⟩
        exact ((good id s held).function isFunction).params ty (among ty List.mem_cons_self)
      have declared := adds.held
      apply (bindOption_answers (underway.mono binds₁) here.default).then
      rintro default ⟨dressedDefault, placedDefault⟩
      apply (setReady_goes intact₁ (Table.symbol_bound declared)).seq
      rintro _ t₂ ⟨same, advances₂⟩
      have size : t₂.symbols.size = t₁.symbols.size := same ▸ Table.edit_size
      have binds₂ : Binds start.scopes.size bound t t₂ :=
        ⟨binds₁.toAdvances.trans advances₂, same ▸ binds₁.toGains.recolor (Nat.le_refl _)⟩
      apply (bindParams_goes (underway.mono binds₂) writable
        (binds₂.persists.function held isFunction) amongRest there).bind
      rintro ps' t₃ ⟨binds₃, placed, newer, dressed, typed⟩
      have after := advances₂.trans binds₃.toAdvances
      have known : Param.Placed bound t₃.symbols.size { p with symbol := some ⟨t.symbols.size⟩, default } := by
        refine ⟨?_, fun e same => ?_⟩
        · rintro _ ⟨⟩
          exact after.persists.below (Table.symbol_bound declared)
        · exact (placedDefault e same).mono fun _ placed => placed.mono after.persists.size
      refine .pure ⟨binds₂.trans binds₃, List.forall_mem_cons.mpr ⟨known, placed⟩,
        List.forall_mem_cons.mpr ⟨?_, fun q inside id same => ?_⟩,
        .cons ⟨by simp only [Param.bare, dressedDefault.same], dressedDefault.all⟩ dressed, fun later persists => ?_⟩
        fun rest met means => ?_
      · rintro _ ⟨⟩
        exact Nat.le_refl _
      · exact Nat.le_trans binds₂.persists.size (newer q inside id same)
      · obtain ⟨v, kept, type, _⟩ := (after.persists.trans persists).var_kept (Table.var_of declared)
        have single : later.Typed t.symbols.size t₂.symbols.size := by
          rw [size, adds.size]
          exact .single kept (by simp [type])
        exact single.append (typed later persists)
      · cases means with
        | cons meansHere meansThere =>
          obtain ⟨v, kept, type, _⟩ := after.persists.var_kept (Table.var_of declared)
          have met e same := after.met (met e same)
          refine List.forall_mem_cons.mpr ⟨⟨⟨?_, fun e same => (met e same).mono fun _ met => met.filled⟩,
            fun e same => (met e same).mono fun _ met => met.bound⟩, ?_⟩
          · exact ⟨⟨t.symbols.size⟩, v, ty, rfl, kept, type, meansHere.mono (binds₂.trans binds₃).persists⟩
          · exact rest (meansThere.imp fun _ _ => .mono binds₂.persists)

/-- The context of a body does not depend on where it is opened. -/
theorem Context.Valid.inBody {opening : Option Span} {cls : Option ClassContext}
    (valid : Context.Valid t { scope, body, cls }) : Context.Valid t { scope, body, cls, openingCall := opening } :=
  ⟨valid.inside, valid.superclass, valid.object⟩

/-- **Binding a function** that is declared. -/
theorem bindFunction_goes {parent : ScopeId} {cls : Option ClassContext} {f : Function} (intact : t.Intact bound)
    (valid : Context.Valid t { scope := parent, body, cls }) (waits : ∀ id, waiting id → t.Pending id)
    (declared : f.Declared bound t) :
    Goes (Plain bound) t (bindFunction parent body cls f)
      (fun f' t' => Binds t.scopes.size bound t t' ∧ (f.Kin f' ∧ f.Dresses Expr.Unset f') ∧
        ∀ later, t'.Persists later → f'.Threads bound later t.symbols.size t'.symbols.size)
      fun f' t' => ∀ owner, f.Signed t owner → f'.Filled t' (Context.Inherits { scope := parent, body, cls }) owner ∧
        f'.Bound t' ⟨parent, body, waiting⟩ := by
  unfold bindFunction
  cases isSymbol : f.symbol with
  | none =>
    have unset : f.All Expr.Unset :=
      ⟨fun p inside => (Param.Fresh.dresses (declared.params p inside)).all,
        holdsInAll_mono Checks.fresh_unset declared.body⟩
    refine .pure ⟨.refl intact, ⟨.refl f, rfl, unset⟩,
      fun _ _ => ⟨declared.endSpan, fun _ => rfl, by simp [isSymbol]⟩⟩ ?_
    intro owner signed
    obtain ⟨id, _, _, same, _⟩ := signed.symbol
    rw [isSymbol] at same
    cases same
  | some id =>
    obtain ⟨s, g, held, isFunction, _⟩ := declared.symbol id isSymbol
    apply Goes.askSymbol held
    extract_lets types opening
    have same : types = g.params := by simp [types, isFunction]
    apply (createScope_goes intact valid.inside).seq
    rintro _ _ ⟨rfl, rfl, _⟩
    have binds₁ : Binds t.scopes.size bound t (t.createScope parent).2 := .createScope intact valid.inside
    have outside : Underway bound t ⟨parent, body, waiting⟩ t { scope := parent, body, cls } :=
      .begin intact valid waits rfl rfl
    have nested := outside.nested
    have writable : Context.Writable t { scope := ⟨t.scopes.size⟩, body, cls } := .inr (Nat.le_refl _)
    have size : (t.createScope parent).2.symbols.size = t.symbols.size := rfl
    generalize (t.createScope parent).2 = t₁ at binds₁ nested size
    have params := bindParams_goes nested writable (binds₁.persists.function held isFunction)
      (fun ty inside => same ▸ inside : ∀ ty ∈ types, ty ∈ g.params) declared.params
    apply params.bind
    rintro ps t₂ ⟨binds₂, placedParams, newer, dressedParams, typed⟩
    obtain ⟨sameParams, unsetParams⟩ := Dresses.list dressedParams
    have names : ps.map Param.typeName = f.params.map Param.typeName := by
      simpa [Param.bare, Function.comp_def] using congrArg (List.map Param.typeName) sameParams
    have defaults : ps.map (fun p => p.default.isNone) = f.params.map fun p => p.default.isNone := by
      simpa [Param.bare, Function.comp_def] using congrArg (List.map fun p => p.default.isNone) sameParams
    have inBody : Underway bound t ⟨parent, body, waiting⟩ t₂
        { scope := ⟨t.scopes.size⟩, body, cls, openingCall := opening } :=
      { nested.mono binds₂ with valid := (nested.mono binds₂).valid.inBody }
    apply (bindStmts_goes inBody writable declared.body).bind
    rintro stmts t₃ ⟨binds₃, dressed, threads⟩
    have binds := binds₁.trans (binds₂.trans binds₃)
    have became : f.bare = Function.bare { f with params := ps, body := stmts } := by
      simp only [Function.bare, sameParams, dressed.same]
    refine .pure ⟨binds, ⟨⟨rfl, isSymbol.symm, defaults⟩, became.symm, unsetParams, dressed.all⟩,
      fun later persists => ⟨declared.endSpan, by simp, fun id' same => ?_⟩⟩ fun body params owner signed => ?_
    · cases Option.some.inj same
      obtain ⟨s', held', isFunction'⟩ := (binds.persists.trans persists).function held isFunction
      refine ⟨s', ⟨t.scopes.size⟩, t₂.symbols.size, held', by simp [isFunction'], rfl, ?_, ?_, ?_, placedParams,
        size ▸ newer, threads later persists⟩
      · exact persists.inside ((binds₂.trans binds₃).persists.inside nested.valid.inside)
      · exact size ▸ binds₂.persists.size
      · exact size ▸ typed later (binds₃.persists.trans persists)
    · obtain ⟨id', s', g', same', held', core, _, types'⟩ := signed.symbol
      cases same'.symm.trans isSymbol
      cases held'.symm.trans held
      have functions := congrArg SymbolKind.function? core
      rw [SymbolKind.function_core, SymbolKind.function_core] at functions
      have signature : g = g' := by
        rw [Symbol.function?, functions] at isFunction
        cases owner <;> exact (Option.some.inj isFunction).symm
      have known : List.Forall₂ (fun p => TypeName.Means t₁ .any p.typeName) f.params types := by
        rw [same, signature]
        exact types'.imp fun _ _ => .mono binds₁.persists
      refine ⟨⟨?_, rfl, fun p inside => (params known p inside).1.mono binds₃.persists,
        holdsInAll_mono Checks.met_filled body⟩, fun p inside e same => ?_, holdsInAll_mono Checks.met_bound body⟩
      · refine (signed.mono binds.persists).update isSymbol.symm rfl rfl names fun g => ?_
        cases owner <;> rfl
      · exact ((params known p inside).2 e same).mono fun _ isBound => isBound.mono binds₃.stays

/-! ## Classes -/

theorem bindMethod_goes {m : Method} (intact : t.Intact bound)
    (valid : ∀ body, Context.Valid t { scope, body, cls := some cls }) (waits : ∀ id, waiting id → t.Pending id)
    (declared : m.Declared bound t) :
    Goes (Plain bound) t (bindMethod c scope cls m)
      (fun m' t' => Binds t.scopes.size bound t t' ∧ (m.Kin m' ∧ Dresses Method.bare (·.function.All Expr.Unset) m m') ∧
        ∀ later, t'.Persists later → m'.function.Threads bound later t.symbols.size t'.symbols.size)
      fun m' t' => m.function.Signed t (some ⟨cls.id, c.name.name, m⟩) →
        m'.function.Filled t' (∃ d, cls.superclass = some d) (some ⟨cls.id, c.name.name, m'⟩) ∧
        m'.Bound t' c.name.name scope waiting := by
  have static : Answers (Plain bound) t (m.staticSpan.forM (report .staticConstructor)) (fun _ => True)
      fun _ => m.isStatic = false := by
    unfold Method.isStatic
    cases span : m.staticSpan with
    | none => exact .pure trivial rfl
    | some span' => exact .report ⟨declared.staticSpan span' span, rfl⟩ trivial
  unfold bindMethod
  extract_lets body last
  have ends : Goes (Plain bound) t (last ())
      (fun m' t' => Binds t.scopes.size bound t t' ∧ (m.Kin m' ∧ Dresses Method.bare (·.function.All Expr.Unset) m m') ∧
        ∀ later, t'.Persists later → m'.function.Threads bound later t.symbols.size t'.symbols.size)
      fun m' t' => (m.isStatic → body = .staticMethod) → m.function.Signed t (some ⟨cls.id, c.name.name, m⟩) →
        m'.function.Filled t' (∃ d, cls.superclass = some d) (some ⟨cls.id, c.name.name, m'⟩) ∧
        m'.Bound t' c.name.name scope waiting := by
    apply (bindFunction_goes intact (valid body) waits declared.function).bind
    rintro f t' ⟨binds, ⟨kin, dressed⟩, threads⟩
    have same : Method.Kin m { m with function := f } := ⟨kin, rfl⟩
    refine .pure ⟨binds, ⟨same, by simp only [Method.bare, dressed.same], dressed.all⟩, threads⟩
      fun met static signed => ?_
    have inherits : Context.Inherits { scope, body, cls := some cls } ↔ ∃ d, cls.superclass = some d := by
      simp [Context.Inherits]
    obtain ⟨filled, isBound⟩ := met _ signed
    rw [propext inherits] at filled
    refine ⟨{ filled with signed := filled.signed.update rfl rfl rfl rfl fun _ => rfl }, ?_, ?_⟩
    · rw [same.body]
      exact isBound
    · rw [same.body]
      exact static
  split
  · apply static.then
    intro _ _
    exact ends.mono (fun _ _ holds => holds) fun _ _ _ quiet unmarked => quiet (by simp [unmarked])
  next notConstructor =>
    refine ends.mono (fun _ _ holds => holds) fun _ _ _ quiet => quiet fun isStatic => ?_
    have other : m.function.name.name ≠ c.name.name := fun same => notConstructor (if_pos same)
    exact (if_neg other).trans (if_pos isStatic)

/-- The methods of a class, one after the other. -/
theorem bindMethods_goes {methods : List Method} (intact : t.Intact bound)
    (valid : ∀ body, Context.Valid t { scope, body, cls := some cls }) (waits : ∀ id, waiting id →
    t.Pending id ∧ ¬ opened id) (declared : ∀ m ∈ methods, m.Declared bound t) : Goes (Plain bound) t
      (methods.mapM (bindMethod c scope cls)) (fun ms t' => (Advances bound t t' ∧ t.Moves opened t') ∧
        List.Forall₂ (fun m m' => m.Kin m' ∧ Dresses Method.bare (·.function.All Expr.Unset) m m') methods ms ∧
        ∀ later, t'.Persists later → threads (fun first (m : Method) last => m.function.Threads bound later first last)
        t.symbols.size ms t'.symbols.size)
      fun ms t' => List.Forall₂ (fun m m' => m.function.Signed t (some ⟨cls.id, c.name.name, m⟩) →
        m'.function.Filled t' (∃ d, cls.superclass = some d) (some ⟨cls.id, c.name.name, m'⟩) ∧
          m'.Bound t' c.name.name scope waiting) methods ms := by
  apply mapM_chain (L := fun t t' => Advances bound t t' ∧ t.Moves opened t')
    (P := fun _ (m m' : Method) => m.Kin m' ∧ Dresses Method.bare (·.function.All Expr.Unset) m m')
    (S := fun t' (m m' : Method) => m.function.Signed t (some ⟨cls.id, c.name.name, m⟩) →
      m'.function.Filled t' (∃ d, cls.superclass = some d) (some ⟨cls.id, c.name.name, m'⟩) ∧
      m'.Bound t' c.name.name scope waiting)
    (fun later => ⟨.refl later.1.intact, .refl _⟩)
    (fun first second => ⟨first.1.trans second.1, first.2.trans second.2⟩)
    (fun later => later.1.persists) fun _ kin => kin
  · exact fun later met signed => ⟨(met signed).1.mono later.1.persists, (met signed).2.mono later.1.stays⟩
  · rintro m inside t₁ ⟨advances, moves⟩
    have waits₁ : ∀ id, waiting id → t₁.Pending id := fun id wait => moves.pending (waits id wait).2 (waits id wait).1
    apply (bindMethod_goes advances.intact (fun body => (valid body).mono advances) waits₁
      ((declared m inside).mono advances.persists)).mono
    · exact fun _ _ ⟨binds, rest⟩ => ⟨⟨binds.toAdvances, .ofGains binds.toGains⟩, rest⟩
    · exact fun m' t' _ quiet signed => quiet (signed.mono advances.persists)
  · exact ⟨.refl intact, .refl t⟩

/-- The initializers of the fields of a class. -/
theorem bindFields_answers {fields : List Field}
    (underway : Underway bound start spot t { scope, cls := some cls }) (declared : ∀ f ∈ fields, f.Declared bound t) :
    Answers (Plain bound) t (fields.mapM fun f => do
        return { f with initializer := ← f.initializer.mapM (bindExpr { scope, cls := some cls }) })
      (List.Forall₂ (fun f f' => (f.Kin f' ∧ f'.Placed bound t.symbols.size) ∧
        Dresses Field.bare (fun f => ∀ e, f.initializer = some e → e.All Expr.Unset) f f') fields)
      (List.Forall₂ (fun f f' => f.Signed t → f'.Filled t (∃ d, cls.superclass = some d) ∧
        ∀ e, f'.initializer = some e → e.All (Expr.Bound t spot)) fields) := by
  apply Answers.mapM
  intro f inside
  apply (bindOption_answers underway (declared f inside).initializer).bind
  rintro initializer ⟨dressed, placed⟩
  refine .pure ⟨⟨rfl, placed, (declared f inside).symbol⟩, by simp only [Field.bare, dressed.same], dressed.all⟩
    fun met signed => ?_
  have inherits : Context.Inherits { scope, cls := some cls } ↔ ∃ d, cls.superclass = some d := by
    simp [Context.Inherits]
  rw [propext inherits] at met
  exact ⟨⟨⟨signed.symbol⟩, fun e same => (met e same).mono fun _ met => met.filled⟩,
    fun e same => (met e same).mono fun _ met => met.bound⟩

/-- Steps that add no symbols and change nothing but what is opened, for every symbol of a list. -/
theorem forM_opens {ids : List SymbolId} {g : SymbolId → Analysis Unit} (intact : t.Intact bound)
    (there : ∀ id ∈ ids, id.index < t.symbols.size)
    (each : ∀ {t₁ : Table}, ∀ id ∈ ids, t₁.Intact bound → id.index < t₁.symbols.size → Goes (Plain bound) t₁ (g id)
      (fun _ t' => Advances bound t₁ t' ∧ t₁.Moves opened t' ∧ t'.symbols.size = t₁.symbols.size)) :
    Goes (Plain bound) t (ids.forM g)
      (fun _ t' => Advances bound t t' ∧ t.Moves opened t' ∧ t'.symbols.size = t.symbols.size) := by
  have loop : Goes (Plain bound) t (ids.forM g)
      (fun _ t' => (Advances bound t t' ∧ t'.symbols.size = t.symbols.size) ∧ t.Moves opened t')
      fun _ _ => True → True := by
    apply Goes.forM (K := fun _ => True) .refl .trans
    · rintro id inside t₁ ⟨advances₁, size₁⟩
      apply (each id inside advances₁.intact (advances₁.persists.below (there id inside))).mono
      · exact fun _ t' ⟨advances, moves, size⟩ => ⟨⟨advances₁.trans advances, size.trans size₁⟩, moves⟩
      · exact fun _ _ _ _ _ => trivial
    · exact ⟨.refl intact, rfl⟩
  exact loop.mono (fun _ _ ⟨⟨advances, size⟩, moves⟩ => ⟨advances, moves, size⟩) fun _ _ _ _ => trivial

/-- The members of a class can be used from now on. -/
theorem openMembers_goes {cls : SymbolId} (intact : t.Intact bound) (below : cls.index < t.symbols.size)
    (own : ∀ k, t.class? cls = some k → ∀ id ∈ k.fields, opened id) :
    Goes (Plain bound) t (openMembers cls)
      (fun _ t' => Advances bound t t' ∧ t.Moves opened t' ∧ t'.symbols.size = t.symbols.size) := by
  unfold openMembers
  apply Goes.askBelow below
  intro s held
  cases isClass : s.class? with
  | none => exact .pure ⟨.refl intact, .refl t, rfl⟩ trivial
  | some c =>
    have isClass : t.class? cls = some c := by simp [Table.class?, held, isClass]
    have sound := intact.sound.class_sound isClass
    have fields : Goes (Plain bound) t (c.fields.forM fun id => setStatus id .ready)
        (fun _ t' => Advances bound t t' ∧ t.Moves opened t' ∧ t'.symbols.size = t.symbols.size) := by
      apply forM_opens intact sound.fields
      intro t₁ id inside intact₁ below₁
      apply (setReady_goes intact₁ below₁).imp
      rintro _ _ ⟨rfl, advances⟩
      refine ⟨advances, .edit (fun closed => ?_) (fun kind => by cases kind <;> rfl) (Symbol.member_variable _),
        Table.edit_size⟩
      exact absurd (own c isClass id inside) closed
    apply fields.seq
    rintro _ t₁ ⟨advances₁, moves₁, size₁⟩
    have methods : Goes (Plain bound) t₁
        (c.methods.forM fun id => modifySymbol id (·.mapMethod fun m => { m with ready := true }))
        (fun _ t' => Advances bound t₁ t' ∧ t₁.Moves opened t' ∧ t'.symbols.size = t₁.symbols.size) := by
      apply forM_opens advances₁.intact fun id inside => advances₁.persists.below (sound.methods id inside)
      intro t₂ id _ intact₂ below₂
      apply (modifyMethod_goes (f := fun m => { m with ready := true }) intact₂ below₂ _ fun _ => rfl).mono
      · rintro _ _ ⟨rfl, advances, _⟩
        refine ⟨advances, .edit (fun _ {kind} isVar => ?_) (fun kind => by cases kind <;> rfl) Symbol.member_ready,
          Table.edit_size⟩
        cases kind with
        | method => cases isVar
        | _ => rfl
      · exact fun _ _ _ _ => trivial
      · exact fun {m} sound => ⟨sound.function, sound.owner, sound.overriders, sound.nameSpan,
          sound.staticSpan, sound.returnSpan⟩
    apply methods.imp
    rintro _ t' ⟨advances, moves, size⟩
    exact ⟨advances₁.trans advances, moves₁.trans moves, size.trans size₁⟩

/-- The keys of the object and of the class can hold a variable with a type. -/
theorem suits_this {var : VariableSymbol} (this : key = instanceThisKey ∨ key = staticThisKey)
    (typed : var.type.isSome) : (SymbolKind.variable var).Suits key := by
  refine ⟨fun name same => ?_, fun _ => ⟨var, rfl, typed⟩, fun _ => ?_⟩
  · have chars := congrArg String.toList same
    rcases this with rfl | rfl <;> simp only [overloadKey, String.toList_append] at chars <;> cases chars
  · rcases this with rfl | rfl <;> decide

theorem declareThis_goes {kind : VariableKind}
    (intact : t.Intact bound) (inside : scope.index < t.scopes.size) (below : id.index < t.symbols.size)
    (within : c.name.span.Within bound) (this : key = instanceThisKey ∨ key = staticThisKey) :
    Goes (Plain bound) t (declareThis c id scope key kind)
      (fun new t' => Advances bound t t' ∧ t'.symbols.size = t.symbols.size + 1 ∧
        (∃ found, t'.lookupLocal scope key = .ok (some found)) ∧ new = ⟨t.symbols.size⟩ ∧
        (∃ v, t'.var? ⟨t.symbols.size⟩ = some v ∧ v.type.isSome) ∧ t.Moves (fun _ => False) t') := by
  have allows : t.Allows bound scope key c.name.span
      (.variable { type := some (.ofClass c.name.name id), status := .ready, kind }) := by
    refine ⟨inside, within, ⟨?_, nofun⟩, suits_this this rfl, rfl⟩
    rintro _ ⟨⟩
    exact Nat.lt_succ_of_lt below
  obtain ⟨t', ran, adds⟩ := Table.declare_total (t := t) inside key c.name.span
    (.variable { type := some (.ofClass c.name.name id), status := .ready, kind })
  have advances : Advances bound t t' := by
    apply Advances.declare intact adds allows rfl
    intro _
    refine ⟨?_, nofun⟩
    rintro _ _ ⟨⟩ ⟨⟩
    trivial
  have found := adds.declares.lookup scope key
  rw [if_pos ⟨rfl, rfl⟩] at found
  unfold declareThis
  apply Goes.update ran
  · exact ⟨advances, adds.size, ⟨_, found⟩, rfl, ⟨_, Table.var_of adds.held, rfl⟩,
      .declare adds rfl (by rintro _ ⟨⟩ ⟨⟩)⟩
  · trivial

/-- The object and the class itself have symbols now, with types, and the object can be seen in
the scope of the class. -/
structure HasThis (bound : Nat) (t : Table) (scope : ScopeId) (instanceThis staticThis : SymbolId)
    (t' : Table) : Prop where
  advances : Advances bound t t'
  moves : t.Moves (fun _ => False) t'
  object : ∃ found, t'.lookupLocal scope instanceThisKey = .ok (some found)
  typed : ∀ {later : Table}, t'.Persists later → later.Typed t.symbols.size t'.symbols.size
  instanceVar : (t'.var? instanceThis).isSome
  staticVar : (t'.var? staticThis).isSome

/-- What follows the declarations of the object and of the class. -/
theorem declareBoth_goes {α : Type} {f : SymbolId → SymbolId → Analysis α} {A B : α → Table → Prop}
    (intact : t.Intact bound) (inside : scope.index < t.scopes.size) (below : id.index < t.symbols.size)
    (within : c.name.span.Within bound)
    (rest : ∀ instanceThis staticThis t', HasThis bound t scope instanceThis staticThis t' →
      Goes (Plain bound) t' (f instanceThis staticThis) A B) :
    Goes (Plain bound) t (do
      let instanceThis ← declareThis c id scope instanceThisKey .instanceField
      let staticThis ← declareThis c id scope staticThisKey .staticField
      f instanceThis staticThis) A B := by
  apply (declareThis_goes intact inside below within (.inl rfl)).seq
  rintro instanceThis t₁ ⟨advances₁, size₁, ⟨found, sees⟩, rfl, ⟨v₁, isVar₁, typed₁⟩, moves₁⟩
  apply (declareThis_goes advances₁.intact (advances₁.persists.inside inside)
    (advances₁.persists.below below) within (.inr rfl)).seq
  rintro staticThis t₂ ⟨advances₂, size₂, _, rfl, ⟨v₂, isVar₂, typed₂⟩, moves₂⟩
  refine rest _ _ t₂ ⟨advances₁.trans advances₂, moves₁.trans moves₂, advances₂.persists.names sees,
    fun {later} persists => ?_, advances₂.persists.isVar (by simp [isVar₁]), by simp [isVar₂]⟩
  obtain ⟨w₁, held₁, type₁, _⟩ := (advances₂.persists.trans persists).var_kept isVar₁
  obtain ⟨w₂, held₂, type₂, _⟩ := persists.var_kept isVar₂
  have first : later.Typed t.symbols.size t₁.symbols.size := size₁ ▸ .single held₁ (type₁ ▸ typed₁)
  have second : later.Typed t₁.symbols.size t₂.symbols.size := size₂ ▸ .single held₂ (type₂ ▸ typed₂)
  exact first.append second

/-- What a class has become that was bound. -/
structure BindsClass (bound : Nat) (t : Table) (opened : SymbolId → Prop) (c c' : Class) (t' : Table) : Prop where
  advances : Advances bound t t'
  moves : t.Moves opened t'
  kin : c.Kin c'
  dressed : c.Dresses Expr.Unset c'
  threads : ∀ later, t'.Persists later → c'.Threads bound later t.symbols.size t'.symbols.size

/-- A class that was not declared is left as it is. -/
theorem bindClass_undeclared {B : Class → Table → Prop} (intact : t.Intact bound) (declared : c.Declared bound count t)
    (unset : c.All Expr.Unset) (missing : ∀ id scope, c.symbol = some id → c.scope = some scope → False) :
    Goes (Plain bound) t (pure c) (BindsClass bound t opened c) fun c' t' => c.Signed t → B c' t' := by
  have noSymbol : c.symbol = none := by
    cases isSymbol : c.symbol with
    | none => rfl
    | some id =>
      obtain ⟨scope, _, placed, _⟩ := (declared.opened id isSymbol).held
      exact (missing id scope isSymbol placed).elim
  refine .pure ⟨.refl intact, .refl t, .refl c, ⟨rfl, unset⟩, fun _ _ => ⟨fun _ => rfl, by simp [noSymbol]⟩⟩
    fun signed => ?_
  obtain ⟨id, same, _⟩ := signed.symbol
  rw [noSymbol] at same
  cases same

/-- **Binding a class** that is declared. -/
theorem bindClass_goes (intact : t.Intact bound) (declared : c.Declared bound count t) (unset : c.All Expr.Unset)
    (own : ∀ id k, c.symbol = some id → t.class? id = some k → ∀ j ∈ k.fields, opened j)
    (waits : ∀ id, waiting id → t.Pending id ∧ ¬ opened id) :
    Goes (Plain bound) t (bindClass c) (BindsClass bound t opened c)
      fun c' t' => c.Signed t → (c'.Filled t' fun id => ∃ d, t.Under id d) ∧
        ((∀ id, c.Owns id → t.Pending id) → c'.Bound t' waiting) := by
  unfold bindClass
  split
  next id scope isSymbol isScope =>
    obtain ⟨_, plain, scope', k, placed, held, same⟩ := declared.opened id isSymbol
    cases isScope.symm.trans placed
    have inside : scope.index < t.scopes.size := same ▸ (intact.sound.class_sound held).scope
    have below : id.index < t.symbols.size := Table.class_bound (by simp [held])
    obtain ⟨s, symbol, isClass⟩ := Table.class_symbol held
    apply Goes.askSymbol symbol
    extract_lets superclass cls
    have upper : superclass = k.upper := by simp [superclass, isClass]
    have inherits : (∃ d, cls.superclass = some d) ↔ ∃ d, t.Under id d := by
      simp [cls, upper, Table.Under, held]
    have supers : ∀ d, superclass = some d → (t.class? d).isSome := by
      intro d above
      exact intact.arranged.forest.closed (c := id) ⟨k, held, upper ▸ above⟩
    apply declareBoth_goes intact inside below declared.name.within
    rintro instanceThis staticThis t₂ ⟨advances, moves, ⟨object, sees⟩, typed, isObject, isItself⟩
    -- The fields are bound where nothing of the class can be used yet.
    have fieldsValid : Context.Valid t₂ { scope, cls := some cls } := by
      refine ⟨advances.persists.inside inside, ?_, by rintro (impossible | impossible) <;> cases impossible⟩
      rintro _ d ⟨⟩ above
      exact advances.persists.isClass (supers d above)
    have initial : Underway bound t₂ ⟨scope, .topLevel, fun id => waiting id ∨ c.Owns id ∧ t.Pending id⟩ t₂
        { scope, cls := some cls } := by
      refine .begin advances.intact fieldsValid (fun j wait => moves.pending not_false ?_) rfl rfl
      exact wait.elim (fun wait => (waits j wait).1) fun wait => wait.2
    apply (bindFields_answers initial
      fun f inside' => (declared.fields (by simp [isSymbol]) f inside').mono advances.persists).then
    intro fs placedFields
    have own₂ : ∀ k', t₂.class? id = some k' → ∀ j ∈ k'.fields, opened j :=
      fun k' held₂ => own id k' isSymbol (moves.classes id ▸ held₂)
    apply (openMembers_goes advances.intact (advances.persists.below below) own₂).seq
    rintro _ t₃ ⟨advances₃, moves₃, size₃⟩
    have before := advances.trans advances₃
    have methodsValid (body : BodyKind) : Context.Valid t₃ { scope, body, cls := some cls } := by
      refine ⟨before.persists.inside inside, ?_, fun _ => ?_⟩
      · rintro _ d ⟨⟩ above
        exact before.persists.isClass (supers d above)
      · obtain ⟨object', found'⟩ := advances₃.persists.names sees
        exact ⟨scope, object', .refl, found'⟩
    have waits₃ : ∀ j, waiting j → t₃.Pending j ∧ ¬ opened j := fun j wait =>
      ⟨moves₃.pending (waits j wait).2 (moves.pending not_false (waits j wait).1), (waits j wait).2⟩
    apply (bindMethods_goes (c := c) advances₃.intact methodsValid waits₃ fun m inside' =>
      (declared.methods (by simp [isSymbol]) m inside').mono before.persists).bind
    rintro ms t₄ ⟨⟨advances₄, moves₄⟩, kinMethods, threads⟩
    have overall := before.trans advances₄
    have after := advances₃.trans advances₄
    have kin : c.Kin { c with
        fields := fs, methods := ms, instanceThis := some instanceThis, staticThis := some staticThis } :=
      ⟨rfl, rfl, placedFields.imp fun _ _ holds => holds.1.1, kinMethods.imp fun _ _ holds => holds.1⟩
    obtain ⟨sameFields, unsetFields⟩ := Dresses.list (placedFields.imp fun _ _ holds => holds.2)
    obtain ⟨sameMethods, unsetMethods⟩ := Dresses.list (kinMethods.imp fun _ _ holds => holds.2)
    refine .pure ⟨overall, (moves.mono fun _ => False.elim).trans (moves₃.trans moves₄), kin,
      ⟨by simp only [Class.bare, sameFields, sameMethods], unsetFields, unsetMethods⟩,
      fun later persists => ⟨by simp [isSymbol], fun id' same => ?_⟩⟩ fun methods fields signed => ?_
    · cases isSymbol.symm.trans same
      refine ⟨scope, t₃.symbols.size, (overall.persists.trans persists).below below, isScope,
        (overall.persists.trans persists).inside inside, before.persists.size,
        size₃ ▸ typed (after.persists.trans persists), fun f' inside' => ?_, threads later persists⟩
      exact size₃ ▸ forall_right placedFields (fun _ _ holds => holds.1.2) f' inside'
    obtain ⟨id', same, all⟩ := signed.symbol
    cases isSymbol.symm.trans same
    have knownFields := (List.forall₂_and_left (p := fun f : Field => f.Signed t) c.fields fs).mpr
      ⟨signed.fields, fields⟩
    have knownMethods := (List.forall₂_and_left (p := fun m : Method => m.function.Signed t (some ⟨id, c.name.name, m⟩))
      c.methods ms).mpr ⟨all, methods⟩
    rw [propext inherits] at knownFields knownMethods
    refine ⟨⟨⟨id, isSymbol, overall.persists.isClass (by simp [held]), ?_, ?_⟩, by simp [isScope],
      ⟨instanceThis, rfl, after.persists.isVar isObject⟩, ⟨staticThis, rfl, after.persists.isVar isItself⟩⟩,
      fun closed => ⟨fun scope' placed' => ?_, fun scope' placed' => ?_⟩⟩
    · exact forall_right knownFields fun f f' holds => (holds.2 (holds.1.mono advances.persists)).1.mono after.persists
    · exact forall_right knownMethods fun m m' holds => (holds.2 (holds.1.mono before.persists)).1
    · cases isScope.symm.trans placed'
      have same : (fun id => waiting id ∨ c.Owns id ∧ t.Pending id) = fun id => waiting id ∨ c.Owns id :=
        funext fun id => by rw [and_iff_left_of_imp (closed id)]
      rw [kin.owns, ← same]
      exact forall_right knownFields fun f f' holds e initializer =>
        ((holds.2 (holds.1.mono advances.persists)).2 e initializer).mono fun _ isBound => isBound.mono after.stays
    · cases isScope.symm.trans placed'
      exact forall_right knownMethods fun m m' holds => (holds.2 (holds.1.mono before.persists)).2
  next missing => exact bindClass_undeclared intact declared unset missing

end Binding

end Quasicode
