import Quasicode.Proofs.TypingSelection

/-!
Tables whose variables get their types. While a bound program is typed, nothing of the table changes but the types of
variables that were declared without one. What is known of the bound table therefore stays known, and the variables that
have types so far are told by their numbers.
-/
namespace Quasicode

namespace Table

variable {bound : Nat} {given : SymbolId → Option Ty} {t t' : Table} {id : SymbolId}

namespace Retyped

theorem refl (t : Table) : Retyped (fun _ => none) t t := by
  have same : (fun (_ : SymbolId) kind => SymbolKind.mapVariable (VariableSymbol.given none) kind) =
      fun _ kind => kind := by
    funext _ kind
    cases kind <;> simp [SymbolKind.mapVariable, VariableSymbol.given]
  refine ⟨?_, rfl⟩
  rw [same]
  exact .refl t

/-- A variable that was declared without a type is given one. -/
theorem set {v : VariableSymbol} {ty : Ty} (retyped : Retyped given t t') (held : t.var? id = some v)
    (untyped : v.type = none) :
    Retyped (Function.update given id (some ty)) t
      (t'.edit id (·.mapVariable fun v => { v with type := some ty })) := by
  refine ⟨⟨edit_size.trans retyped.size, retyped.classCount, fun j => ?_⟩, retyped.scopes⟩
  rw [edit_symbol?, retyped.symbols]
  by_cases here : j = id
  · subst here
    obtain ⟨s, found, isVar⟩ := var_symbol held
    rw [found, Function.update_self]
    cases kind : s.kind with
    | «variable» w | globalVariable w =>
      cases (show some w = some v by simpa [Symbol.var?, kind, SymbolKind.var?] using isVar)
      simp [Symbol.mapKind, kind, SymbolKind.mapVariable, VariableSymbol.given, untyped]
    | _ => simp [Symbol.var?, kind, SymbolKind.var?] at isVar
  · rw [Function.update_of_ne here]
    cases t.symbol? j <;> simp [here]

section Kept

variable (retyped : Retyped given t t')
include retyped

theorem isVar : (t'.var? id).isSome ↔ (t.var? id).isSome := by
  rw [retyped.var_eq, Option.isSome_map]

/-- What is no variable stays as it is. -/
theorem symbol_kept {s : Symbol} (held : t.symbol? id = some s) (other : s.var? = none) : t'.symbol? id = some s := by
  rw [retyped.symbol held]
  obtain ⟨_, _, _, _, kind⟩ := s
  cases kind with
  | «variable» | globalVariable => cases other
  | _ => rfl

theorem targetOf_eq : t'.targetOf id = t.targetOf id := by
  have owners : t'.owner? = t.owner? := funext fun _ => retyped.owner_eq
  unfold targetOf insertOwned
  rw [retyped.method_eq, owners]

/-- What is known of a function. -/
theorem function_iff {P : FunctionSymbol → Prop} : (∃ s f, t'.symbol? id = some s ∧ s.function? = some f ∧ P f) ↔
    ∃ s f, t.symbol? id = some s ∧ s.function? = some f ∧ P f := by
  rw [retyped.given_symbol]
  cases t.symbol? id <;> simp

/-- What is known of a variable, but for its type. -/
theorem variable_iff {P : ScopeId → VariableSymbol → Prop}
    (same : ∀ scope v, P scope (v.given (given id)) ↔ P scope v) :
    (∃ s v, t'.symbol? id = some s ∧ s.var? = some v ∧ P s.scope v) ↔ ∃ s v, t.symbol? id = some s ∧
      s.var? = some v ∧ P s.scope v := by
  rw [retyped.given_symbol]
  cases t.symbol? id <;> simp [same, Symbol.given_scope]

theorem takes_iff {arguments : List Expr} : t'.Takes id arguments ↔ t.Takes id arguments := retyped.function_iff

theorem inSight_iff {top : ScopeId} : t'.InSight top id ↔ t.InSight top id := by
  have outward : Binding.Outward t' = Binding.Outward t := by
    funext a b
    rw [Binding.Outward, parent?, retyped.scopes]
    rfl
  unfold InSight
  rw [outward]
  exact retyped.variable_iff (P := fun scope v => v.kind.IsField → Relation.ReflTransGen (Binding.Outward t) top scope)
    fun _ _ => Iff.rfl

theorem admits_iff {body : Binding.BodyKind} : t'.Admits body id ↔ t.Admits body id :=
  retyped.variable_iff (P := fun _ v => v.kind = .instanceField → body ≠ .staticMethod) fun _ _ => Iff.rfl

theorem fieldWithin_iff {cls : Option SymbolId} : t'.FieldWithin cls id ↔ t.FieldWithin cls id := by
  have known (t : Table) : t.FieldWithin cls id ↔ ∃ s v, t.symbol? id = some s ∧ s.var? = some v ∧
      ∃ c k, t.class? c = some k ∧ s.scope = k.scope ∧ (v.visibility = .hidden → cls = some c) := by
    unfold FieldWithin
    simp only [exists_and_left]
  rw [known, known]
  simp only [retyped.class_eq]
  exact retyped.variable_iff (P := fun scope v => ∃ c k, t.class? c = some k ∧ scope = k.scope ∧
    (v.visibility = .hidden → cls = some c)) fun _ _ => Iff.rfl

theorem usable_iff {cls : Option SymbolId} {object : Bool} : t'.Usable cls object id ↔ t.Usable cls object id := by
  have known (t : Table) : t.Usable cls object id ↔ t.MethodWithin cls id ∧ t.Callable id ∧ ∀ m, t.method? id = some m →
      m.isStatic = false → object :=
    ⟨fun usable => ⟨usable.within, usable.plain, usable.ofObject⟩, fun known => ⟨known.1, known.2.1, known.2.2⟩⟩
  rw [known, known]
  simp only [MethodWithin, Callable, retyped.method_eq]

/-- A variable that was declared with a type keeps it. -/
theorem typeOf_kept {v : VariableSymbol} {ty : Ty} (held : t.var? id = some v) (type : v.type = some ty) :
    t'.typeOf id = ty := by
  rw [typeOf, retyped.var_eq, held]
  simp [VariableSymbol.given, type]

theorem globalsReady (ready : t.GlobalsReady) : t'.GlobalsReady := by
  intro id s' held' isGlobal'
  rw [retyped.symbols] at held'
  obtain ⟨s, held, rfl⟩ := Option.map_eq_some_iff.mp held'
  have isGlobal : s.isGlobal := by
    cases kind : s.kind <;> simp_all [Symbol.isGlobal, Symbol.mapKind, SymbolKind.mapVariable, SymbolKind.isGlobal]
  obtain ⟨v, isVar, status⟩ := ready id s held isGlobal
  refine ⟨v.given (given id), ?_, status⟩
  cases kind : s.kind <;> simp_all [Symbol.var?, Symbol.mapKind, SymbolKind.mapVariable, SymbolKind.var?]

end Kept

end Retyped

end Table

/-! ## Expressions over tables that differ in types only -/

section Exprs

open Binding (Spot)

variable {given : SymbolId → Option Ty} {t t' : Table} {e : Expr} (retyped : t.Retyped given t')
include retyped

theorem Expr.complete_retyped : e.Complete t' ↔ e.Complete t := by
  have named : e.Named t' ↔ e.Named t := by
    cases e <;> simp only [Expr.Named, retyped.class_eq, retyped.isVar]
  have consistent : e.Consistent t' ↔ e.Consistent t := by
    unfold Expr.Consistent
    split <;> simp only [retyped.targetOf_eq, retyped.takes_iff]
  exact ⟨fun complete => ⟨complete.judged, named.mp complete.named, consistent.mp complete.consistent⟩,
    fun complete => ⟨complete.judged, named.mpr complete.named, consistent.mpr complete.consistent⟩⟩

theorem Expr.uses_retyped {spot : Spot} : e.Uses t' spot ↔ e.Uses t spot := by
  cases e <;> simp only [Expr.Uses, retyped.inSight_iff, retyped.admits_iff]

theorem Expr.chosen_retyped {cls : Option SymbolId} {object : Bool} :
    e.Chosen t' cls object ↔ e.Chosen t cls object := by
  have selects {callee : Callee} {id : SymbolId} {target : CallTarget} :
      callee.Selects t' cls object id target ↔ callee.Selects t cls object id target := by
    cases callee <;> simp only [Callee.Selects, retyped.targetOf_eq, retyped.usable_iff]
  have accepts {id : SymbolId} {count : Nat} : t'.Accepts id count ↔ t.Accepts id count := retyped.function_iff
  unfold Expr.Chosen
  split <;> simp only [accepts, selects, retyped.fieldWithin_iff, TypeName.OfClass, retyped.classes_eq,
    Table.Constructs, retyped.method_eq]

theorem Expr.noted_retyped : e.Noted t' ↔ e.Noted t := by
  unfold Expr.Noted
  split <;> simp only [Expr.Justified, retyped.classes_eq, Table.Targets, Table.Callable,
    retyped.method_eq, retyped.targetOf_eq]

theorem Expr.judged_retyped {bound : Nat} : e.Judged bound t' ↔ e.Judged bound t :=
  ⟨fun judged => ⟨retyped.size ▸ judged.toPlaced, judged.judged, (Expr.noted_retyped retyped).mp judged.noted⟩,
    fun judged => ⟨retyped.size ▸ judged.toPlaced, judged.judged, (Expr.noted_retyped retyped).mpr judged.noted⟩⟩

theorem Expr.All.met_retyped {inherits : Prop} {spot : Spot} (met : e.All (Expr.Met t inherits spot)) :
    e.All (Expr.Met t' inherits spot) := by
  have filled {e : Expr} : e.Filled t' inherits ↔ e.Filled t inherits := by
    cases e <;> simp only [Expr.Filled, retyped.class_eq, retyped.isVar, retyped.classes_eq]
  exact met.mono fun _ met => ⟨filled.mpr met.filled, met.bound.unset, (Expr.uses_retyped retyped).mpr met.bound.uses⟩

theorem Expr.All.finished_retyped {spot : Spot} {cls : Option SymbolId} {frame : Option Typing.Frame}
    (finished : e.All (Expr.Finished t' spot cls frame)) : e.All (Expr.Finished t spot cls frame) :=
  finished.mono fun _ finished => ⟨(Expr.complete_retyped retyped).mp finished.toComplete,
    (Expr.uses_retyped retyped).mp finished.uses, (Expr.chosen_retyped retyped).mp finished.chosen⟩

end Exprs

/-! ## Tables that typing reaches -/

/-- Typing has come from `t` to `t'`, and the variables in `known` have types. -/
structure Table.Reached (bound : Nat) (t : Table) (known : SymbolId → Prop) (t' : Table) : Prop where
  intact : t'.Intact bound
  retyped : ∃ given, t.Retyped given t'
  course : Course (Intact bound) t t'
  typed : ∀ id v, known id → t'.var? id = some v → v.type.isSome
  apart : t.UntypedApart

namespace Table.Reached

variable {bound : Nat} {t t' : Table} {known known' : SymbolId → Prop} {id : SymbolId}

theorem start {first : Nat} (intact : t.Intact bound) (typed : t.Typed 0 first) (apart : t.UntypedApart) :
    Reached bound t (·.index < first) t :=
  ⟨intact, ⟨_, .refl t⟩, .refl, fun id v before held => typed id v (Nat.zero_le _) before held, apart⟩

theorem size (reached : Reached bound t known t') : t'.symbols.size = t.symbols.size := by
  obtain ⟨given, retyped⟩ := reached.retyped
  exact retyped.size

theorem below (reached : Reached bound t known t') : id.index < t'.symbols.size ↔ id.index < t.symbols.size := by
  rw [reached.size]

theorem scopes (reached : Reached bound t known t') : t'.scopes = t.scopes := by
  obtain ⟨given, retyped⟩ := reached.retyped
  exact retyped.scopes

/-- Still no variable in the scope of a class is without a type. -/
theorem untypedApart (reached : Reached bound t known t') : t'.UntypedApart := by
  intro id s v cls k held isVar none isClass
  obtain ⟨given, retyped⟩ := reached.retyped
  rw [retyped.symbols] at held
  obtain ⟨s₀, held₀, rfl⟩ := Option.map_eq_some_iff.mp held
  obtain ⟨v₀, isVar₀, rfl⟩ := Option.map_eq_some_iff.mp ((Symbol.given_var (s := s₀)).symm.trans isVar)
  have none₀ : v₀.type = .none := by
    cases type : v₀.type with
    | none => rfl
    | some ty => simp [VariableSymbol.given, type] at none
  exact fun same => reached.apart held₀ isVar₀ none₀ (retyped.class_eq ▸ isClass) same

/-- More variables have types if they were declared with one. -/
theorem extend (reached : Reached bound t known t')
    (more : ∀ id v, known' id → t.var? id = some v → known id ∨ v.type.isSome) :
    Reached bound t known' t' := by
  refine ⟨reached.intact, reached.retyped, reached.course, fun id v' isKnown held' => ?_, reached.apart⟩
  obtain ⟨given, retyped⟩ := reached.retyped
  obtain ⟨v, held, same⟩ := Option.map_eq_some_iff.mp (retyped.var_eq ▸ held')
  rcases more id v isKnown held with isKnown | typed
  · exact reached.typed id v' isKnown held'
  · obtain ⟨ty, type⟩ := Option.isSome_iff_exists.mp typed
    simp [← same, VariableSymbol.given, type]

/-- The next variables were declared with types. -/
theorem past {first last : Nat} (reached : Reached bound t (·.index < first) t') (typed : t.Typed first last) :
    Reached bound t (·.index < last) t' := by
  apply reached.extend
  intro id v before held
  by_cases early : id.index < first
  · exact .inl early
  · exact .inr (typed id v (Nat.not_lt.mp early) before held)

/-- A variable without a type is given one. -/
theorem set {v : VariableSymbol} {ty : Ty} (reached : Reached bound t known t') (held : t.var? id = some v)
    (untyped : v.type = none) (below : ty.Below t.symbols.size) :
    Reached bound t (fun j => known j ∨ j = id) (t'.edit id (·.mapVariable fun v => { v with type := some ty })) := by
  obtain ⟨given, retyped⟩ := reached.retyped
  have sound : (t'.edit id (·.mapVariable fun v => { v with type := some ty })).Sound bound := by
    apply reached.intact.sound.edit_variable
    · intro var sound
      refine ⟨?_, sound.status⟩
      rintro _ ⟨⟩
      exact retyped.size ▸ below
    · exact fun _ => rfl
  have next : Retyped (Function.update given id (some ty)) t _ := retyped.set held untyped
  have after := reached.intact.keep (.edit (by simp)) sound
  refine ⟨after, ⟨_, next⟩, reached.course.trans (.edit after), fun j v' isKnown held' => ?_, reached.apart⟩
  rw [next.var_eq] at held'
  obtain ⟨w, found, rfl⟩ := Option.map_eq_some_iff.mp held'
  by_cases here : j = id
  · subst here
    cases found.symm.trans held
    simp [VariableSymbol.given, untyped]
  · rw [Function.update_of_ne here] at held' ⊢
    have before : t'.var? j = some (w.given (given j)) := by
      rw [retyped.var_eq]
      exact held'
    exact reached.typed j _ (isKnown.resolve_right here) before

end Table.Reached

namespace Typing

open Analysis

variable {bound : Nat} {g : Guess} {t t' : Table} {known : SymbolId → Prop} {context : Context} {e : Expr}

theorem Context.Fits.reached (fits : context.Fits t) (reached : Table.Reached bound t known t') : context.Fits t' := by
  refine ⟨?_, fun id same => reached.below.mpr (fits.cls id same), fun frame same => ?_, reached.untypedApart⟩
  · rw [reached.scopes]
    exact fits.inside
  · rw [reached.size]
    exact fits.returns frame same

/-- What it takes for the type of a variable to be no guess: the variable is known, or declared with a type. -/
abbrev Guess.Settles (g : Guess) (t : Table) (known : SymbolId → Prop) (id : SymbolId) : Prop :=
  g.sure → known id ∨ t.HasType id

theorem Guess.Settles.hasType {id : SymbolId} (settles : g.Settles t known id)
    (reached : Table.Reached bound t known t') (sure : g.sure) :
    t'.HasType id := by
  obtain ⟨_, retyped⟩ := reached.retyped
  exact (settles sure).elim (fun isKnown v => reached.typed id v isKnown) retyped.hasType

/-- An expression that can be typed where the known variables have types. -/
abbrev Guess.Open (g : Guess) (bound : Nat) (t : Table) (known : SymbolId → Prop) (e : Expr) : Prop :=
  e.All (Expr.Open bound t.symbols.size (g.Settles t known))

/-- Where the variables before a number are known, an expression over them can be typed. -/
theorem Guess.Open.before {first : Nat} (placed : e.All (Expr.Placed bound first)) (unset : e.All Expr.Unset)
    (le : first ≤ t.symbols.size) :
    g.Open bound t (·.index < first) e :=
  placed.meet (fun _ placed unset => ⟨placed.mono le, unset, fun id inside _ => .inl (placed.asks id inside)⟩) unset

theorem setVariableType_goes {id : SymbolId} {v : VariableSymbol} {ty : Ty} (reached : Table.Reached bound t known t')
    (held : t.var? id = some v) (untyped : v.type = none) (below : ty.Below t.symbols.size) :
    Goes (Unseen bound g) t' (setVariableType id ty)
      (fun _ t'' => Table.Reached bound t (fun j => known j ∨ j = id) t'') := by
  obtain ⟨s, there, _⟩ := Table.var_symbol held
  obtain ⟨s', there'⟩ := Table.symbol_exists (reached.below.mpr (Table.symbol_bound there))
  refine ⟨(Goes.modify (F := Diagnostic.Plain bound) there' (reached.set held untyped below) trivial).run,
    fun ran beside => ?_⟩
  cases ((run_modifySymbol (s := ⟨t', _⟩) there').symm.trans ran)
  exact ⟨_, run_modifySymbol (s := ⟨_, _⟩) (beside.2.symbol there'), beside.1, beside.2.set⟩

end Typing

end Quasicode
