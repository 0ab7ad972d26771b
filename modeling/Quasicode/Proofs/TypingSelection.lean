import Quasicode.Proofs.TwinRuns

/-!
What typing asks of the table: types of variables, candidates of calls, and the functions that are selected. Every
question has an answer, over symbols that are there, and none asks for a type that may be guessed. On a quiet run a
widened value has the type that was asked for, and the arguments of a selected function those of its parameters.
-/
namespace Quasicode.Table

variable (t : Table)

/-- How well an argument fits a parameter: 1 as it is, 2 widened, 3 widened to `any`. -/
def fit (argument param : Ty) : Option Nat :=
  if argument.isError || param.isError || argument == param then some 1
  else if (Ty.join t.classes argument param).toOption.any (· == param) then some (if param.isAny then 3 else 2)
  else none

/-- The level of a candidate: how well the argument fits that fits worst. There is none for what is no function, takes
another number of arguments, or has a parameter that an argument does not fit. -/
def level (arguments : List Ty) (id : SymbolId) : Option Nat :=
  ((t.symbol? id).bind Symbol.function?).bind fun f =>
    if f.accepts arguments.length then
      ((arguments.zip f.params).mapM fun pair => t.fit pair.1 pair.2).map fun fits => fits.foldr max 1
    else none

/-- Any two types have a join. -/
theorem Leveled.joins {t : Table} (leveled : t.Leveled) (a b : Ty) : ∃ c, Ty.join t.classes a b = .ok c := by
  fun_induction Ty.join t.classes a b with
  | case7 _ _ _ _ x y ih =>
    obtain ⟨c, joined⟩ := ih
    exact ⟨.array c, by rw [joined]; rfl⟩
  | case8 _ x _ y =>
    obtain ⟨found, met, _⟩ := leveled.meet x y
    rw [met]
    cases found <;> exact ⟨_, rfl⟩
  | _ => exact ⟨_, rfl⟩

theorem Retyped.level_eq {given : SymbolId → Option Ty} {t u : Table} (retyped : t.Retyped given u)
    {arguments : List Ty} {id : SymbolId} :
    u.level arguments id = t.level arguments id := by
  have fits (a b : Ty) : u.fit a b = t.fit a b := by rw [fit, fit, retyped.classes_eq]
  rw [level, level, retyped.given_symbol]
  cases t.symbol? id <;> simp [fits]

end Quasicode.Table

namespace Quasicode.Typing

open Analysis

variable {bound : Nat} {g : Guess} {t : Table} {context : Context}
variable {id cls : SymbolId} {value : Expr} {target : Ty} {arguments : List Expr} {params : List Ty}
variable {ids : List SymbolId} {span : Span}

/-- A place at which expressions can be typed. -/
structure Context.Fits (t : Table) (context : Context) : Prop where
  inside : context.scope.index < t.scopes.size
  cls : ∀ id, context.cls = some id → id.index < t.symbols.size
  returns : ∀ frame, context.frame = some frame → frame.returns.Below t.symbols.size
  apart : t.UntypedApart

/-! ## Types -/

theorem variableType_answers (intact : t.Intact bound) (below : id.index < t.symbols.size)
    (typed : g.sure → t.HasType id) :
    Answers (Unseen bound g) t (variableType id) (fun ty => ty = t.typeOf id ∧ ty.Below t.symbols.size) := by
  obtain ⟨s, held⟩ := Table.symbol_exists below
  unfold variableType
  refine askSymbol held (fun sure => ?_) ?_
  · rw [Symbol.given_typed fun v isVar => typed sure v ((Table.var_of held).trans isVar)]
  have known : t.typeOf id = (s.var?.bind VariableSymbol.type).getD .error := by rw [Table.typeOf, Table.var_of held]
  refine .pure ⟨rfl, known.symm, ?_⟩ trivial
  cases isVar : s.var? with
  | none => trivial
  | some v =>
    cases type : v.type with
    | none => simp [type, Ty.Below]
    | some ty => simpa [type] using (intact.sound.variable_sound held isVar).type ty type

theorem writtenType_answers {type : TypeName} (fit : type.Fit bound True) :
    Answers (Unseen bound g) t (writtenType type) (fun ty => ty.Below t.symbols.size ∧ ∀ built,
      ty.classId? = some built → type.OfClass t built) := by
  unfold writtenType
  refine askTable (fun retyped => by simp only [retyped.classes_eq]) ?_
  rcases TypeName.resolve_cases (t := t) fit with ⟨ty, resolved, there, _⟩ | ⟨name, span, unknown, _⟩
  · rw [resolved]
    exact .pure ⟨rfl, there.below, fun built isClass => ⟨ty, resolved, isClass⟩⟩ trivial
  · rw [unknown]
    exact .give ⟨trivial, nofun⟩

theorem classType_answers (below : id.index < t.symbols.size) :
    Answers (Unseen bound g) t (classType id) (·.Below t.symbols.size) := by
  unfold classType
  refine askBelow below (by simp) fun s _ => ?_
  cases s.class? with
  | none => exact .give trivial
  | some c => exact .pure ⟨rfl, below⟩ trivial

theorem stringType_answers :
    Answers (Unseen bound g) t stringType (·.Below t.symbols.size) := by
  unfold stringType
  refine askTable (fun {given u} retyped => ?_) ?_
  · rw [show u.classBySignature = t.classBySignature from congrArg ClassView.bySignature retyped.classes_eq]
  cases found : t.classBySignature (classKey Builtin.stringName) with
  | none => exact .give trivial
  | some id => exact .pure ⟨rfl, Table.class_bound (Table.classBySignature_iff.mp found).2⟩ trivial

theorem isString_answers {ty : Ty} : Answers (Unseen bound g) t (isString ty) (fun _ => True) :=
  stringType_answers.seq fun _ _ => .done

theorem slotType_answers {slot : Option SymbolId} {assignable : Bool} (intact : t.Intact bound)
    (below : ∀ id, slot = some id → id.index < t.symbols.size) (typed : ∀ id, slot = some id → g.sure → t.HasType id) :
    Answers (Unseen bound g) t (slotType slot assignable) (·.type.Below t.symbols.size) := by
  unfold slotType
  cases slot with
  | none => exact .give trivial
  | some id =>
    apply (variableType_answers intact (below id rfl) (typed id rfl)).bind
    intro ty known
    exact .pure known.2 fun _ => trivial

theorem literalType_answers {value : Literal} :
    Answers (Unseen bound g) t (literalType value) (·.Below t.symbols.size) := by
  cases value with
  | int _ | double _ | bool _ => exact .give trivial
  | string _ => exact stringType_answers

theorem classScope_answers (intact : t.Intact bound) (below : id.index < t.symbols.size) :
    Answers (Unseen bound g) t (classScope id) (fun found => ∀ scope, found = some scope →
      scope.index < t.scopes.size) := by
  unfold classScope
  refine askBelow below (by simp) fun s held => ?_
  refine .pure ⟨rfl, fun scope same => ?_⟩ trivial
  obtain ⟨c, isClass, rfl⟩ := Option.map_eq_some_iff.mp same
  exact (intact.sound.class_sound (show t.class? id = some c by simp [Table.class?, held, isClass])).scope

theorem superclass_answers (intact : t.Intact bound) (fits : context.Fits t) :
    Answers (Unseen bound g) t (superclass context) (fun found => ∀ d, found = some d → d.index < t.symbols.size) := by
  unfold superclass
  cases isClass : context.cls with
  | none => exact .pure nofun trivial
  | some id =>
    refine askBelow (fits.cls id isClass) (by simp) fun s held => ?_
    refine .pure ⟨rfl, fun d same => ?_⟩ trivial
    obtain ⟨c, isClass, upper⟩ := Option.bind_eq_some_iff.mp same
    have known : t.class? id = some c := by simp [Table.class?, held, isClass]
    exact Table.class_bound (intact.arranged.forest.closed ⟨c, known, upper⟩)

/-! ## Conversions -/

/-- What widening comes to on a quiet run: only a problem that was reported before keeps a value from its target. -/
def Widened (target : Ty) (value value' : Expr) : Prop :=
  value.type.isError ∧ value' = value ∨ target.isError ∨ value'.type == target

theorem Widened.agrees {value' : Expr} (widened : Widened target value value') :
    value'.type.Agrees target := by
  rcases widened with ⟨isError, rfl⟩ | isError | same
  · exact .inr (.inl isError)
  · exact .inr (.inr isError)
  · exact .inl same

theorem widenTo_answers (intact : t.Intact bound) (below : target.Below t.symbols.size)
    (judged : value.All (Expr.Judged bound t)) :
    Answers (Unseen bound g) t (widenTo target value) (fun value' => value'.All (Expr.Judged bound t) ∧
      value.Coated value') (Widened target value) := by
  unfold widenTo
  extract_lets ty
  apply Goes.ite
  · intro same
    refine .pure ⟨rfl, judged, .same⟩ ?_
    rw [Bool.or_eq_true, Bool.or_eq_true] at same
    rcases same with (isError | isError) | same
    · exact .inl ⟨isError, rfl⟩
    · exact .inr (.inl isError)
    · exact .inr (.inr same)
  · intro apart
    apply askJoin intact judged.type below
    intro common joins _
    apply Goes.ite
    · intro wider
      simp only [Bool.or_eq_false_iff] at apart
      refine .pure ⟨rfl, ⟨?_, judged⟩, .widen rfl .same⟩ (.inr (.inr (Ty.same_refl target)))
      refine ⟨⟨judged.here.within, ?_, by simp [Expr.writtenTypes], by simp [Expr.slots]⟩, rfl,
        target, common, rfl, apart.1.1, apart.1.2, apart.2, joins, wider⟩
      rintro _ ⟨⟩
      exact below
    · exact fun _ => .reports ⟨judged.here.within, rfl⟩ (.pure ⟨rfl, judged, .same⟩ trivial)

/-! ## Ranking -/

section Ranking

variable {s : AnalysisState}

theorem argumentRank_run (leveled : s.table.Leveled) (argument param : Ty) :
    (argumentRank argument param).run s = .ok (s.table.fit argument param, s) := by
  unfold argumentRank Table.fit
  split
  · rfl
  obtain ⟨joined, found⟩ := leveled.joins argument param
  rw [run_seq (run_join found), found]
  cases wider : joined == param with
  | false => simp [wider, Except.toOption]
  | true => simp [wider, Except.toOption]

theorem argumentsRank_run (leveled : s.table.Leveled) (arguments params : List Ty) :
      (argumentsRank arguments params).run s =
      .ok (((arguments.zip params).mapM fun pair => s.table.fit pair.1 pair.2).map
      fun fits => fits.foldr max 1, s) := by
  induction arguments generalizing params with
  | nil => cases params <;> rfl
  | cons argument arguments ih =>
    cases params with
    | nil => rfl
    | cons param params =>
      rw [argumentsRank, run_seq (argumentRank_run leveled argument param), List.zip_cons_cons, List.mapM_cons]
      cases s.table.fit argument param with
      | none => rfl
      | some rank =>
        simp only
        rw [run_seq (ih params)]
        cases (arguments.zip params).mapM fun pair => s.table.fit pair.1 pair.2 <;> rfl

theorem candidateRank_run (leveled : s.table.Leveled) (arguments : List Ty)
    (known : (s.table.symbol? id).isSome) :
    (candidateRank arguments id).run s = .ok (s.table.level arguments id, s) := by
  obtain ⟨sym, held⟩ := Option.isSome_iff_exists.mp known
  rw [candidateRank, run_seq (run_symbol held), Table.level, held, Option.bind_some]
  cases sym.function? with
  | none => rfl
  | some f =>
    simp only [Option.bind_some]
    split
    · exact argumentsRank_run leveled arguments f.params
    · rfl

theorem rankCandidates_run (leveled : s.table.Leveled) (arguments : List Ty) {candidates : List SymbolId}
    (known : ∀ id ∈ candidates, (s.table.symbol? id).isSome) : (rankCandidates arguments candidates).run s =
      .ok (candidates.filterMap fun id => (s.table.level arguments id).map (id, ·), s) := by
  induction candidates with
  | nil => rfl
  | cons id candidates ih =>
    obtain ⟨here, others⟩ := List.forall_mem_cons.mp known
    rw [rankCandidates, run_seq (candidateRank_run leveled arguments here), run_seq (ih others), List.filterMap_cons]
    cases s.table.level arguments id <;> rfl

theorem ownerOf_known (known : (s.table.symbol? id).isSome) : (ownerOf id).run s = .ok (s.table.owner? id, s) := by
  obtain ⟨sym, held⟩ := Option.isSome_iff_exists.mp known
  rw [ownerOf, run_seq (run_symbol held), Table.owner?, Table.method?, held]
  rfl

theorem keepOwner_run (owner : Option SymbolId) {ids : List SymbolId}
    (known : ∀ id ∈ ids, (s.table.symbol? id).isSome) :
    (keepOwner owner ids).run s = .ok (ids.filter fun id => s.table.owner? id = owner, s) := by
  induction ids with
  | nil => rfl
  | cons id ids ih =>
    obtain ⟨here, others⟩ := List.forall_mem_cons.mp known
    rw [keepOwner, run_seq (ih others), run_seq (ownerOf_known here), List.filter_cons]
    by_cases same : s.table.owner? id = owner
    · simp [same]
    · simp [same]

end Ranking

/-! ## Selection -/

theorem ownerOf_answers (intact : t.Intact bound) (below : id.index < t.symbols.size) :
      Answers (Unseen bound g) t (ownerOf id)
      (fun owner => owner = t.owner? id ∧ ∀ c, owner = some c → c.index < t.symbols.size) := by
  unfold ownerOf
  refine askBelow below (by simp) fun s held => ?_
  refine .pure ⟨rfl, by simp [Table.owner?, Table.method?, held], fun c same => ?_⟩ trivial
  obtain ⟨m, isMethod, rfl⟩ := Option.map_eq_some_iff.mp same
  exact (intact.sound.method_sound held isMethod).owner

theorem widenArguments_answers (intact : t.Intact bound) (judged : allOf (Expr.Judged bound t) arguments)
    (below : ∀ p ∈ params, p.Below t.symbols.size) :
    Answers (Unseen bound g) t (widenArguments arguments params)
      (fun arguments' => allOf (Expr.Judged bound t) arguments' ∧ List.Forall₂ Expr.Coated arguments arguments')
      (ArgumentsAgree · params) := by
  induction arguments generalizing params with
  | nil => cases params <;> exact .pure ⟨trivial, .nil⟩ (by simp [ArgumentsAgree])
  | cons a arguments ih =>
    cases params with
    | nil => exact .pure ⟨judged, List.forall₂_same.mpr fun _ _ => .same⟩ (by simp [ArgumentsAgree])
    | cons p params =>
      obtain ⟨hereP, restP⟩ := List.forall_mem_cons.mp below
      apply (widenTo_answers intact hereP judged.1).bind
      rintro a' ⟨judgedA, coatedA⟩
      apply (ih judged.2 restP).bind
      rintro arguments' ⟨judgedRest, coatedRest⟩
      refine .pure ⟨⟨judgedA, judgedRest⟩, .cons coatedA coatedRest⟩ fun rest here i b q argument param => ?_
      cases i with
      | zero =>
        cases argument
        cases param
        exact here.agrees
      | succ i => exact rest i b q argument param

theorem reportSelection_answers {cause : Cause} (within : span.Within bound) (other : cause.isPlain) :
    Answers (Unseen bound g) t (reportSelection arguments cause span) (fun _ => True) := by
  unfold reportSelection
  apply Goes.ite
  · exact fun _ => .report ⟨within, other⟩ ⟨rfl, trivial⟩
  · exact fun _ => .done

/-- The answer of a selection: a function with `P`, if there is one, and the arguments with
conversions, of which it takes as many. -/
structure Selected (bound : Nat) (t : Table) (P : SymbolId → Prop) (arguments : List Expr)
    (answer : Option SymbolId × List Expr) : Prop where
  function : ∀ id, answer.1 = some id → P id ∧ t.Accepts id answer.2.length
  judged : allOf (Expr.Judged bound t) answer.2
  coated : List.Forall₂ Expr.Coated arguments answer.2

/-- What is known of it on a quiet run. -/
def Suited (t : Table) (answer : Option SymbolId × List Expr) : Prop := ∀ id, answer.1 = some id → t.Takes id answer.2

/-- No function, and the arguments as they were. -/
theorem Selected.unselected {P : SymbolId → Prop} (judged : allOf (Expr.Judged bound t) arguments) :
    Selected bound t P arguments (none, arguments) := ⟨nofun, judged, List.forall₂_same.mpr fun _ _ => .same⟩

theorem types_below {es : List Expr} (judged : allOf (Expr.Judged bound t) es) :
    ∀ ty ∈ es.map Expr.type, ty.Below t.symbols.size := by
  intro ty inside
  obtain ⟨e, member, rfl⟩ := List.mem_map.mp inside
  exact (allOf_iff.mp judged e member).type

theorem symbols_known (below : ∀ id ∈ ids, id.index < t.symbols.size) : ∀ id ∈ ids, (t.symbol? id).isSome :=
  fun id inside =>
  Option.isSome_iff_exists.mpr (Table.symbol_exists (below id inside))

theorem mem_bestRanked {ranked : List (SymbolId × Nat)} {id : SymbolId} (inside : id ∈ bestRanked ranked) :
    ∃ entry ∈ ranked, entry.1 = id := by
  unfold bestRanked at inside
  split at inside
  · cases inside
  · obtain ⟨entry, kept, same⟩ := List.mem_map.mp inside
    exact ⟨entry, List.mem_of_mem_filter kept, same⟩

/-- **Selecting a function** among candidates. -/
theorem selectOverload_answers {candidates : List SymbolId} (intact : t.Intact bound)
    (below : ∀ id ∈ candidates, id.index < t.symbols.size) (judged : allOf (Expr.Judged bound t) arguments)
    (within : span.Within bound) :
    Answers (Unseen bound g) t (selectOverload candidates arguments span)
      (Selected bound t (· ∈ candidates) arguments) (Suited t) := by
  have failed {cause : Cause} (other : cause.isPlain) : Answers (Unseen bound g) t
      (do reportSelection arguments cause span; return (none, arguments))
      (Selected bound t (· ∈ candidates) arguments) (Suited t) :=
    (reportSelection_answers within other).seq fun _ _ => .pure ⟨rfl, .unselected judged⟩ nofun
  unfold selectOverload
  refine .after (a := candidates.filterMap fun id => (t.level (arguments.map Expr.type) id).map (id, ·))
    (rankCandidates_run intact.leveled _ (symbols_known below)) (fun {u} beside => ?_) ?_
  · have below' : ∀ id ∈ candidates, id.index < u.symbols.size := beside.2.size ▸ below
    have ran {problems} := rankCandidates_run (s := ⟨u, problems⟩) (beside.2.leveled intact.leveled)
      (arguments.map Expr.type) (symbols_known below')
    simp only [beside.2.level_eq] at ran
    exact ⟨_, rfl, ran⟩
  split
  · exact failed rfl
  next first others best =>
    have known {id : SymbolId} (inside : id ∈ first :: others) :
        id ∈ candidates ∧ ∃ s f, t.symbol? id = some s ∧ s.function? = some f ∧ f.accepts arguments.length := by
      obtain ⟨entry, member, rfl⟩ := mem_bestRanked (best ▸ inside)
      obtain ⟨_, among, ranked⟩ := List.mem_filterMap.mp member
      obtain ⟨n, isLevel, rfl⟩ := Option.map_eq_some_iff.mp ranked
      obtain ⟨f, found, fits⟩ := Option.bind_eq_some_iff.mp isLevel
      obtain ⟨s, held, isFunction⟩ := Option.bind_eq_some_iff.mp found
      split at fits
      next accepts => exact ⟨among, s, f, held, isFunction, by simpa using accepts⟩
      · cases fits
    have there : ∀ id ∈ first :: others, id.index < t.symbols.size := fun id inside => below id (known inside).1
    apply (ownerOf_answers intact (there first List.mem_cons_self)).seq
    intro owner _
    refine .after (a := (first :: others).filter fun id => t.owner? id = owner)
      (keepOwner_run owner (symbols_known there)) (fun {u} beside => ?_) ?_
    · have there' : ∀ id ∈ first :: others, id.index < u.symbols.size := beside.2.size ▸ there
      have ran {problems} := keepOwner_run (s := ⟨u, problems⟩) owner (symbols_known there')
      simp only [beside.2.owner_eq] at ran
      exact ⟨_, rfl, ran⟩
    split
    · exact failed rfl
    · obtain ⟨among, s, f, held, isFunction, accepts⟩ := known List.mem_cons_self
      refine askSymbol held (fun _ => by simp) ?_
      rw [isFunction]
      apply (widenArguments_answers intact judged (intact.sound.function_sound held isFunction).params).then
      rintro arguments' ⟨judged', coated⟩
      refine .pure ⟨rfl, ?_, judged', coated⟩ fun agree => ?_
      · rintro _ ⟨⟩
        refine ⟨among, s, f, held, isFunction, ?_⟩
        rw [← coated.length_eq]
        simpa [FunctionSymbol.accepts] using accepts
      · rintro _ ⟨⟩
        exact ⟨s, f, held, isFunction, agree⟩

/-! ## Constructors -/

theorem filterM_answers {k : Symbol → Bool} (same : ∀ s type, k (s.given type) = k s)
    (below : ∀ id ∈ ids, id.index < t.symbols.size) :
    Answers (Unseen bound g) t (ids.filterM fun id => do return k (← symbol id))
      (fun kept => ∀ id ∈ kept, id ∈ ids ∧ ∃ s, t.symbol? id = some s ∧ k s) := by
  have each : ∀ id ∈ ids, Answers (Unseen bound g) t (do return k (← symbol id))
      (· = ((t.symbol? id).any k)) := by
    intro id inside
    refine askBelow (below id inside) (by simp [same]) fun s held => ?_
    exact .pure ⟨rfl, by rw [held]; rfl⟩ trivial
  apply (Answers.filterM each).mono
  · rintro _ rfl id inside
    obtain ⟨among, holds⟩ := List.mem_filter.mp inside
    exact ⟨among, (Option.any_eq_true _ _).mp holds⟩
  · exact fun _ _ _ => trivial

theorem filterMethods_answers {p : MethodSymbol → Bool} (below : ∀ id ∈ ids, id.index < t.symbols.size) :
    Answers (Unseen bound g) t (filterMethods p ids) (fun kept => ∀ id ∈ kept, id ∈ ids ∧
      ∃ m, t.method? id = some m ∧ p m) := by
  apply (filterM_answers (k := fun s => s.method?.any p) (by simp) below).mono
  · intro _ kept id inside
    obtain ⟨among, s, held, holds⟩ := kept id inside
    obtain ⟨m, isMethod, holds⟩ := (Option.any_eq_true _ _).mp holds
    exact ⟨among, m, by rw [Table.method?, held, Option.bind_some, isMethod], holds⟩
  · exact fun _ _ _ => trivial

theorem constructors_answers (intact : t.Intact bound) (below : cls.index < t.symbols.size) :
    Answers (Unseen bound g) t (constructors cls) (fun ids => ∀ id ∈ ids, t.Constructs cls id) := by
  have none : Answers (Unseen bound g) t (Pure.pure [] : Analysis (List SymbolId))
      (fun ids => ∀ id ∈ ids, t.Constructs cls id) :=
    .pure (by simp) trivial
  unfold constructors
  refine askBelow below (by simp) fun s held => ?_
  cases isClass : s.class? with
  | none => exact none
  | some c =>
    have sound := intact.sound.class_sound (show t.class? cls = some c by simp [Table.class?, held, isClass])
    obtain ⟨found, ran⟩ := Table.lookupLocal_total sound.scope (overloadKey c.plainName)
    refine ask ran (fun retyped => retyped.lookupLocal_eq) ?_
    cases found with
    | none => exact none
    | some set =>
      obtain ⟨s', held', _⟩ := intact.sound.named ran
      refine askSymbol held' (fun _ => ?_) ?_
      · cases kind : s'.kind <;> simp [Symbol.given, Symbol.mapKind, kind, SymbolKind.mapVariable]
      split
      next functions kind =>
        have sound := intact.sound.kinds held'
        rw [kind] at sound
        apply (filterMethods_answers (p := fun m => m.isConstructor && m.owner = cls) sound).mono
        · intro ids kept id inside
          obtain ⟨_, m, isMethod, holds⟩ := kept id inside
          exact ⟨m, isMethod, by simpa using holds⟩
        · exact fun _ _ _ => trivial
      · exact none

theorem selectConstructor_answers (intact : t.Intact bound)
    (below : cls.index < t.symbols.size) (judged : allOf (Expr.Judged bound t) arguments)
    (within : span.Within bound) :
    Answers (Unseen bound g) t (selectConstructor cls arguments span)
      (Selected bound t (t.Constructs cls) arguments) (Suited t) := by
  unfold selectConstructor
  apply (constructors_answers intact below).seq
  intro ids constructs
  cases ids with
  | nil =>
    extract_lets last
    have ends : Answers (Unseen bound g) t (last ()) (Selected bound t (t.Constructs cls) arguments) (Suited t) :=
      .pure (.unselected judged) nofun
    apply Goes.ite
    · exact fun _ => .reports ⟨within, rfl⟩ (ends.mono (fun _ holds => holds) fun _ _ _ => trivial)
    · exact fun _ => ends
  | cons first others =>
    have there : ∀ id ∈ first :: others, id.index < t.symbols.size := by
      intro id inside
      obtain ⟨_, isMethod, _⟩ := constructs id inside
      obtain ⟨_, held, _⟩ := Table.method_symbol isMethod
      exact Table.symbol_bound held
    apply (selectOverload_answers intact there judged within).mono
    · exact fun _ selected => { selected with
        function := fun id same => (selected.function id same).imp_left (constructs id) }
    · exact fun _ _ suited => suited

/-! ## Targets -/

theorem insertByClass_second {method : SymbolId} {methods : List (SymbolId × SymbolId)} {P : SymbolId → Prop}
    (new : P method) (all : ∀ entry ∈ methods, P entry.2) : ∀ entry ∈ insertByClass cls method methods, P entry.2 := by
  induction methods with
  | nil => simpa [insertByClass] using new
  | cons entry rest ih =>
    obtain ⟨here, others⟩ := List.forall_mem_cons.mp all
    unfold insertByClass
    split
    · exact List.forall_mem_cons.mpr ⟨new, all⟩
    · split
      · exact List.forall_mem_cons.mpr ⟨new, others⟩
      · exact List.forall_mem_cons.mpr ⟨here, ih others⟩

theorem insertMethods_answers {methods : List (SymbolId × SymbolId)} (intact : t.Intact bound)
    (below : ∀ id ∈ ids, id.index < t.symbols.size) (there : ∀ entry ∈ methods, entry.2.index < t.symbols.size) :
    Answers (Unseen bound g) t (insertMethods ids methods)
      (fun out => out = t.insertOwned ids methods ∧ ∀ entry ∈ out, entry.2.index < t.symbols.size) := by
  induction ids generalizing methods with
  | nil => exact .pure ⟨rfl, there⟩ trivial
  | cons id ids ih =>
    obtain ⟨here, rest⟩ := List.forall_mem_cons.mp below
    apply (ownerOf_answers intact here).seq
    rintro owner ⟨same, _⟩
    rw [Table.insertOwned, List.foldl_cons, ← Table.insertOwned, ← same]
    cases owner with
    | none => exact ih rest there
    | some owner => exact ih rest (insertByClass_second (P := fun id => id.index < t.symbols.size) here there)

/-- **The target of a call** that has selected a function. -/
theorem callTarget_answers {dispatch : Bool} (intact : t.Intact bound) (below : id.index < t.symbols.size) :
    Answers (Unseen bound g) t (callTarget id dispatch)
      (fun target => target = (if dispatch then t.targetOf id else .unique id) ∧ target.Below t.symbols.size) := by
  unfold callTarget
  refine askBelow below (by simp) fun s held => ?_
  have known : t.method? id = s.method? := by simp [Table.method?, held]
  rw [Table.targetOf, known]
  cases isMethod : s.method? with
  | none => exact .pure ⟨rfl, by simp, below⟩ trivial
  | some m =>
    apply Goes.ite
    · intro unique
      refine .pure ⟨rfl, ?_, below⟩ trivial
      cases dispatch <;> simp_all
    · intro overridden
      have start : ∀ entry ∈ [(m.owner, id)], entry.2.index < t.symbols.size := by simpa using below
      apply (insertMethods_answers intact (intact.sound.method_sound held isMethod).overriders start).seq
      rintro methods ⟨rfl, there⟩
      refine .pure ⟨rfl, ?_, there⟩ trivial
      cases dispatch <;> simp_all

end Quasicode.Typing
