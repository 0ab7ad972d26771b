import Quasicode.Proofs.TypingSelection

/-!
Typing of expressions. It leaves the table as it is and always goes through: every node gets a type over the classes
that are there, and every slot a symbol that is there. Typing only decorates: the bare form of an expression stays as it
is. On a quiet run of an expression of which every name was found, the typed expression has no gaps, its types agree,
and what was selected can be used where it stands.
-/
namespace Quasicode.Typing

open Analysis
open Binding (Spot)

variable {bound : Nat} {g : Guess} {t : Table} {context : Context}
variable {name : String} {scope : ScopeId} {receiver left right : Ty} {onClass : Bool} {span : Span} {op : BinaryOp}
  {value : Expr} {info : NodeInfo} {callee callee₀ : Callee} {arguments arguments₀ : List Expr}

/-- What a node is on a quiet run. -/
abbrev Context.Done (t : Table) (spot : Spot) (context : Context) : Expr → Prop :=
  Expr.Finished t spot context.cls context.frame

/-! ## Fields -/

/-- A field that is found lies in a class. -/
theorem findField_answers {cls : SymbolId} (intact : t.Intact bound) (below : cls.index < t.symbols.size) :
    Answers (Unseen bound g) t (findField cls name) (fun found => ∀ id, found = some id →
      ∃ s v c k, t.symbol? id = some s ∧ s.var? = some v ∧ t.class? c = some k ∧ s.scope = k.scope) := by
  obtain ⟨chain, climbed, classes⟩ := intact.arranged.ancestry below
  unfold findField
  refine ask climbed (fun retyped => retyped.ancestry_eq) ?_
  apply Answers.findSomeM
  rintro ⟨c, k⟩ inside
  obtain ⟨found, ran⟩ := Table.lookupLocal_total (intact.sound.class_sound (classes _ inside)).scope name
  refine ask ran (fun retyped => retyped.lookupLocal_eq) ?_
  cases found with
  | none => exact .pure ⟨rfl, nofun⟩ trivial
  | some id =>
    obtain ⟨s, held, scope, _⟩ := intact.sound.named ran
    refine askSymbol held (fun _ => by simp) ?_
    refine .pure ⟨rfl, fun id' same => ?_⟩ trivial
    split at same
    next isVar =>
      cases same
      obtain ⟨v, isVar⟩ := Option.isSome_iff_exists.mp isVar
      exact ⟨s, v, c, k, held, isVar, classes _ inside, scope⟩
    · cases same

theorem ownerOfScope_answers (intact : t.Intact bound) (fits : context.Fits t) :
      Answers (Unseen bound g) t (ownerOfScope context scope)
      (fun owner => ∀ c, owner = some c → ∃ k, t.class? c = some k ∧ k.scope = scope) := by
  unfold ownerOfScope
  cases isClass : context.cls with
  | none => exact .give nofun
  | some cls =>
    obtain ⟨chain, climbed, classes⟩ := intact.arranged.ancestry (fits.cls cls isClass)
    refine ask climbed (fun retyped => retyped.ancestry_eq) ?_
    refine .give fun c same => ?_
    obtain ⟨entry, found, rfl⟩ := Option.map_eq_some_iff.mp same
    exact ⟨entry.2, classes _ (List.mem_of_find?_eq_some found), by simpa using List.find?_some found⟩

/-- **The field that is selected** lies in a class, and if it is hidden then in the class around. -/
theorem selectField_answers (intact : t.Intact bound)
    (fits : context.Fits t) (below : receiver.Below t.symbols.size) (within : span.Within bound) :
    Answers (Unseen bound g) t (selectField context receiver onClass name span)
      (fun found => ∀ id, found = some id → t.FieldWithin context.cls id) := by
  have refused {cause : Cause} (other : cause.isPlain) :
      Answers (Unseen bound g) t (do report cause span; return none)
        (fun found : Option SymbolId => ∀ id, found = some id → t.FieldWithin context.cls id) :=
    .reports ⟨within, other⟩ (.pure ⟨rfl, nofun⟩ trivial)
  unfold selectField
  extract_lets rest
  have ends (found : Option SymbolId) (known : ∀ id, found = some id →
        ∃ s v c k, t.symbol? id = some s ∧ s.var? = some v ∧ t.class? c = some k ∧ s.scope = k.scope) :
      Answers (Unseen bound g) t (rest found) (fun found => ∀ id, found = some id → t.FieldWithin context.cls id) := by
    cases found with
    | none => exact refused rfl
    | some id =>
      obtain ⟨s, v, c, k, held, isVar, isClass, scope⟩ := known id rfl
      refine askSymbol held (fun _ => ?_) ?_
      · simp only [Symbol.given_var, isVar, Option.map_some]
        rfl
      rw [isVar]
      apply Goes.ite
      · exact fun _ => refused rfl
      intro _
      apply Goes.ite
      · exact fun _ => refused rfl
      intro _
      apply (ownerOfScope_answers intact fits).seq
      intro owner found
      apply Goes.ite
      · exact fun _ => refused rfl
      intro accessible
      refine .give ?_
      rintro _ ⟨⟩
      simp only [isAccessible, Bool.not_eq_false', Bool.or_eq_true, decide_eq_true_eq, Bool.and_eq_true,
        Option.isSome_iff_exists] at accessible
      rcases accessible with exposed | ⟨⟨c', rfl⟩, own⟩
      · exact ⟨s, v, c, k, held, isVar, isClass, scope, fun hidden => nomatch hidden.symm.trans exposed⟩
      · obtain ⟨k', isClass', scope'⟩ := found c' rfl
        exact ⟨s, v, c', k', held, isVar, isClass', scope'.symm, fun _ => own.symm⟩
  split
  · exact ends none nofun
  next cls isClass =>
    apply (findField_answers intact (below.cls isClass)).seq
    exact ends

/-! ## Candidates -/

/-- Functions of the table that are no constructors. -/
def Calls (t : Table) (ids : List SymbolId) : Prop := ∀ id ∈ ids, id.index < t.symbols.size ∧ t.Callable id

/-- Functions of the table that can be used. -/
def Offers (t : Table) (cls : Option SymbolId) (object : Bool) (ids : List SymbolId) : Prop :=
  ∀ id ∈ ids, id.index < t.symbols.size ∧ t.Usable cls object id

theorem methodsFrom_answers (intact : t.Intact bound) (inside : scope.index < t.scopes.size) :
    Answers (Unseen bound g) t (methodsFrom scope name) (Calls t) := by
  unfold methodsFrom
  obtain ⟨ids, ran, below⟩ := intact.sound.overloads intact.rooted inside name
  refine ask ran (fun retyped => retyped.overloads_eq) ?_
  apply (filterMethods_answers below).mono
  · intro kept holds id inside
    obtain ⟨among, m, isMethod, plain⟩ := holds id inside
    refine ⟨below id among, fun m' isMethod' => ?_⟩
    cases isMethod.symm.trans isMethod'
    simpa using plain
  · exact fun _ _ _ => trivial

theorem accessibleMethods_answers {ids : List SymbolId} (below : ∀ id ∈ ids, id.index < t.symbols.size) :
    Answers (Unseen bound g) t (accessibleMethods context ids) (fun kept => ∀ id ∈ kept, id ∈ ids ∧
      t.MethodWithin context.cls id) := by
  apply (filterMethods_answers below).mono
  · intro kept holds id inside
    obtain ⟨among, m, isMethod, accessible⟩ := holds id inside
    refine ⟨among, fun m' isMethod' hidden => ?_⟩
    cases isMethod.symm.trans isMethod'
    simpa [isAccessible, hidden, eq_comm] using accessible
  · exact fun _ _ _ => trivial

theorem freeFunctions_answers (intact : t.Intact bound) : Answers (Unseen bound g) t (freeFunctions name)
      (fun ids => ∀ id ∈ ids, id.index < t.symbols.size ∧ t.method? id = none) := by
  unfold freeFunctions
  obtain ⟨ids, ran, below⟩ := intact.sound.overloads intact.rooted intact.sound.rootInside name
  refine ask ran (fun retyped => retyped.overloads_eq) ?_
  apply Answers.mono (Answers.filterM (k := fun id => (t.symbol? id).any fun s => s.kind.function?.isSome &&
    s.kind.method?.isNone) ?_)
  · rintro _ rfl id inside
    obtain ⟨among, holds⟩ := List.mem_filter.mp inside
    obtain ⟨s, held, holds⟩ := (Option.any_eq_true _ _).mp holds
    refine ⟨below id among, ?_⟩
    rw [Table.method?, held, Option.bind_some]
    exact Option.isNone_iff_eq_none.mp (Bool.and_eq_true_iff.mp holds).2
  · exact fun _ _ _ => trivial
  · intro id inside
    refine askBelow (below id inside) (fun s type => ?_) fun s held => ?_
    · cases kind : s.kind <;> simp [Symbol.given, Symbol.mapKind, kind, SymbolKind.mapVariable]
    cases kind : s.kind <;> exact .pure ⟨rfl, by simp [held, kind, SymbolKind.function?, SymbolKind.method?]⟩ trivial

/-- **A call without a receiver.** -/
theorem freeCandidates_answers (intact : t.Intact bound) (fits : context.Fits t) (within : span.Within bound) :
    Answers (Unseen bound g) t (freeCandidates context name span) (Offers t context.cls (hasObject context.frame)) := by
  unfold freeCandidates
  apply (methodsFrom_answers intact fits.inside).seq
  intro all calls
  apply (accessibleMethods_answers fun id inside => (calls id inside).1).seq
  intro methods within'
  have below : ∀ id ∈ methods, id.index < t.symbols.size := fun id inside => (calls id (within' id inside).1).1
  apply (filterMethods_answers below).seq
  intro instances ofObjects
  apply (filterMethods_answers below).seq
  intro statics ofClasses
  apply Goes.ite
  · intro object
    refine .give fun id inside => ?_
    have among := (ofObjects id inside).1
    exact ⟨below id among, (within' id among).2, (calls id (within' id among).1).2,
      fun _ _ _ => (Bool.and_eq_true_iff.mp object).1⟩
  intro _
  apply Goes.ite
  · intro _
    refine .give fun id inside => ?_
    obtain ⟨among, m, isMethod, isStatic⟩ := ofClasses id inside
    refine ⟨below id among, (within' id among).2, (calls id (within' id among).1).2, fun m' isMethod' ofObject => ?_⟩
    cases isMethod.symm.trans isMethod'
    cases isStatic.symm.trans ofObject
  intro _
  apply (freeFunctions_answers intact).seq
  intro functions frees
  apply Goes.ite
  · intro _
    refine .give fun id inside => ?_
    obtain ⟨below, none⟩ := frees id inside
    have free (m : MethodSymbol) : t.method? id ≠ some m := by simp [none]
    exact ⟨below, fun m isMethod => absurd isMethod (free m), fun m isMethod => absurd isMethod (free m),
      fun m isMethod => absurd isMethod (free m)⟩
  intro _
  apply Goes.ite
  · exact fun _ => .reports ⟨within, rfl⟩ (.pure ⟨rfl, nofun⟩ trivial)
  · exact fun _ => .reports ⟨within, rfl⟩ (.pure ⟨rfl, nofun⟩ trivial)

/-- **A call on a receiver.** -/
theorem memberCandidates_answers (intact : t.Intact bound) (below : receiver.Below t.symbols.size)
    (within : span.Within bound) :
    Answers (Unseen bound g) t (memberCandidates context receiver onClass name span) (Offers t context.cls true) := by
  unfold memberCandidates
  extract_lets among inScope
  have amongAnswers {all : List SymbolId} (calls : Calls t all) : Answers (Unseen bound g) t (among all)
      (Offers t context.cls true) := by
    apply (filterMethods_answers fun id inside => (calls id inside).1).seq
    intro kept ofKind
    apply (accessibleMethods_answers fun id inside => (calls id (ofKind id inside).1).1).seq
    intro usable within'
    have offers : Offers t context.cls true usable := fun id inside =>
      have known := calls id (ofKind id (within' id inside).1).1
      ⟨known.1, (within' id inside).2, known.2, fun _ _ _ => rfl⟩
    apply Goes.ite
    · exact fun _ => .reports ⟨within, rfl⟩ (.pure ⟨rfl, offers⟩ trivial)
    intro _
    apply Goes.ite
    · exact fun _ => .reports ⟨within, by cases onClass <;> rfl⟩ (.pure ⟨rfl, offers⟩ trivial)
    intro _
    apply Goes.ite
    · exact fun _ => .reports ⟨within, rfl⟩ (.pure ⟨rfl, offers⟩ trivial)
    · exact fun _ => .give offers
  have inScopeAnswers (scope : Option ScopeId) (there : ∀ s, scope = some s → s.index < t.scopes.size) :
      Answers (Unseen bound g) t (inScope scope) (Offers t context.cls true) := by
    cases scope with
    | none => exact @amongAnswers [] (by simp [Calls])
    | some scope =>
      apply (methodsFrom_answers intact (there scope rfl)).seq
      exact fun all calls => amongAnswers calls
  split
  · exact inScopeAnswers none (by simp)
  next cls isClass =>
    apply (classScope_answers intact (below.cls isClass)).seq
    exact inScopeAnswers

theorem superCandidates_answers (intact : t.Intact bound) (fits : context.Fits t) (within : span.Within bound) :
    Answers (Unseen bound g) t (superCandidates context name span) (Calls t) := by
  unfold superCandidates
  apply (superclass_answers intact fits).seq
  intro found supers
  cases found with
  | none => exact .give nofun
  | some d =>
    apply (classScope_answers intact (supers d rfl)).seq
    intro scope inside
    cases scope with
    | none => exact .give nofun
    | some scope =>
      apply (methodsFrom_answers intact (inside scope rfl)).seq
      intro methods calls
      apply Goes.ite
      · intro _
        apply (classType_answers (supers d rfl)).seq
        exact fun _ _ => .reports ⟨within, rfl⟩ (.pure ⟨rfl, calls⟩ trivial)
      · exact fun _ => .give calls

/-! ## Operators -/

theorem join_answers {a b : Ty} (intact : t.Intact bound) (belowA : a.Below t.symbols.size)
    (belowB : b.Below t.symbols.size) :
    Answers (Unseen bound g) t (join a b) (fun c => Ty.join t.classes a b = .ok c ∧ c.Below t.symbols.size) := by
  rw [← bind_pure (join a b)]
  apply askJoin intact belowA belowB
  exact fun c joins below => .pure ⟨rfl, joins, below⟩ trivial

theorem isComparable_answers (intact : t.Intact bound) (belowL : left.Below t.symbols.size)
    (belowR : right.Below t.symbols.size) :
    Answers (Unseen bound g) t (isComparable left right) (fun _ => True) :=
  (join_answers intact belowL belowR).seq fun _ _ => .done

theorem binaryType_answers (intact : t.Intact bound) (belowL : left.Below t.symbols.size)
    (belowR : right.Below t.symbols.size) :
    Answers (Unseen bound g) t (binaryType op left right) (fun found => ∀ ty, found = some ty →
      ty.Below t.symbols.size) := by
  have plain {c : Bool} {ty : Ty} (below : ty.Below t.symbols.size) : Answers (Unseen bound g) t
      (Pure.pure (if c then some ty else none) : Analysis (Option Ty)) (fun found => ∀ ty, found = some ty →
      ty.Below t.symbols.size) := by
    refine .pure (fun ty' same => ?_) trivial
    cases c with
    | true =>
      cases same
      exact below
    | false => cases same
  unfold binaryType
  extract_lets numbers
  apply Goes.ite
  · exact fun _ => plain trivial
  intro _
  apply Goes.ite
  · intro _
    apply (isComparable_answers intact belowL belowR).seq
    exact fun _ _ => plain trivial
  intro _
  split
  · exact plain trivial
  apply isString_answers.seq
  intro _ _
  apply isString_answers.seq
  intro _ _
  split
  · apply stringType_answers.seq
    intro ty below
    refine .pure ⟨rfl, ?_⟩ trivial
    rintro _ ⟨⟩
    exact below
  apply Goes.ite
  · intro _
    apply (join_answers intact belowL belowR).seq
    rintro ty ⟨_, below⟩
    refine .pure ⟨rfl, ?_⟩ trivial
    rintro _ ⟨⟩
    exact below
  · exact fun _ => .pure ⟨rfl, nofun⟩ trivial

/-- The wider of two kinds of numbers is one of them. -/
theorem join_numeric {view : ClassView} {a b c : Ty} (first : a.isNumeric) (second : b.isNumeric)
    (joins : Ty.join view a b = .ok c) : c.isNumeric := by
  cases a with
  | int | double =>
    cases b with
    | int | double =>
      cases joins
      rfl
    | _ => cases second
  | _ => cases first

/-- A number that is widened to a kind of numbers is of that kind. -/
theorem Widened.numeric {target : Ty} {value' : Expr} (widened : Widened target value value')
    (number : target.isNumeric) (noError : value.type.isError = false) : value'.type = target := by
  rcases widened with ⟨isError, _⟩ | isError | same
  · rw [noError] at isError
    cases isError
  · cases target with
    | error => cases number
    | _ => cases isError
  · generalize value'.type = ty at same
    cases target with
    | int | double =>
      cases ty <;> trivial
    | _ => cases number

theorem typeBinary_answers {left right left₀ right₀ : Expr} (intact : t.Intact bound)
    (placed : (Expr.binary info left₀ op right₀).Placed bound t.symbols.size)
    (judgedL : left.All (Expr.Judged bound t)) (judgedR : right.All (Expr.Judged bound t)) :
    Answers (Unseen bound g) t (typeBinary info left op right)
      ((Expr.binary info left op right).Dresses (Expr.Judged bound t))
      fun e => ∀ {spot : Spot}, left.All (context.Done t spot) → right.All (context.Done t spot) →
      e.All (context.Done t spot) := by
  have node {ty : Ty} {left right : Expr} (below : ty.Below t.symbols.size) :
      ((Expr.binary info left op right).typed { type := ty }).Judged bound t :=
    placed.judged rfl rfl placed.slots below trivial
  have done {spot : Spot} {ty : Ty} {left right : Expr} (agree : left.type.isNumeric → right.type.isNumeric →
      left.type = right.type) :
      context.Done t spot ((Expr.binary info left op right).typed { type := ty }) :=
        ⟨⟨rfl, trivial, agree⟩, trivial, trivial⟩
  unfold typeBinary
  apply Goes.ite
  · intro isError
    refine .pure ⟨rfl, rfl, node trivial, judgedL, judgedR⟩
      fun doneL doneR => ⟨done fun first second => ?_, doneL, doneR⟩
    rw [Bool.or_eq_true] at isError
    rcases isError with isError | isError
    · cases type : left.type <;> simp_all [Ty.isError, Ty.isNumeric]
    · cases type : right.type <;> simp_all [Ty.isError, Ty.isNumeric]
  · intro noError
    rw [Bool.or_eq_false_iff] at noError
    apply (binaryType_answers intact judgedL.type judgedR.type).seq
    intro found below
    cases found with
    | none => exact .reports ⟨placed.within, rfl⟩ (.pure ⟨rfl, rfl, node trivial, judgedL, judgedR⟩ trivial)
    | some ty =>
      have belowTy := below ty rfl
      apply Goes.ite
      · intro numbers
        rw [Bool.and_eq_true] at numbers
        apply askJoin intact judgedL.type judgedR.type
        intro common joins belowCommon
        have number := join_numeric numbers.1 numbers.2 joins
        apply (widenTo_answers intact belowCommon judgedL).then
        rintro left' ⟨judgedL', coatedL⟩
        apply (widenTo_answers intact belowCommon judgedR).then
        rintro right' ⟨judgedR', coatedR⟩
        refine .pure ⟨rfl, congrArg₂ (Expr.binary info.bare · op ·) coatedL.bare coatedR.bare,
          node belowTy, judgedL', judgedR'⟩
          fun widenedR widenedL _ doneL doneR => ⟨done fun _ _ => ?_, coatedL.finished doneL, coatedR.finished doneR⟩
        rw [widenedL.numeric number noError.1, widenedR.numeric number noError.2]
      · intro others
        refine .pure ⟨rfl, rfl, node belowTy, judgedL, judgedR⟩
          fun doneL doneR => ⟨done fun first second => ?_, doneL, doneR⟩
        rw [first, second] at others
        cases others

theorem checkLogical_answers {op : LogicalOp} (within : span.Within bound) :
    Answers (Unseen bound g) t (checkLogical op left right span) (fun _ => True) := by
  unfold checkLogical
  apply Goes.ite
  · exact fun _ => .report ⟨within, rfl⟩ ⟨rfl, trivial⟩
  · exact fun _ => .done

theorem unaryType_answers {op : UnaryOp} {operand : Ty} (below : operand.Below t.symbols.size)
    (within : span.Within bound) :
    Answers (Unseen bound g) t (unaryType op operand span) (·.Below t.symbols.size) := by
  have refused {cause : Cause} (other : cause.isPlain) : Answers (Unseen bound g) t
      (do report cause span; return Ty.error) (·.Below t.symbols.size) :=
    .reports ⟨within, other⟩ (.give trivial)
  unfold unaryType
  apply Goes.ite
  · exact fun _ => .give trivial
  intro _
  cases op with
  | not =>
    apply Goes.ite
    · exact fun _ => .give trivial
    · exact fun _ => refused rfl
  | neg =>
    apply Goes.ite
    · exact fun _ => .pure ⟨rfl, below⟩ trivial
    · exact fun _ => refused rfl

theorem isCastable_answers {source target : Ty} (intact : t.Intact bound) (belowS : source.Below t.symbols.size)
    (belowT : target.Below t.symbols.size) : Answers (Unseen bound g) t (isCastable source target) (fun _ => True) := by
  unfold isCastable
  apply Goes.ite
  · exact fun _ => .done
  intro _
  apply Goes.ite
  · exact fun _ => .done
  intro _
  apply (join_answers intact belowS belowT).seq
  exact fun _ _ => .done

theorem subscriptType_answers {array : Ty} (below : array.Below t.symbols.size) (within : span.Within bound) :
    Answers (Unseen bound g) t (subscriptType array span) (·.type.Below t.symbols.size) := by
  unfold subscriptType
  split
  · exact .give trivial
  · exact .give trivial
  · exact .pure below trivial
  · exact .reports ⟨within, rfl⟩ (.give trivial)

theorem elementType_answers {types : List Ty} (intact : t.Intact bound)
    (below : ∀ ty ∈ types, ty.Below t.symbols.size) :
    Answers (Unseen bound g) t (elementType types) (·.Below t.symbols.size) := by
  cases types with
  | nil => exact .give trivial
  | cons first rest =>
    obtain ⟨here, others⟩ := List.forall_mem_cons.mp below
    apply Answers.foldlM
    · intro ty belowTy ty' inside
      exact (join_answers intact belowTy (others ty' inside)).mono (fun _ holds => holds.2) fun _ _ _ => trivial
    · exact here

theorem typeArrayLiteral_answers {values values₀ : List Expr} (intact : t.Intact bound)
    (placed : (Expr.arrayLiteral info values₀).Placed bound t.symbols.size)
    (judged : allOf (Expr.Judged bound t) values) :
    Answers (Unseen bound g) t (typeArrayLiteral info values)
      ((Expr.arrayLiteral info values).Dresses (Expr.Judged bound t))
      fun e => ∀ {spot : Spot}, allOf (context.Done t spot) values → e.All (context.Done t spot) := by
  have node {ty : Ty} {values : List Expr} (below : ty.Below t.symbols.size) :
      ((Expr.arrayLiteral info values).typed { type := ty }).Judged bound t :=
    placed.judged rfl rfl placed.slots below trivial
  unfold typeArrayLiteral
  apply (elementType_answers intact (types_below judged)).seq
  intro element below
  apply Goes.ite
  · intro _
    refine .pure ⟨rfl, rfl, node trivial, judged⟩ fun done => ⟨⟨⟨rfl, trivial, ?_⟩, trivial, trivial⟩, done⟩
    rintro _ _ ⟨⟩ ⟨⟩
  · intro _
    apply (Answers.mapM fun value inside => widenTo_answers intact below (allOf_iff.mp judged value inside)).then
    intro values' widens
    have coated := widens.imp fun _ _ holds => holds.2
    refine .pure ⟨rfl, congrArg (Expr.arrayLiteral info.bare) (Expr.Coated.bareAll coated), node below,
      allOf_iff.mpr (forall_right widens fun _ _ holds => holds.1)⟩ fun widened _ done => ?_
    refine ⟨⟨⟨rfl, trivial, ?_⟩, trivial, trivial⟩, Expr.Coated.allOf_finished coated done⟩
    rintro _ _ ⟨⟩ ⟨⟩
    exact forall_right widened fun _ _ holds => holds.agrees

/-! ## Calls and other nodes -/

theorem checkInt_answers {cause : Cause} (within : value.span.Within bound) (other : cause.isPlain) :
    Answers (Unseen bound g) t (checkInt cause value) (fun _ => True) := by
  unfold checkInt
  apply Goes.ite
  · exact fun _ => .report ⟨within, other⟩ ⟨rfl, trivial⟩
  · exact fun _ => .done

/-- A call with known candidates runs one of them, or nothing is chosen. -/
theorem typeSelected_answers {name : Ident} {candidates : List SymbolId} {dispatch : Bool} (intact : t.Intact bound)
    (placed : (Expr.call info callee₀ name arguments₀ none).Placed bound t.symbols.size)
    (receiver : callee.All (Expr.Judged bound t)) (judged : allOf (Expr.Judged bound t) arguments)
    (below : ∀ id ∈ candidates, id.index < t.symbols.size)
    (selects : ∀ id ∈ candidates, callee.Selects t context.cls (hasObject context.frame) id
    (if dispatch then t.targetOf id else .unique id)) :
    Answers (Unseen bound g) t (typeSelected info callee name arguments none candidates dispatch)
      ((Expr.call info callee name arguments none).Dresses (Expr.Judged bound t))
      fun e => ∀ {spot : Spot}, (Expr.call info callee name arguments none).Uses t spot →
        callee.All (context.Done t spot) → allOf (context.Done t spot) arguments → e.All (context.Done t spot) := by
  unfold typeSelected
  extract_lets failed
  have failedJudged {arguments : List Expr} (judged : allOf (Expr.Judged bound t) arguments) :
      (failed arguments).All (Expr.Judged bound t) :=
    ⟨placed.judged rfl rfl placed.slots trivial (Expr.Unset.noted rfl), receiver, judged⟩
  apply Goes.ite
  · exact fun _ => .pure ⟨rfl, rfl, failedJudged judged⟩ fun uses doneR done =>
      ⟨⟨⟨rfl, trivial, trivial⟩, uses, trivial⟩, doneR, done⟩
  intro _
  apply (selectOverload_answers intact below judged placed.within).then
  rintro ⟨selected, arguments'⟩ ⟨chosen, judged', coated⟩
  have same := congrArg (Expr.call info.bare callee.bare name · none) (Expr.Coated.bareAll coated)
  cases selected with
  | none =>
    exact .pure ⟨rfl, same, failedJudged judged'⟩ fun _ _ uses doneR done =>
      ⟨⟨⟨rfl, trivial, trivial⟩, uses, trivial⟩, doneR, Expr.Coated.allOf_finished coated done⟩
  | some id =>
    obtain ⟨among, accepts⟩ := chosen id rfl
    refine askBelow accepts.below (by simp) fun s held => ?_
    have returns : ((s.function?.map FunctionSymbol.returns).getD Ty.error).Below t.symbols.size := by
      cases isFunction : s.function? with
      | none => trivial
      | some f => exact (intact.sound.function_sound held isFunction).returns
    apply (callTarget_answers intact accepts.below).seq
    rintro target ⟨which, belowTarget⟩
    have selected := selects id among
    rw [← which] at selected
    have noted {info : NodeInfo} : (Expr.call info callee name arguments' (some target)).Noted t := by
      cases callee with
      | free | object => exact ⟨id, selected.2.plain, selected.1⟩
      | super | superConstructor => trivial
    refine .pure ⟨rfl, same, placed.judged rfl rfl (Expr.call_slots belowTarget) returns noted, receiver, judged'⟩
      fun suited _ uses doneR done => ?_
    refine ⟨⟨⟨rfl, trivial, id, ?_, suited id rfl⟩, uses, id, accepts, selected⟩, doneR,
      Expr.Coated.allOf_finished coated done⟩
    rw [which]
    cases dispatch
    · exact .inl rfl
    · exact .inr rfl

theorem typeSuperConstructor_answers {name : Ident} (intact : t.Intact bound) (fits : context.Fits t)
    (placed : (Expr.call info callee₀ name arguments₀ none).Placed bound t.symbols.size)
    (judged : allOf (Expr.Judged bound t) arguments) :
    Answers (Unseen bound g) t (typeSuperConstructor context info name arguments none)
      ((Expr.call info .superConstructor name arguments none).Dresses (Expr.Judged bound t))
      fun e => ∀ {spot : Spot}, (Expr.call info .superConstructor name arguments none).Uses t spot →
        allOf (context.Done t spot) arguments → e.All (context.Done t spot) := by
  unfold typeSuperConstructor
  apply (superclass_answers intact fits).seq
  intro found supers
  cases found with
  | none =>
    exact .pure ⟨rfl, rfl, placed.judged rfl rfl placed.slots trivial trivial, trivial, judged⟩ fun uses done =>
      ⟨⟨⟨rfl, trivial, trivial⟩, uses, trivial⟩, trivial, done⟩
  | some d =>
    apply (selectConstructor_answers intact (supers d rfl) judged placed.within).then
    rintro ⟨selected, arguments'⟩ ⟨chosen, judged', coated⟩
    have same := congrArg (Expr.call info.bare .superConstructor name · none) (Expr.Coated.bareAll coated)
    cases selected with
    | none =>
      exact .pure ⟨rfl, same, placed.judged rfl rfl placed.slots trivial trivial, trivial, judged'⟩ fun _ _ uses done =>
        ⟨⟨⟨rfl, trivial, trivial⟩, uses, trivial⟩, trivial, Expr.Coated.allOf_finished coated done⟩
    | some id =>
      have accepts := (chosen id rfl).2
      refine .pure ⟨rfl, same,
        placed.judged rfl rfl (Expr.call_slots (show CallTarget.Below _ (.unique id) from accepts.below)) trivial
        trivial, trivial, judged'⟩ fun suited _ uses done =>
        ⟨⟨⟨rfl, trivial, id, .inl rfl, suited id rfl⟩, uses, id, accepts, rfl⟩, trivial, ?_⟩
      exact Expr.Coated.allOf_finished coated done

/-- **Typing a call** with a typed receiver and typed arguments. -/
theorem typeCall_answers {name : Ident} (intact : t.Intact bound) (fits : context.Fits t)
    (placed : (Expr.call info callee₀ name arguments₀ none).Placed bound t.symbols.size)
    (receiver : callee.All (Expr.Judged bound t)) (judged : allOf (Expr.Judged bound t) arguments) :
    Answers (Unseen bound g) t (typeCall context info callee name arguments none)
      ((Expr.call info callee name arguments none).Dresses (Expr.Judged bound t))
      fun e => ∀ {spot : Spot}, (Expr.call info callee name arguments none).Uses t spot →
        callee.All (context.Done t spot) → allOf (context.Done t spot) arguments → e.All (context.Done t spot) := by
  cases callee with
  | free =>
    apply (freeCandidates_answers intact fits placed.within).seq
    exact fun candidates offers => typeSelected_answers intact placed receiver judged
      (fun id among => (offers id among).1) fun id among => ⟨rfl, (offers id among).2⟩
  | object object =>
    apply Goes.ite
    · exact fun _ => typeSelected_answers intact placed receiver judged nofun nofun
    · intro _
      apply (memberCandidates_answers intact (Expr.All.type receiver) placed.within).seq
      exact fun candidates offers => typeSelected_answers intact placed receiver judged
        (fun id among => (offers id among).1) fun id among => ⟨rfl, (offers id among).2⟩
  | super =>
    apply (superCandidates_answers intact fits placed.within).seq
    exact fun candidates calls => typeSelected_answers intact placed receiver judged
      (fun id among => (calls id among).1) fun _ _ => rfl
  | superConstructor =>
    apply (typeSuperConstructor_answers intact fits placed judged).mono
    · exact fun _ dresses => dresses
    · exact fun _ _ done _ uses _ => done uses

theorem typeMember_answers {object object₀ : Expr} {property : Ident} (intact : t.Intact bound) (fits : context.Fits t)
    (placed : (Expr.member info object₀ property none).Placed bound t.symbols.size)
    (judged : object.All (Expr.Judged bound t)) :
    Answers (Unseen bound g) t (typeMember context info object property none)
      ((Expr.member info object property none).Dresses (Expr.Judged bound t))
      fun e => ∀ {spot : Spot}, object.All (context.Done t spot) → e.All (context.Done t spot) := by
  have failed : Answers (Unseen bound g) t
      (Pure.pure ((Expr.member info object property none).typed { type := .error }))
      ((Expr.member info object property none).Dresses (Expr.Judged bound t))
      fun e => ∀ {spot : Spot}, object.All (context.Done t spot) → e.All (context.Done t spot) :=
    .pure ⟨rfl, placed.judged rfl rfl placed.slots trivial trivial, judged⟩
      fun done => ⟨⟨⟨rfl, trivial, trivial⟩, trivial, trivial⟩, done⟩
  unfold typeMember
  apply Goes.ite
  · exact fun _ => failed
  intro _
  apply (selectField_answers intact fits judged.type placed.within).seq
  intro found within
  cases found with
  | none => exact failed
  | some id =>
    have within := within id rfl
    have below : id.index < t.symbols.size := by
      obtain ⟨_, _, _, _, held, _⟩ := within
      exact Table.symbol_bound held
    have only : ∀ id', some id = some id' → id'.index < t.symbols.size := by simpa using below
    have typed : ∀ id', some id = some id' → g.sure → t.HasType id' := by simpa using fun _ => within.hasType fits.apart
    apply (slotType_answers intact only typed).seq
    intro ty belowTy
    refine .pure ⟨rfl, rfl, placed.judged rfl rfl ?_ belowTy trivial, judged⟩
      fun done => ⟨⟨⟨rfl, trivial, trivial⟩, trivial, within⟩, done⟩
    simpa [Expr.slots, Expr.typed, Expr.withInfo] using below

theorem typeNewObject_answers {type : TypeName} {ty : Ty} (intact : t.Intact bound)
    (placed : (Expr.newObject info type arguments₀ none).Placed bound t.symbols.size)
    (judged : allOf (Expr.Judged bound t) arguments)
    (below : ty.Below t.symbols.size) (ofClass : ∀ built, ty.classId? = some built → type.OfClass t built) :
    Answers (Unseen bound g) t (typeNewObject info type arguments none ty)
      ((Expr.newObject info type arguments none).Dresses (Expr.Judged bound t))
      fun e => ∀ {spot : Spot}, allOf (context.Done t spot) arguments → e.All (context.Done t spot) := by
  unfold typeNewObject
  cases isClass : ty.classId? with
  | none =>
    exact .pure ⟨rfl, placed.judged rfl rfl placed.slots trivial trivial, judged⟩
      fun done => ⟨⟨⟨rfl, trivial, trivial⟩, trivial, trivial⟩, done⟩
  | some cls =>
    apply (selectConstructor_answers intact (below.cls isClass) judged placed.within).then
    rintro ⟨selected, arguments'⟩ ⟨chosen, judged', coated⟩
    have same := congrArg (Expr.newObject info.bare type · none) (Expr.Coated.bareAll coated)
    cases selected with
    | none =>
      exact .pure ⟨rfl, same, placed.judged rfl rfl placed.slots below trivial, judged'⟩ fun _ _ done =>
        ⟨⟨⟨rfl, trivial, trivial⟩, trivial, trivial⟩, Expr.Coated.allOf_finished coated done⟩
    | some id =>
      obtain ⟨constructs, accepts⟩ := chosen id rfl
      refine .pure ⟨rfl, same, placed.judged rfl rfl ?_ below trivial, judged'⟩ fun suited _ done =>
        ⟨⟨⟨rfl, trivial, suited id rfl⟩, trivial, accepts, cls, ofClass cls isClass, constructs⟩,
          Expr.Coated.allOf_finished coated done⟩
      simpa [Expr.slots, Expr.typed, Expr.withInfo] using accepts.below

theorem typeCast_answers {target : TypeName} {value₀ : Expr} (intact : t.Intact bound)
    (placed : (Expr.cast info target value₀).Placed bound t.symbols.size) (judged : value.All (Expr.Judged bound t)) :
    Answers (Unseen bound g) t (typeCast info target value)
      ((Expr.cast info target value).Dresses (Expr.Judged bound t))
      fun e => ∀ {spot : Spot}, value.All (context.Done t spot) → e.All (context.Done t spot) := by
  unfold typeCast
  apply (writtenType_answers (placed.types target (by simp [Expr.writtenTypes]))).seq
  rintro ty ⟨below, -⟩
  extract_lets last
  have ends : Answers (Unseen bound g) t (last ()) ((Expr.cast info target value).Dresses (Expr.Judged bound t))
      fun e => ∀ {spot : Spot}, value.All (context.Done t spot) → e.All (context.Done t spot) :=
    .pure ⟨rfl, placed.judged rfl rfl placed.slots below trivial, judged⟩
      fun done => ⟨⟨⟨rfl, trivial, trivial⟩, trivial, trivial⟩, done⟩
  apply Goes.ite
  · intro _
    apply (isCastable_answers intact judged.type below).seq
    intro castable _
    apply Goes.ite
    · exact fun _ => .reports ⟨placed.within, rfl⟩ (ends.mono (fun _ holds => holds) fun _ _ _ => trivial)
    · exact fun _ => ends
  · exact fun _ => ends

/-! ## Expressions -/

/-- What an expression comes to on a quiet run if every name in it was found. -/
abbrev Context.Ends (t : Table) (context : Context) (e e' : Expr) : Prop :=
  ∀ {I : Prop} {spot : Spot}, e.All (Expr.Met t I spot) → e'.All (context.Done t spot)

abbrev Context.EndAll (t : Table) (context : Context) (es es' : List Expr) : Prop :=
  ∀ {I : Prop} {spot : Spot}, allOf (Expr.Met t I spot) es → allOf (context.Done t spot) es'

/-- Names and literals, which have no parts. -/
def isLeaf : Expr → Bool
  | .literal _ _ | .classRef _ _ _ | .this _ _ | .var _ _ _ | .superField _ _ _ _ | .assignee _ _ _ _ _ => true
  | _ => false

/-- Typing a node that has no parts. -/
theorem typeLeaf_answers (intact : t.Intact bound) : ∀ {e : Expr}, isLeaf e →
    e.Open bound t.symbols.size (g.sure → t.HasType ·) →
    Answers (Unseen bound g) t (typeExpr context e) (e.Dresses (Expr.Judged bound t)) (context.Ends t e)
  | .literal info value, _, node => by
    apply literalType_answers.bind
    intro ty below
    exact .pure ⟨rfl, node.judged rfl rfl node.slots below trivial⟩
      fun _ _ _ _ => ⟨⟨rfl, trivial, trivial⟩, trivial, trivial⟩
  | .classRef info type slot, _, node => by
    have ends {ty : Ty} (below : ty.Below t.symbols.size) : Answers (Unseen bound g) t
        (Pure.pure ((Expr.classRef info type slot).typed { type := ty }))
        ((Expr.classRef info type slot).Dresses (Expr.Judged bound t)) (context.Ends t (.classRef info type slot)) :=
      .pure ⟨rfl, node.judged rfl rfl node.slots below trivial⟩
        fun met => ⟨⟨rfl, met.filled, trivial⟩, trivial, trivial⟩
    cases slot with
    | none => exact ends trivial
    | some id =>
      apply (classType_answers (node.slots id (by simp [Expr.slots]))).seq
      exact fun ty below => ends below
  | .this info slot, _, node | .var info _ slot, _, node => by
    apply (slotType_answers intact (fun id same => node.slots id (by simp [Expr.slots, same]))
      fun id same => node.ready id (by simp [Expr.asks, same])).bind
    intro ty below
    exact .pure ⟨rfl, node.judged rfl rfl node.slots below trivial⟩
      fun _ _ _ met => ⟨⟨rfl, met.filled, trivial⟩, met.bound.uses, trivial⟩
  | .superField info _ _ slot, _, node | .assignee info _ _ slot _, _, node => by
    apply (slotType_answers intact (fun id same => node.slots id (by simp [Expr.slots, same]))
      fun id same => node.ready id (by simp [Expr.asks, same])).bind
    intro ty below
    exact .pure ⟨rfl, node.judged rfl rfl node.slots below trivial⟩
      fun _ _ _ met => ⟨⟨rfl, met.filled.2, trivial⟩, met.bound.uses, trivial⟩

/-- Typing a node over its typed parts does for the node itself. -/
theorem typeParts_answers {e typed : Expr} {x : Analysis Expr} {B B' : Expr → Prop}
    (node : Answers (Unseen bound g) t x (typed.Dresses (Expr.Judged bound t)) B) (same : typed.bare = e.bare)
    (quiet : ∀ e', B e' → B' e') : Answers (Unseen bound g) t x (e.Dresses (Expr.Judged bound t)) B' :=
  node.mono (fun _ dressed => ⟨dressed.same.trans same, dressed.all⟩) fun e' _ => quiet e'

/-- Typing the two operands of a node, before the node itself. -/
theorem typeOperands_answers {left right e : Expr} {f : Expr → Expr → Analysis Expr}
    (first : Answers (Unseen bound g) t (typeExpr context left)
      (left.Dresses (Expr.Judged bound t)) (context.Ends t left))
    (second : Answers (Unseen bound g) t (typeExpr context right)
      (right.Dresses (Expr.Judged bound t)) (context.Ends t right))
    (node : ∀ a b, left.Dresses (Expr.Judged bound t) a → right.Dresses (Expr.Judged bound t) b →
      Answers (Unseen bound g) t (f a b) (e.Dresses (Expr.Judged bound t))
        fun e' => context.Ends t left a → context.Ends t right b → context.Ends t e e') :
    Answers (Unseen bound g) t (do
      let a ← typeExpr context left
      let b ← typeExpr context right
      f a b) (e.Dresses (Expr.Judged bound t)) (context.Ends t e) := by
  apply first.bind
  intro a typedA
  apply second.bind
  intro b typedB
  exact (node a b typedA typedB).mono (fun _ typed => typed) fun _ _ quiet doneB doneA => quiet doneA doneB

mutual

/-- **Typing an expression.** It always goes through and leaves the table as it is. -/
theorem typeExpr_answers (intact : t.Intact bound) (fits : context.Fits t) :
    ∀ {e : Expr}, e.All (Expr.Open bound t.symbols.size (g.sure → t.HasType ·)) →
    Answers (Unseen bound g) t (typeExpr context e) (e.Dresses (Expr.Judged bound t)) (context.Ends t e)
  | .group info inner, ⟨node, inside⟩ => by
    apply (typeExpr_answers intact fits inside).bind
    intro e typed
    exact .pure ⟨congrArg (Expr.group info.bare) typed.same,
      node.judged rfl rfl node.slots typed.all.type trivial, typed.all⟩
      fun done _ _ met => ⟨⟨⟨rfl, trivial, trivial⟩, trivial, trivial⟩, done met.2⟩
  | .widen info inner, ⟨node, _⟩ => node.unset.elim
  | .literal _ _, node | .classRef _ _ _, node | .this _ _, node | .var _ _ _, node | .superField _ _ _ _, node
  | .assignee _ _ _ _ _, node => typeLeaf_answers intact rfl node
  | .arrayLiteral info values, ⟨node, inside⟩ => by
    apply (typeExprs_answers intact fits inside).bind
    intro es typed
    exact typeParts_answers (typeArrayLiteral_answers intact node.toPlaced typed.all)
      (congrArg (Expr.arrayLiteral info.bare) typed.same) fun _ quiet done _ _ met => quiet (done met.2)
  | .subscript info array index, ⟨node, first, second⟩ => by
    apply typeOperands_answers (typeExpr_answers intact fits first) (typeExpr_answers intact fits second)
    intro a i typedA typedI
    apply (checkInt_answers typedI.all.here.within rfl).seq
    intro _ _
    apply (subscriptType_answers typedA.all.type typedA.all.here.within).seq
    intro ty below
    exact .pure ⟨rfl, congrArg₂ (Expr.subscript info.bare) typedA.same typedI.same,
      node.judged rfl rfl node.slots below trivial, typedA.all, typedI.all⟩
      fun doneA doneI _ _ met => ⟨⟨⟨rfl, trivial, trivial⟩, trivial, trivial⟩, doneA met.2.1, doneI met.2.2⟩
  | .call info callee name arguments target, ⟨node, first, second⟩ => by
    obtain rfl : target = none := node.unset
    apply (typeExprs_answers intact fits second).bind
    intro es typed
    apply (typeCallee_answers intact fits first).bind
    intro callee' typedCallee
    exact typeParts_answers (typeCall_answers intact fits node.toPlaced typedCallee.all typed.all)
      (congrArg₂ (Expr.call info.bare · name · none) typedCallee.same typed.same) fun _ quiet doneCallee done _ _ met =>
        quiet (met.1.bound.uses.callee typedCallee.same) (doneCallee met.2.1) (done met.2.2)
  | .member info object property field, ⟨node, inside⟩ => by
    obtain rfl : field = none := node.unset
    apply (typeExpr_answers intact fits inside).bind
    intro e typed
    exact typeParts_answers (typeMember_answers intact fits node.toPlaced typed.all)
      (congrArg (Expr.member info.bare · property none) typed.same) fun _ quiet done _ _ met => quiet (done met.2)
  | .unary info op operand, ⟨node, inside⟩ => by
    apply (typeExpr_answers intact fits inside).bind
    intro e typed
    apply (unaryType_answers typed.all.type node.within).seq
    intro ty below
    exact .pure ⟨rfl, congrArg (Expr.unary info.bare op) typed.same,
      node.judged rfl rfl node.slots below trivial, typed.all⟩
      fun done _ _ met => ⟨⟨⟨rfl, trivial, trivial⟩, trivial, trivial⟩, done met.2⟩
  | .cast info target value, ⟨node, inside⟩ => by
    apply (typeExpr_answers intact fits inside).bind
    intro e typed
    exact typeParts_answers (typeCast_answers intact node.toPlaced typed.all)
      (congrArg (Expr.cast info.bare target) typed.same) fun _ quiet done _ _ met => quiet (done met.2)
  | .newArray info type capacities, ⟨node, inside⟩ => by
    apply (typeCapacities_answers intact fits inside).bind
    intro es typed
    apply (writtenType_answers (node.types type (by simp [Expr.writtenTypes]))).seq
    rintro ty ⟨below, -⟩
    exact .pure ⟨rfl, congrArg (Expr.newArray info.bare type) typed.same,
      node.judged rfl rfl node.slots below trivial, typed.all⟩
      fun done _ _ met => ⟨⟨⟨rfl, trivial, trivial⟩, trivial, trivial⟩, done met.2⟩
  | .newObject info type arguments target, ⟨node, inside⟩ => by
    obtain rfl : target = none := node.unset
    apply (writtenType_answers (node.types type (by simp [Expr.writtenTypes]))).seq
    rintro ty ⟨below, ofClass⟩
    apply (typeExprs_answers intact fits inside).then
    intro es typed
    exact typeParts_answers (typeNewObject_answers intact node.toPlaced typed.all below ofClass)
      (congrArg (Expr.newObject info.bare type · none) typed.same) fun _ quiet done _ _ met => quiet (done met.2)
  | .binary info left op right, ⟨node, first, second⟩ => by
    apply typeOperands_answers (typeExpr_answers intact fits first) (typeExpr_answers intact fits second)
    intro a b typedA typedB
    exact typeParts_answers (typeBinary_answers intact node.toPlaced typedA.all typedB.all)
      (congrArg₂ (Expr.binary info.bare · op ·) typedA.same typedB.same)
      fun _ quiet doneA doneB _ _ met => quiet (doneA met.2.1) (doneB met.2.2)
  | .logical info left op right, ⟨node, first, second⟩ => by
    apply typeOperands_answers (typeExpr_answers intact fits first) (typeExpr_answers intact fits second)
    intro a b typedA typedB
    apply (checkLogical_answers node.within).seq
    intro _ _
    exact .pure ⟨rfl, congrArg₂ (Expr.logical info.bare · op ·) typedA.same typedB.same,
      node.judged rfl rfl node.slots trivial trivial, typedA.all, typedB.all⟩
      fun doneA doneB _ _ met => ⟨⟨⟨rfl, trivial, trivial⟩, trivial, trivial⟩, doneA met.2.1, doneB met.2.2⟩
  | .isType info value type tested, ⟨node, inside⟩ => by
    apply (typeExpr_answers intact fits inside).bind
    intro e typed
    apply (writtenType_answers (node.types type (by simp [Expr.writtenTypes]))).seq
    intro ty _
    exact .pure ⟨rfl, congrArg (Expr.isType info.bare · type none) typed.same,
      node.judged rfl rfl node.slots trivial trivial, typed.all⟩
      fun done _ _ met => ⟨⟨⟨rfl, rfl, trivial⟩, trivial, trivial⟩, done met.2⟩

theorem typeExprs_answers (intact : t.Intact bound) (fits : context.Fits t) :
    ∀ {es : List Expr}, allOf (Expr.Open bound t.symbols.size (g.sure → t.HasType ·)) es →
    Answers (Unseen bound g) t (typeExprs context es) (DressesAll (Expr.Judged bound t) es) (context.EndAll t es)
  | [], _ => .pure ⟨rfl, trivial⟩ fun _ => trivial
  | e :: es, ⟨first, rest⟩ => by
    apply (typeExpr_answers intact fits first).bind
    intro e' typed
    apply (typeExprs_answers intact fits rest).bind
    intro es' others
    exact .pure ⟨congrArg₂ List.cons typed.same others.same, typed.all, others.all⟩ fun doneRest done _ _ met =>
      ⟨done met.1, doneRest met.2⟩

theorem typeCapacities_answers (intact : t.Intact bound) (fits : context.Fits t) : ∀ {es : List Expr},
    allOf (Expr.Open bound t.symbols.size (g.sure → t.HasType ·)) es →
    Answers (Unseen bound g) t (typeCapacities context es) (DressesAll (Expr.Judged bound t) es) (context.EndAll t es)
  | [], _ => .pure ⟨rfl, trivial⟩ fun _ => trivial
  | e :: es, ⟨first, rest⟩ => by
    apply (typeExpr_answers intact fits first).bind
    intro e' typed
    apply (checkInt_answers typed.all.here.within rfl).seq
    intro _ _
    apply (typeCapacities_answers intact fits rest).then
    intro es' others
    exact .pure ⟨rfl, congrArg₂ List.cons typed.same others.same, typed.all, others.all⟩
      fun doneRest done _ _ met => ⟨done met.1, doneRest met.2⟩

theorem typeCallee_answers (intact : t.Intact bound) (fits : context.Fits t) : ∀ {callee : Callee},
    callee.All (Expr.Open bound t.symbols.size (g.sure → t.HasType ·)) →
    Answers (Unseen bound g) t (typeCallee context callee) (callee.Dresses (Expr.Judged bound t))
      fun callee' => ∀ {I : Prop} {spot : Spot}, callee.All (Expr.Met t I spot) → callee'.All (context.Done t spot)
  | .object receiver, inside => by
    apply (typeExpr_answers intact fits inside).bind
    intro e typed
    exact .pure ⟨congrArg Callee.object typed.same, typed.all⟩ fun done _ _ met => done met
  | .free, _ | .super, _ | .superConstructor, _ => .pure ⟨rfl, trivial⟩ fun _ => trivial

end

end Quasicode.Typing
