import Quasicode.Proofs.BindPhase
import Quasicode.Proofs.TypingStatements

/-!
Typing of functions, classes and whole programs. The definitions of globals are typed first, one
global after the other, and then the items in the order in which they were bound, so that in the
end every variable has a type. Without references on cycles each definition reads only globals
that have been typed before, so nobody asks for the type of a variable that has none yet.
-/
namespace Quasicode

open Table (Reached)

variable {bound first last : Nat} {t : Table} {done : List GlobalSite} {α β : Type}

/-! ## Typed declarations -/

/-- A parameter with the type that is written for it; its default has that type too. -/
structure Param.Complete (t : Table) (p : Param) : Prop where
  symbol : ∃ id v ty, p.symbol = some id ∧ t.var? id = some v ∧ v.type = some ty ∧ TypeName.Means t .any p.typeName ty ∧
    ∀ e, p.default = some e → e.All (Expr.Complete t) ∧ e.type.Agrees ty

/-- A function without a gap. -/
structure Function.Complete (t : Table) (owner : Option Binding.MethodOwner) (f : Function) : Prop where
  signed : f.Signed t owner
  scope : ∃ id, f.scope = some id ∧ id.index < t.scopes.size
  params : ∀ p ∈ f.params, p.Complete t
  body : ∃ id s frame, f.symbol = some id ∧ t.symbol? id = some s ∧ Typing.frameOf s.kind = some frame ∧
    holdsInAll (.complete t (some frame)) f.body

/-- A field with the type that is written for it; its initializer has that type too. -/
structure Field.Complete (t : Table) (f : Field) : Prop where
  symbol : ∃ id v ty, f.symbol = some id ∧ t.var? id = some v ∧ v.type = some ty ∧
    f.typeName.resolve t.classes = .ok ty ∧ ∀ e, f.initializer = some e → e.All (Expr.Complete t) ∧ e.type.Agrees ty

/-- A class without a gap. -/
structure Class.Complete (t : Table) (c : Class) : Prop where
  symbol : ∃ id, c.symbol = some id ∧ (t.class? id).isSome ∧
    ∀ m ∈ c.methods, m.function.Complete t (some ⟨id, c.name.name, m⟩)
  fields : ∀ f ∈ c.fields, f.Complete t
  scope : ∃ id, c.scope = some id ∧ id.index < t.scopes.size
  object : ∃ id, c.instanceThis = some id ∧ (t.var? id).isSome
  itself : ∃ id, c.staticThis = some id ∧ (t.var? id).isSome

/-- An item without a gap. -/
def Item.Complete (t : Table) : Item → Prop :=
  Item.Are (·.Complete t) (·.Complete t none) (·.Holds (.complete t none))

/-! ## Linked declarations -/

theorem Checks.linked_nodes {t : Table} {spot : Binding.Spot} {cls : Option SymbolId} {object : Bool} {P : Expr → Prop}
    (implies : ∀ e, e.Linked t spot cls object → P e) : (Checks.linked t spot cls object).Implies (.nodes P) := by
  have nodes := Checks.nodes_mono implies
  exact ⟨nodes.value, nodes.assignment, nodes.returned, fun _ _ _ => trivial, nodes.scope, nodes.place⟩

/-- The function runs on an object. -/
def Function.hasObject (t : Table) (f : Function) : Bool := (f.symbol.bind t.method?).any fun m => !m.isStatic

/-- The nodes of the defaults of a function and of its statements are linked. -/
structure Function.Linked (t : Table) (spot : Binding.Spot) (cls : Option SymbolId) (f : Function) : Prop where
  params : ∀ p ∈ f.params, ∀ e, p.default = some e → e.All (Expr.Linked t spot cls (f.hasObject t))
  body : holdsInAll (.linked t spot cls (f.hasObject t)) f.body

/-- The nodes of a method are linked; no constructor is static. -/
structure Method.Linked (t : Table) (className : String) (scope : ScopeId) (waiting : SymbolId → Prop)
    (cls : Option SymbolId) (m : Method) :
    Prop where
  function : m.function.Linked t ⟨scope, Binding.methodBody className m, waiting⟩ cls
  static : m.isStatic → Binding.methodBody className m = .staticMethod

/-- The members of a class are linked. Its initializers stand in the class, but outside every method. -/
structure Class.Linked (t : Table) (waiting : SymbolId → Prop) (c : Class) : Prop where
  fields : ∀ scope, c.scope = some scope → ∀ f ∈ c.fields, ∀ e, f.initializer = some e →
    e.All (Expr.Linked t ⟨scope, .topLevel, fun id => waiting id ∨ c.Owns id⟩ c.symbol false)
  methods : ∀ scope, c.scope = some scope → ∀ m ∈ c.methods, m.Linked t c.name.name scope waiting c.symbol

/-- An item whose nodes are linked; the fields in `waiting` are not read there. -/
def Item.Linked (t : Table) (waiting : SymbolId → Prop) : Item → Prop :=
  Item.Are (·.Linked t waiting) (·.Linked t ⟨.root, .function, fun _ => False⟩ none)
    (·.Holds (.linked t .outside none false))

/-- The items of a program are linked, and none reads a field of a class that comes later. -/
def Program.Linked (t : Table) (program : Program) : Prop :=
  ∀ (i : Nat) (item : Item), program.items[i]? = some item → item.Linked t
    fun id => ∃ later ∈ program.items.drop (i + 1), later.Owns id

/-! ## Items whose definitions of globals are typed already -/

/-- An assignment that is still to be typed, or one at a site in `done`, which is typed already. -/
def Assignment.Awaits (bound : Nat) (t : Table) (done : List GlobalSite) (index first : Nat)
    (x : Assignment × Nat) (last : Nat) : Prop :=
  if done.contains ⟨index, x.2⟩ then last = first ∧ (Checks.judged bound t).assignment x.1
  else x.1.Threads bound t first last ∧ (Checks.nodes Expr.Unset).assignment x.1

/-- What is known of such an assignment on a quiet run. -/
def Assignment.Prepared (t : Table) (done : List GlobalSite) (index : Nat) (x : Assignment × Nat) : Prop :=
  if done.contains ⟨index, x.2⟩ then (Checks.finished t .outside none none).assignment x.1
  else (Checks.met t (Binding.Context.Inherits .top) .outside).assignment x.1

/-- An item that is still to be typed, but for the definitions at the sites in `done`. -/
def Item.Awaits (bound : Nat) (t : Table) (done : List GlobalSite) (first : Nat) (x : Item × Nat) (last : Nat) : Prop :=
  match x.1 with
  | .cls c => c.Threads bound t first last ∧ c.All Expr.Unset
  | .function f => f.Threads bound t first last ∧ f.All Expr.Unset
  | .stmt s => if s.isAssignment then threads (Assignment.Awaits bound t done x.2) first x.1.assignments.zipIdx last
    else s.Threads bound t first last ∧ s.Holds (.nodes Expr.Unset)

/-- What is known of such an item on a quiet run. -/
def Item.Prepared (t : Table) (inherits waiting : SymbolId → Prop) (done : List GlobalSite) (x : Item × Nat) : Prop :=
  match x.1 with
  | .stmt s => if s.isAssignment then ∀ a ∈ x.1.assignments.zipIdx, Assignment.Prepared t done x.2 a
    else s.Holds (.met t (Binding.Context.Inherits .top) .outside)
  | item => item.Whole t inherits ∧ item.Bound t waiting

theorem Function.Threads.le {f : Function} (threads : f.Threads bound t first last) :
    first ≤ last := by
  cases isSymbol : f.symbol with
  | none => exact Nat.le_of_eq (threads.unknown isSymbol).symm
  | some id =>
    obtain ⟨_, _, _, _, _, _, _, le, _, _, _, body⟩ := threads.known id isSymbol
    exact Nat.le_trans le (threadsAll_le body)

theorem Class.Threads.le {c : Class} (threads : c.Threads bound t first last) :
    first ≤ last := by
  cases isSymbol : c.symbol with
  | none => exact Nat.le_of_eq (threads.unknown isSymbol).symm
  | some id =>
    obtain ⟨_, _, _, _, _, le, _, _, methods⟩ := threads.known id isSymbol
    exact Nat.le_trans le (threads_le (fun threads => threads.le) methods)

theorem Assignment.Awaits.le {index : Nat} {x : Assignment × Nat}
    (awaits : Assignment.Awaits bound t done index first x last) : first ≤ last := by
  unfold Assignment.Awaits at awaits
  split at awaits
  · exact Nat.le_of_eq awaits.1.symm
  · exact awaits.1.left.le

theorem Item.Awaits.le {x : Item × Nat} (awaits : Item.Awaits bound t done first x last) : first ≤ last := by
  unfold Item.Awaits at awaits
  split at awaits
  · exact awaits.1.le
  · exact awaits.1.le
  · split at awaits
    · exact threads_le (fun awaits => awaits.le) awaits
    · exact awaits.1.le

/-- What is between two numbers for one list is so for another. -/
theorem threads_forall₂ {R : Nat → α → Nat → Prop} {S : Nat → β → Nat → Prop} {xs : List α} {ys : List β}
    (all : List.Forall₂ (fun x y => ∀ first last, R first x last → S first y last) xs ys) :
    ∀ {first last}, threads R first xs last → threads S first ys last := by
  induction all with
  | nil => exact fun same => same
  | cons here _ ih =>
    rintro first last ⟨middle, holds, rest⟩
    exact ⟨middle, here first middle holds, ih rest⟩

theorem forall₂_indexed {S : α → β × Nat → Prop} {xs : List α} {ys : List β} (length : xs.length = ys.length)
    (each : ∀ i x y, xs[i]? = some x → ys[i]? = some y → S x (y, i)) : List.Forall₂ S xs ys.zipIdx := by
  refine List.forall₂_iff_get.mpr ⟨by simp [length], fun i first second => ?_⟩
  rw [List.length_zipIdx] at second
  simpa using each i xs[i] ys[i] (List.getElem?_eq_getElem first) (List.getElem?_eq_getElem second)

theorem forall₂_modify {R : α → β → Prop} {f : β → β} {xs : List α} {ys : List β} (all : List.Forall₂ R xs ys)
    (kept : ∀ x y, R x y → R x (f y)) (i : Nat) : List.Forall₂ R xs (ys.modify i f) := by
  induction all generalizing i with
  | nil => simp
  | cons here rest ih =>
    cases i with
    | zero => simpa using ⟨kept _ _ here, rest⟩
    | succ i => simpa using ⟨here, ih i⟩

theorem forall₂_map {γ : Type} {R : α → β → Prop} {f : α → γ} {g : β → γ} {xs : List α} {ys : List β}
    (all : List.Forall₂ R xs ys) (same : ∀ x y, R x y → g y = f x) : ys.map g = xs.map f := by
  induction all with
  | nil => rfl
  | cons here _ ih => rw [List.map_cons, List.map_cons, same _ _ here, ih]

/-- Pairs of pairs. -/
theorem forall₂_through {γ : Type} {R : α → β → Prop} {S : β → γ → Prop} {T : α → γ → Prop}
    (through : ∀ a b c, R a b → S b c → T a c) :
    ∀ {xs : List α} {ys : List β} {zs : List γ}, List.Forall₂ R xs ys → List.Forall₂ S ys zs → List.Forall₂ T xs zs
  | _, _, _, .nil, .nil => .nil
  | _, _, _, .cons first rest, .cons second others =>
    .cons (through _ _ _ first second) (forall₂_through through rest others)

theorem boundInTurn_at : ∀ {items : List Item}, boundInTurn t items → ∀ {i : Nat} {item : Item}, items[i]? = some item →
    item.Bound t fun id => ∃ later ∈ items.drop (i + 1), later.Owns id
  | _ :: _, ⟨first, _⟩, 0, _, here => by
    cases here
    exact first
  | _ :: _, ⟨_, rest⟩, _ + 1, _, here => boundInTurn_at rest here

namespace Typing

open Analysis
open Binding (Spot)

variable {bound : Nat} {g : Guess} {t t' : Table} {known : SymbolId → Prop} {context : Context}
variable {count : Nat} {inherits waiting : SymbolId → Prop} {item : Item} {program : Program} {site : GlobalSite}
variable {a : Assignment} {id : SymbolId}

/-! ## Functions -/

/-- An initial value gets the type of what it initializes. -/
theorem typeInitial_answers {slot : Option SymbolId} {initial : Option Expr}
    (reached : Reached bound t (·.index < count) t')
    (fits : context.Fits t) (below : ∀ id, slot = some id → id.index < count)
    (placed : ∀ e, initial = some e → e.All (Expr.Placed bound count))
    (unset : (Checks.nodes Expr.Unset).returned initial)
    (le : count ≤ t.symbols.size) : Answers (Unseen bound g) t' (typeInitial context slot initial)
      (Dresses (Option.map Expr.bare) (fun initial' => ∀ e, initial' = some e →
        e.All (Expr.Placed bound t.symbols.size) ∧ e.All (Expr.Noted t)) initial)
      fun initial' => ∀ {I spot}, (Checks.met t I spot).returned initial → ∀ id v ty,
        slot = some id → t.var? id = some v →
        v.type = some ty → ∀ e, initial' = some e → e.All (context.Done t spot) ∧ e.type.Agrees ty := by
  unfold typeInitial
  split
  next id value =>
    have belowId : id.index < t.symbols.size := Nat.lt_of_lt_of_le (below id rfl) le
    apply (typeExpr_reached reached fits (.before (placed value rfl) (unset value rfl) le)).then
    intro value' typed
    apply (variableType_answers reached.intact (reached.below.mpr belowId)
      fun _ v => reached.typed id v (below id rfl)).seq
    rintro _ ⟨rfl, belowTy⟩
    apply (widenTo_reached reached (reached.size ▸ belowTy) typed.all).then
    rintro value'' ⟨judged, coated⟩
    refine .pure ⟨rfl, congrArg some (coated.bare.trans typed.same), ?_⟩ fun widened done _ _ met => ?_
    · rintro _ ⟨⟩
      exact ⟨judged.placed, judged.mono fun _ judged => judged.noted⟩
    · rintro _ v ty ⟨⟩ held type _ ⟨⟩
      obtain ⟨_, retyped⟩ := reached.retyped
      rw [retyped.typeOf_kept held type] at widened
      exact ⟨coated.finished (done (met value rfl)), widened.agrees⟩
  next missing =>
    refine .pure ⟨rfl, fun e same => ⟨(placed e same).mono fun _ placed => placed.mono le, (unset e same).mono
      fun _ unset => unset.noted⟩⟩ ?_
    exact fun _ id v ty isSlot _ _ e same => (missing id e isSlot same).elim

theorem typeParam_answers {p : Param} (reached : Reached bound t (·.index < count) t') (fits : context.Fits t)
    (placed : p.Placed bound count)
    (unset : (Checks.nodes Expr.Unset).returned p.default) (le : count ≤ t.symbols.size) :
      Answers (Unseen bound g) t' (typeParam context p)
      (Dresses Param.bare (fun p' => p'.Placed bound t.symbols.size ∧ ∀ e, p'.default = some e →
      e.All (Expr.Noted t)) p) fun p' => ∀ {I spot}, p.Filled t I →
        (∀ e, p.default = some e → e.All (Expr.Bound t spot)) →
        p'.Complete t ∧ ∀ e, p'.default = some e → e.All (context.Done t spot) := by
  unfold typeParam
  apply (typeInitial_answers reached fits placed.symbol placed.default unset le).bind
  intro default typed
  refine .pure ⟨?_, ⟨fun id same => Nat.lt_of_lt_of_le (placed.symbol id same) le, fun e same => (typed.all e same).1⟩,
    fun e same => (typed.all e same).2⟩ fun done _ _ filled isBound => ?_
  · simp only [Param.bare, typed.same]
  · obtain ⟨id, v, ty, same, held, type, means⟩ := filled.symbol
    have done := done (fun e same => (filled.default e same).meet (fun _ => .mk) (isBound e same)) id v
      ty same held type
    refine ⟨⟨id, v, ty, same, held, type, means, fun e same => ⟨?_, (done e same).2⟩⟩, fun e same => (done e same).1⟩
    exact (done e same).1.mono fun _ finished => finished.toComplete

theorem typeField_answers {f : Field} (reached : Reached bound t (·.index < count) t') (fits : context.Fits t)
    (placed : f.Placed bound count)
    (unset : (Checks.nodes Expr.Unset).returned f.initializer) (le : count ≤ t.symbols.size) :
    Answers (Unseen bound g) t' (typeField context f)
      (Dresses Field.bare (fun f' => f'.Placed bound t.symbols.size ∧
      (∀ e, f'.initializer = some e → e.All (Expr.Noted t)) ∧ f.Kin f') f)
      fun f' => ∀ {I spot}, f.Filled t I → (∀ e, f.initializer = some e → e.All (Expr.Bound t spot)) →
        f'.Complete t ∧ ∀ e, f'.initializer = some e → e.All (context.Done t spot) := by
  unfold typeField
  apply (typeInitial_answers reached fits placed.symbol placed.initializer unset le).bind
  intro initializer typed
  refine .pure ⟨?_, ⟨fun e same => (typed.all e same).1, fun id same => Nat.lt_of_lt_of_le (placed.symbol id same) le⟩,
    fun e same => (typed.all e same).2, rfl⟩ fun done _ _ filled isBound => ?_
  · simp only [Field.bare, typed.same]
  · obtain ⟨id, s, v, ty, same, held, isVar, type, resolved⟩ := filled.signed.symbol
    have isVar : t.var? id = some v := (Table.var_of held).trans isVar
    have done := done (fun e same => (filled.initializer e same).meet (fun _ => .mk) (isBound e same)) id v
      ty same isVar type
    refine ⟨⟨id, v, ty, same, isVar, type, resolved, fun e same => ⟨?_, (done e same).2⟩⟩,
      fun e same => (done e same).1⟩
    exact (done e same).1.mono fun _ finished => finished.toComplete

/-- A function has a frame. -/
theorem frameOf_function {kind : SymbolKind} (isFunction : kind.function?.isSome) :
    ∃ frame g, frameOf kind = some frame ∧ kind.function? = some g ∧ frame.returns = g.returns := by
  cases kind with
  | function | method => exact ⟨_, _, rfl, rfl, rfl⟩
  | _ => cases isFunction

theorem frameOf_object {s : Symbol} {frame : Frame} (isFrame : frameOf s.kind = some frame) :
    hasObject (some frame) = s.method?.any fun m => !m.isStatic := by
  unfold Symbol.method?
  cases kind : s.kind with
  | function | method =>
    rw [kind] at isFrame
    cases isFrame
    simp [SymbolKind.method?, hasObject]
  | _ =>
    rw [kind] at isFrame
    cases isFrame

/-- The frame of a function has nothing to do with the types of variables. -/
theorem frameOf_given {s : Symbol} {type : Option Ty} : frameOf (s.given type).kind = frameOf s.kind := by
  cases kind : s.kind <;> simp [Symbol.given, Symbol.mapKind, kind, SymbolKind.mapVariable, frameOf]

/-- A function without its decoration tells which parameters have a default. -/
theorem Function.Kin.of_bare {f f' : Function} (same : f'.bare = f.bare)
    (symbol : f'.symbol = f.symbol) : f.Kin f' := by
  refine ⟨(congrArg (·.name) same : f'.bare.name = f.bare.name), symbol, ?_⟩
  have defaults := congrArg (fun f : Function => f.params.map fun p => p.default.isNone) same
  simpa [Function.bare, Param.bare, Function.defaults, Function.comp_def] using defaults

/-- **Typing a function.** -/
theorem typeFunction_goes {cls : Option SymbolId} {f : Function} (reached : Reached bound t (·.index < first) t')
    (intact : t.Intact bound) (inside : ∀ id, cls = some id → id.index < t.symbols.size)
    (threads : f.Threads bound t first last) (unset : f.All Expr.Unset) (le : last ≤ t.symbols.size) :
    Goes (Unseen bound g) t' (typeFunction cls f)
      (fun f' t'' => Reached bound t (·.index < last) t'' ∧ f'.Placed bound t ∧ f.Dresses (Expr.Noted t) f' ∧ f.Kin f')
      fun f' _ => ∀ {I spot} owner, f.Filled t I owner → f.Bound t spot →
      f'.Complete t owner ∧ f'.Linked t spot cls := by
  unfold typeFunction
  cases isSymbol : f.symbol with
  | none =>
    have same := threads.unknown isSymbol
    refine .pure ⟨same ▸ reached, ⟨by simp [isSymbol], by simp [isSymbol], threads.endSpan, by simp [isSymbol]⟩,
      ⟨rfl, Function.All.mono (fun _ unset => unset.noted) unset⟩, .refl f⟩ fun owner filled => ?_
    obtain ⟨id, _, _, impossible, _⟩ := filled.signed.symbol
    cases isSymbol.symm.trans impossible
  | some id =>
    obtain ⟨s, scope, middle, held, isFunction, isScope, insideScope, leMiddle, typed, params, _, body⟩ :=
      threads.known id isSymbol
    obtain ⟨frame, g, isFrame, isFunction, returns⟩ := frameOf_function isFunction
    have leBody := Nat.le_trans (threadsAll_le body) le
    obtain ⟨_, retyped⟩ := reached.retyped
    have held' : t'.symbol? id = some s := by
      apply retyped.symbol_kept held
      cases kind : s.kind <;> simp_all [Symbol.var?, SymbolKind.var?, SymbolKind.function?]
    rw [isScope]
    refine askSymbol held' (fun _ => by rw [frameOf_given]) ?_
    rw [isFrame]
    have fits : Context.Fits t { scope, cls, frame := some frame } := by
      refine ⟨insideScope, inside, ?_, reached.apart⟩
      rintro _ ⟨⟩
      rw [returns]
      exact (intact.sound.function_sound held isFunction).returns
    apply (Answers.mapM fun p inside => typeParam_answers (reached.past typed) fits (params p inside)
      (unset.1 p inside) leBody).then
    intro ps typedParams
    apply (typeStmts_goes (reached.past typed) fits body unset.2 le).bind
    rintro stmts t₁ ⟨reached₁, typedBody⟩
    have typedPs := dresses_map typedParams
    have same : Function.bare
        { f with params := ps, body := stmts, symbol := some id, scope := some scope } = f.bare := by
      simp only [Function.bare, typedPs.same, typedBody.same]
    have kin := Function.Kin.of_bare same isSymbol.symm
    refine .pure ⟨reached₁, ⟨fun _ p inside => (typedPs.all p inside).1,
      fun _ => holdsInAll_mono Checks.judged_placed typedBody.all,
      threads.endSpan, ?_⟩, ⟨same, fun p inside => (typedPs.all p inside).2,
      holdsInAll_mono Checks.judged_noted typedBody.all⟩, kin⟩ ?_
    · rintro _ ⟨⟩
      exact Table.symbol_bound held
    · intro doneBody doneParams I spot owner filled isBound
      have doneBody := doneBody (holdsInAll_meet Checks.filled_bound filled.body isBound.body)
      have doneParams : ∀ p ∈ ps, p.Complete t ∧ ∀ e, p.default = some e →
          e.All (Expr.Finished t spot cls (some frame)) :=
        forall_through (P := fun p => p.Filled t I ∧ ∀ e, p.default = some e → e.All (Expr.Bound t spot))
          (doneParams.imp fun _ _ done met => done met.1 met.2)
          fun p inside => ⟨filled.params p inside, isBound.params p inside⟩
      have object : hasObject (some frame) = Function.hasObject t
          { f with params := ps, body := stmts, symbol := some id, scope := some scope } := by
        rw [frameOf_object isFrame, Function.hasObject, Option.bind_some, Table.method?, held, Option.bind_some]
      have names : ps.map Param.typeName = f.params.map Param.typeName :=
        forall₂_map typedParams fun _ _ typed =>
          (congrArg Param.typeName typed.same : (Param.bare _).typeName = (Param.bare _).typeName)
      refine ⟨⟨filled.signed.update isSymbol.symm rfl rfl names fun g => ?_, ⟨scope, rfl, insideScope⟩,
        fun p inside => (doneParams p inside).1,
        id, s, frame, rfl, held, isFrame, holdsInAll_mono Checks.finished_complete doneBody⟩,
        ⟨fun p inside e same => ?_, ?_⟩⟩
      · cases owner <;> rfl
      · rw [← object]
        exact ((doneParams p inside).2 e same).mono fun _ finished => finished.linked
      · rw [← object]
        exact holdsInAll_mono Checks.finished_linked doneBody

/-! ## Classes -/

theorem typeMethod_goes {cls : SymbolId} {m : Method} (reached : Reached bound t (·.index < first) t')
    (intact : t.Intact bound) (inside : cls.index < t.symbols.size) (threads : m.function.Threads bound t first last)
    (unset : m.function.All Expr.Unset) (le : last ≤ t.symbols.size) :
    Goes (Unseen bound g) t' (typeMethod cls m)
      (fun m' t'' => Reached bound t (·.index < last) t'' ∧
        Dresses Method.bare (fun m' => m'.function.Placed bound t ∧ m'.function.All (Expr.Noted t) ∧ m.Kin m') m m')
      fun m' _ => ∀ {I : Prop} {name : String} {scope : ScopeId} {waiting : SymbolId → Prop},
        m.function.Filled t I (some ⟨cls, name, m⟩) → m.Bound t name scope waiting →
        m'.function.Complete t (some ⟨cls, name, m'⟩) ∧ m'.Linked t name scope waiting (some cls) := by
  unfold typeMethod
  apply (typeFunction_goes reached intact (by simpa using inside) threads unset le).bind
  rintro f t₁ ⟨reached₁, placed, typed, kin⟩
  have same : Method.Kin m { m with function := f } := ⟨kin, rfl⟩
  refine .pure ⟨reached₁, by simp only [Method.bare, typed.same], placed, typed.all, same⟩
    fun done _ _ _ _ filled isBound => ?_
  obtain ⟨complete, linked⟩ := done _ filled isBound.function
  refine ⟨{ complete with signed := complete.signed.update rfl rfl rfl rfl fun _ => rfl }, ?_, ?_⟩
  · rw [same.body]
    exact linked
  · rw [same.body]
    exact isBound.static

/-- **Typing a class.** -/
theorem typeClass_goes {c : Class} (reached : Reached bound t (·.index < first) t') (intact : t.Intact bound)
    (threads : c.Threads bound t first last) (unset : c.All Expr.Unset) (le : last ≤ t.symbols.size) :
    Goes (Unseen bound g) t' (typeClass c)
      (fun c' t'' => Reached bound t (·.index < last) t'' ∧ c'.Placed bound t ∧ c.Dresses (Expr.Noted t) c' ∧ c.Kin c')
      fun c' _ => c.Filled t inherits → c.Bound t waiting → c'.Complete t ∧ c'.Linked t waiting := by
  unfold typeClass
  cases isSymbol : c.symbol with
  | none =>
    have same := threads.unknown isSymbol
    refine .pure ⟨same ▸ reached, ⟨by simp [isSymbol], by simp [isSymbol], by simp [isSymbol]⟩,
      ⟨rfl, fun f inside e same => ?_, fun m inside =>
      Function.All.mono (fun _ unset => unset.noted) (unset.2 m inside)⟩, .refl c⟩ fun filled => ?_
    · exact (unset.1 f inside e same).mono fun _ unset => unset.noted
    · obtain ⟨id, impossible, _⟩ := filled.symbol
      cases isSymbol.symm.trans impossible
  | some id =>
    obtain ⟨scope, middle, below, isScope, inside, leMiddle, typed, fields, methods⟩ := threads.known id isSymbol
    have leMethods := Nat.le_trans (threads_le (fun threads => threads.le) methods) le
    have fits : Context.Fits t { scope, cls := some id } := by
      refine ⟨inside, ?_, by simp, reached.apart⟩
      rintro _ ⟨⟩
      exact below
    rw [isScope]
    apply (Answers.mapM fun f inside' => typeField_answers (reached.past typed) fits (fields f inside')
      (unset.1 f inside') leMethods).then
    intro fs typedFields
    have typedMethods := mapM_reached (g := g) (f := typeMethod id)
      (A := fun m => Dresses Method.bare (fun m' => m'.function.Placed bound t ∧
      m'.function.All (Expr.Noted t) ∧ m.Kin m') m)
      (B := fun m m' => m.function.Filled t (inherits id) (some ⟨id, c.name.name, m⟩) ∧
        m.Bound t c.name.name scope waiting →
        m'.function.Complete t (some ⟨id, c.name.name, m'⟩) ∧ m'.Linked t c.name.name scope waiting (some id))
      (fun threads => threads.le) (fun m member {_ _ _} reached inMethod le =>
        (typeMethod_goes reached intact below inMethod (unset.2 m member) le).mono (fun _ _ holds => holds)
          fun _ _ _ done met => done met.1 met.2)
      (reached.past typed) methods le
    apply typedMethods.bind
    rintro ms t₁ ⟨reached₁, typedMethods⟩
    have kin : c.Kin { c with fields := fs, methods := ms, symbol := some id, scope := some scope } :=
      ⟨isSymbol.symm, isScope.symm, typedFields.imp fun _ _ typed => typed.all.2.2, typedMethods.imp
        fun _ _ typed => typed.all.2.2⟩
    have fields' : ∀ f ∈ fs, f.Placed bound t.symbols.size ∧ ∀ e, f.initializer = some e → e.All (Expr.Noted t) :=
      forall_right typedFields fun _ _ typed => ⟨typed.all.1, typed.all.2.1⟩
    have methods' : ∀ m ∈ ms, m.function.Placed bound t ∧ m.function.All (Expr.Noted t) :=
      forall_right typedMethods fun _ _ typed => ⟨typed.all.1, typed.all.2.1⟩
    refine .pure ⟨reached₁, ⟨?_, fun _ m inside => (methods' m inside).1, fun _ f inside => (fields' f inside).1⟩,
      ⟨?_, fun f inside => (fields' f inside).2, fun m inside => (methods' m inside).2⟩, kin⟩
      fun doneMethods doneFields filled isBound => ?_
    · rintro _ ⟨⟩
      exact below
    · have sameFields := forall₂_map typedFields fun _ _ typed => typed.same
      have sameMethods := forall₂_map typedMethods fun _ _ typed => typed.same
      simp only [Class.bare, sameFields, sameMethods]
    · obtain ⟨id', same, isClass, filledFields, filledMethods⟩ := filled.symbol
      cases isSymbol.symm.trans same
      have fields := forall_through (P := fun f => f.Filled t (inherits id) ∧ ∀ e, f.initializer = some e →
          e.All (Expr.Bound t ⟨scope, .topLevel, fun id => waiting id ∨ c.Owns id⟩))
          (doneFields.imp fun _ _ done met => done met.1 met.2)
        fun f inside => ⟨filledFields f inside, isBound.fields scope isScope f inside⟩
      have methods := forall_through doneMethods
        fun m inside => ⟨filledMethods m inside, isBound.methods scope isScope m inside⟩
      refine ⟨⟨⟨id, rfl, isClass, fun m inside => (methods m inside).1⟩, fun f inside => (fields f inside).1,
        ⟨scope, rfl, inside⟩, filled.object, filled.itself⟩, ⟨?_, ?_⟩⟩
      · rintro _ ⟨⟩ f inside e same
        rw [kin.owns]
        exact ((fields f inside).2 e same).mono fun _ finished => finished.linked
      · rintro _ ⟨⟩ m inside
        exact (methods m inside).2

/-! ## Items -/

theorem Context.fits_top (intact : t.Intact bound) (reached : Reached bound t known t') : Context.Fits t .top :=
  ⟨intact.sound.rootInside, by simp [Context.top], by simp [Context.top], reached.apart⟩

/-- An item as typing leaves it, whatever was reported. -/
structure Worked (bound : Nat) (t : Table) (item item' : Item) : Prop where
  placed : item'.Placed bound t
  dressed : item.Dresses (Expr.Noted t) item'
  kin : item.Kin item'

theorem Worked.stmt {s s' : Stmt} (typed : s.Dresses (.judged bound t) s') : Worked bound t (.stmt s) (.stmt s') :=
  ⟨typed.all.mono Checks.judged_placed, ⟨congrArg Item.stmt typed.same, typed.all.mono Checks.judged_noted⟩, trivial⟩

theorem finished_stmt {s : Stmt} (finished : s.Holds (.finished t .outside none none)) :
    (Item.stmt s).Complete t ∧ (Item.stmt s).Linked t waiting :=
  ⟨finished.mono Checks.finished_complete, finished.mono Checks.finished_linked⟩

/-- An assignment of an item, unless it is typed already. -/
theorem typePending_goes {index : Nat} {x : Assignment × Nat} (intact : t.Intact bound)
    (reached : Reached bound t (·.index < first) t') (awaits : Assignment.Awaits bound t done index first x last)
    (le : last ≤ t.symbols.size) :
    Goes (Unseen bound g) t' (if done.contains ⟨index, x.2⟩ then return x.1 else typeAssignment .top x.1)
      (fun a' t'' => Reached bound t (·.index < last) t'' ∧ x.1.Dresses (.judged bound t) a')
      fun a' _ => Assignment.Prepared t done index x → (Checks.finished t .outside none none).assignment a' := by
  unfold Assignment.Awaits at awaits
  unfold Assignment.Prepared
  cases isDone : done.contains ⟨index, x.2⟩ with
  | true =>
    rw [isDone, if_pos rfl] at awaits
    exact .pure ⟨awaits.1 ▸ reached, rfl, awaits.2⟩ fun finished => finished
  | false =>
    rw [isDone, if_neg Bool.false_ne_true] at awaits
    exact (typeAssignment_threads reached (Context.fits_top intact reached) awaits.1 awaits.2 le).mono
      (fun _ _ holds => holds) fun _ _ _ done met => done met

theorem typePendings_goes {index : Nat} {s : Stmt} (intact : t.Intact bound)
    (isAssignment : s.isAssignment) (reached : Reached bound t (·.index < first) t')
    (awaits : threads (Assignment.Awaits bound t done index) first (Item.stmt s).assignments.zipIdx last)
    (le : last ≤ t.symbols.size) :
    Goes (Unseen bound g) t' ((Item.stmt s).mapAssignments fun part a =>
        if done.contains ⟨index, part⟩ then return a else typeAssignment .top a)
      (fun item t'' => Reached bound t (·.index < last) t'' ∧ Worked bound t (.stmt s) item)
      fun item _ => (∀ a ∈ (Item.stmt s).assignments.zipIdx, Assignment.Prepared t done index a) →
      item.Complete t ∧ item.Linked t waiting := by
  cases s with
  | assign part =>
    obtain ⟨middle, here, rfl⟩ := awaits
    apply (typePending_goes intact reached here le).bind
    rintro part' t₁ ⟨reached₁, typed⟩
    refine .pure ⟨reached₁, .stmt ⟨congrArg Stmt.assign typed.same, typed.all⟩⟩ fun finished prepared => ?_
    exact finished_stmt (s := .assign part') (finished (prepared _ List.mem_cons_self))
  | assignAll parts span =>
    have each := mapM_reached (g := g) (f := fun x : Assignment × Nat => if done.contains ⟨index, x.2⟩ then return x.1
      else typeAssignment .top x.1) (A := fun x => x.1.Dresses (.judged bound t))
      (B := fun x a' => Assignment.Prepared t done index x → (Checks.finished t .outside none none).assignment a')
      (fun awaits => awaits.le) (fun x _ {_ _ _} reached here le => typePending_goes intact reached here le)
      reached awaits le
    apply each.bind
    rintro parts' t₁ ⟨reached₁, each⟩
    have typed := dresses_map (forall₂_of_zipIdx (R := Assignment.Dresses (.judged bound t)) each)
    refine .pure ⟨reached₁, .stmt ⟨congrArg (Stmt.assignAll · span) typed.same, typed.all⟩⟩ fun finished prepared => ?_
    exact finished_stmt (s := .assignAll parts' span) (forall_through finished prepared)
  | _ => cases isAssignment

/-- **Typing an item** after the definitions of globals. -/
theorem typeItem_goes {x : Item × Nat} (intact : t.Intact bound)
    (reached : Reached bound t (·.index < first) t') (awaits : Item.Awaits bound t done first x last)
    (le : last ≤ t.symbols.size) :
    Goes (Unseen bound g) t' (typeItem done x.2 x.1)
      (fun item t'' => Reached bound t (·.index < last) t'' ∧ Worked bound t x.1 item)
      fun item _ => Item.Prepared t inherits waiting done x → item.Complete t ∧ item.Linked t waiting := by
  obtain ⟨item, index⟩ := x
  cases item with
  | cls c =>
    apply (typeClass_goes reached intact awaits.1 awaits.2 le).bind
    rintro c' t₁ ⟨reached₁, placed, typed, kin⟩
    exact .pure ⟨reached₁, placed, ⟨congrArg Item.cls typed.same, typed.all⟩, kin⟩ fun finished prepared =>
      finished prepared.1 prepared.2
  | function f =>
    apply (typeFunction_goes reached intact (by simp) awaits.1 awaits.2 le).bind
    rintro f' t₁ ⟨reached₁, placed, typed, kin⟩
    exact .pure ⟨reached₁, placed, ⟨congrArg Item.function typed.same, typed.all⟩, kin⟩ fun finished prepared =>
      finished none prepared.1 prepared.2
  | stmt s =>
    unfold Item.Awaits at awaits
    unfold Item.Prepared
    cases isAssignment : s.isAssignment with
    | true =>
      have same : typeItem done index (.stmt s) = (Item.stmt s).mapAssignments fun part a =>
          if done.contains ⟨index, part⟩ then return a else typeAssignment .top a := by
        cases s with
        | assign | assignAll => rfl
        | _ => cases isAssignment
      simp only [isAssignment, if_true] at awaits ⊢
      rw [same]
      exact typePendings_goes intact isAssignment reached awaits le
    | false =>
      have same : typeItem done index (.stmt s) = do return .stmt (← typeStmt .top s) := by
        cases s with
        | assign | assignAll => cases isAssignment
        | _ => rfl
      simp only [isAssignment, Bool.false_eq_true, if_false] at awaits ⊢
      rw [same]
      apply (typeStmt_goes reached (Context.fits_top intact reached) awaits.1 awaits.2 le).bind
      rintro s' t₁ ⟨reached₁, typed⟩
      exact .pure ⟨reached₁, .stmt typed⟩ fun finished met => finished_stmt (finished met)

/-! ## Definitions of globals -/

/-- The definitions at the sites in `done` are typed and have `P`, and nothing else of the program has changed. -/
structure Defined (P : Assignment → Prop) (program : Program) (done : List GlobalSite) (program' : Program) : Prop where
  bare : program'.bare = program.bare
  items : List.Forall₂ (fun item item' => item.Like item' ∧ item.assignments.length = item'.assignments.length)
    program.items program'.items
  typed : ∀ {site a}, site ∈ done → program'.assignmentAt? site = some a → P a
  pending : ∀ {site}, site ∉ done → program'.assignmentAt? site = program.assignmentAt? site

/-- The definitions at the sites in `done` have no gap. -/
def Finished (t : Table) (done : List GlobalSite) (program : Program) : Prop :=
  ∀ site a, site ∈ done → program.assignmentAt? site = some a → (Checks.finished t .outside none none).assignment a

theorem Like.refl (item : Item) : item.Like item := by
  unfold Item.Like
  split
  · trivial
  · simp_all
  · rfl

theorem Like.split {item' : Item} (like : item.Like item') :
    (∃ s s', item = .stmt s ∧ item' = .stmt s' ∧ s.isAssignment ∧ s'.isAssignment) ∨
    item' = item ∧ ∀ s, item = .stmt s → s.isAssignment = false := by
  unfold Item.Like at like
  split at like
  · exact .inl ⟨_, _, rfl, rfl, rfl, rfl⟩
  · exact .inl ⟨_, _, rfl, rfl, rfl, rfl⟩
  next notAssign notAssignAll =>
    subst like
    cases item with
    | stmt s =>
      cases s with
      | assign a => exact (notAssign a a rfl rfl).elim
      | assignAll parts span => exact (notAssignAll parts span parts span rfl rfl).elim
      | _ => simp [Stmt.isAssignment]
    | _ => simp

theorem Like.set {item' : Item} (like : item.Like item') (part : Nat) (a : Assignment) :
    item.Like (item'.setAssignment part a) := by
  unfold Item.Like at like
  split at like
  · cases part <;> trivial
  · exact like
  next notAssign notAssignAll =>
    subst like
    unfold Item.setAssignment
    split
    · exact (notAssign _ _ rfl rfl).elim
    · exact (notAssignAll _ _ _ _ rfl rfl).elim
    · exact Like.refl item

theorem Like.kin {item' item'' : Item} (like : item.Like item') (kin : item'.Kin item'') : item.Kin item'' := by
  rcases Like.split like with ⟨s, s', rfl, rfl, _⟩ | ⟨rfl, _⟩
  · cases item'' with
    | stmt => trivial
    | _ => exact kin.elim
  · exact kin

theorem bare_setAssignment {part : Nat} {a old : Assignment} (found : item.assignments[part]? = some old)
    (same : a.bare = old.bare) : (item.setAssignment part a).bare = item.bare := by
  unfold Item.assignments at found
  split at found
  next here =>
    obtain ⟨rfl, rfl⟩ : part = 0 ∧ here = old := by
      cases part with
      | zero => exact ⟨rfl, by simpa using found⟩
      | succ part => simp at found
    exact congrArg (fun a => Item.stmt (.assign a)) same
  next parts span =>
    refine congrArg (fun parts => Item.stmt (.assignAll parts span)) ?_
    obtain ⟨inside, rfl⟩ := List.getElem?_eq_some_iff.mp found
    rw [List.map_set, same, ← List.getElem_map Assignment.bare (h := by simpa using inside), List.set_getElem_self]
  · simp at found

theorem assignments_setAssignment (item : Item) (part : Nat) (a : Assignment) :
    (item.setAssignment part a).assignments = item.assignments.set part a := by
  cases item with
  | cls _ | function _ => rfl
  | stmt s =>
    cases s with
    | assign old => cases part <;> rfl
    | _ => rfl

theorem assignmentAt_set {program : Program} {site : GlobalSite} {a old : Assignment}
    (found : program.assignmentAt? site = some old) (site' : GlobalSite) :
    (program.setAssignment site a).assignmentAt? site' =
      if site' = site then some a else program.assignmentAt? site' := by
  obtain ⟨i, j⟩ := site
  obtain ⟨i', j'⟩ := site'
  unfold Program.assignmentAt? at found
  obtain ⟨item, here, part⟩ := Option.bind_eq_some_iff.mp found
  simp only [Program.assignmentAt?, Program.setAssignment, List.getElem?_modify, GlobalSite.mk.injEq]
  by_cases sameItem : i = i'
  · subst sameItem
    have bound := (List.getElem?_eq_some_iff.mp part).1
    by_cases samePart : j' = j
    · subst samePart
      simp [here, assignments_setAssignment, bound]
    · simp [here, assignments_setAssignment, samePart, Ne.symm samePart]
  · have elsewhere : ¬(i' = i ∧ j' = j) := fun same => sameItem same.1.symm
    simp [sameItem, elsewhere]

namespace Defined

variable {P : Assignment → Prop} {program program' : Program} {done : List GlobalSite}
variable {site : GlobalSite} {a old : Assignment}

theorem start (program : Program) : Defined P program [] program := by
  refine ⟨rfl, List.forall₂_same.mpr fun item _ => ⟨Like.refl item, rfl⟩, by simp, fun _ => rfl⟩

theorem set (defined : Defined P program done program') (found : program'.assignmentAt? site = some old) (typed : P a)
    (same : a.bare = old.bare) : Defined P program (done ++ [site]) (program'.setAssignment site a) := by
  refine ⟨Eq.trans ?_ defined.bare, ?_, fun {site' a'} inside found' => ?_, fun {site'} outside => ?_⟩
  · refine congrArg Program.mk (List.ext_getElem? fun i => ?_)
    obtain ⟨item, there, part⟩ := Option.bind_eq_some_iff.mp found
    rw [List.getElem?_map, List.getElem?_map, Program.setAssignment, List.getElem?_modify]
    by_cases here : site.item = i
    · subst here
      simp [there, bare_setAssignment part same]
    · simp [here]
  · apply forall₂_modify defined.items
    intro item item' holds
    rw [assignments_setAssignment, List.length_set]
    exact ⟨Like.set holds.1 _ _, holds.2⟩
  · rw [assignmentAt_set found] at found'
    split at found'
    · cases found'
      exact typed
    next elsewhere => exact defined.typed (by simpa [elsewhere] using inside) found'
  · simp only [List.mem_append, List.mem_singleton, not_or] at outside
    rw [assignmentAt_set found, if_neg outside.2]
    exact defined.pending outside.1

end Defined

theorem Finished.set {old : Assignment} (finished : Finished t done program)
    (found : program.assignmentAt? site = some old) (typed : (Checks.finished t .outside none none).assignment a) :
    Finished t (done ++ [site]) (program.setAssignment site a) := by
  intro site' a' inside found'
  rw [assignmentAt_set found] at found'
  split at found'
  · cases found'
    exact typed
  next elsewhere => exact finished site' a' (by simpa [elsewhere] using inside) found'

theorem unset_at (unset : program.All Expr.Unset) (found : program.assignmentAt? site = some a) :
    (Checks.nodes Expr.Unset).assignment a := by
  obtain ⟨item, here, part⟩ := Option.bind_eq_some_iff.mp found
  exact (unset item (List.mem_of_getElem? here)).assignment (List.mem_of_getElem? part)

/-- The one global that an assignment defines, and its place. -/
theorem Defines.global (defines : a.Defines bound t (Expr.Inner bound t.symbols.size) site)
    (declares : id ∈ a.declares) : a.declares = [id] ∧ a.left.declares = some id ∧
      ∃ s v, t.symbol? id = some s ∧ s.kind = .globalVariable v site ∧ v.type = none := by
  obtain ⟨id', defining, one⟩ := defines.declares fun e inner => inner.undeclaring
  have same : id = id' := by simpa [one] using declares
  subst same
  obtain ⟨s, held, core⟩ := defining.symbol
  obtain ⟨info, name, typeName, left, _⟩ := defining.assignee
  refine ⟨one, by rw [left]; rfl, s, ?_⟩
  cases kind : s.kind with
  | globalVariable v site' =>
    rw [kind, SymbolKind.core] at core
    injection core with var same
    subst same
    exact ⟨v, held, rfl, congrArg VariableSymbol.type var⟩
  | _ => simp [kind, SymbolKind.core] at core

/-- Once the definition of a global is typed, those of the others are left. -/
theorem definitions_left {ids : List SymbolId}
    (all : ∀ j ∈ id :: ids, ∃ site a, program.assignmentAt? site = some a ∧ j ∈ a.declares ∧ site ∉ done)
    (found : program.assignmentAt? site = some a) (one : a.declares = [id]) (new : id ∉ ids) :
    ∀ j ∈ ids, ∃ site' a, program.assignmentAt? site' = some a ∧ j ∈ a.declares ∧ site' ∉ done ++ [site] := by
  intro j inside
  obtain ⟨site', b, foundB, declaresB, pendingB⟩ := all j (List.mem_cons_of_mem _ inside)
  refine ⟨site', b, foundB, declaresB, ?_⟩
  simp only [List.mem_append, List.mem_singleton, not_or]
  refine ⟨pendingB, ?_⟩
  rintro rfl
  cases found.symm.trans foundB
  have same : j = id := by simpa [one] using declaresB
  exact new (same ▸ inside)

theorem Expr.Outside.ready {ready : SymbolId → Prop} {e : Expr} (outside : e.All Expr.Outside)
    (reads : ∀ r ∈ e.reads, ready r.1) :
    e.All fun e => ∀ id ∈ e.asks, ready id := by
  refine outside.meet (fun e outside ofVar id inside => ?_) ((Expr.reads_iff (P := fun id _ => ready id) e).mp reads)
  cases e with
  | var info name slot =>
    rw [Expr.asks, Option.mem_toList] at inside
    exact ofVar info name id (congrArg _ inside)
  | this info slot =>
    rw [Expr.asks, show slot = none from outside] at inside
    cases inside
  | superField info name superclass field =>
    rw [Expr.asks, outside.2] at inside
    cases inside
  | assignee | widen => exact outside.elim
  | _ => cases inside

theorem mem_assignments : a ∈ program.assignments ↔ ∃ site, program.assignmentAt? site = some a := by
  rw [Program.assignments, List.mem_flatMap]
  constructor
  · rintro ⟨item, member, inside⟩
    obtain ⟨i, found⟩ := List.getElem?_of_mem member
    obtain ⟨part, here⟩ := List.getElem?_of_mem inside
    exact ⟨⟨i, part⟩, by simp [Program.assignmentAt?, found, here]⟩
  · rintro ⟨⟨i, part⟩, found⟩
    obtain ⟨item, here, inside⟩ := Option.bind_eq_some_iff.mp found
    exact ⟨item, List.mem_of_getElem? here, List.mem_of_getElem? inside⟩

/-- The definition of a global reads none but those that come before it in the order. -/
theorem Grounded.early {order : List SymbolId} (ordered : program.Ordered t order []) (sites : program.Sites bound t) 
    (found : program.assignmentAt? site = some a) (grounded : a.Grounded t order) {before after : List SymbolId}
    (split : order = before ++ id :: after) (declares : id ∈ a.declares) :
    ∀ r ∈ a.reads, r.1 ∈ before ∨ t.HasType r.1 := by
  have defining {site : GlobalSite} {a : Assignment} {id : SymbolId} (found : program.assignmentAt? site = some a)
      (declares : id ∈ a.declares) : a.Defines bound t (Expr.Inner bound t.symbols.size) site :=
    (sites site a found).resolve_left (List.ne_nil_of_mem declares)
  have isGlobal (h : SymbolId) (listed : h ∈ order) : t.IsGlobal h := by
    obtain ⟨a', inside', declares'⟩ := (ordered.defined h).mp listed
    obtain ⟨site', found'⟩ := mem_assignments.mp inside'
    obtain ⟨_, _, s, v, held, kind, _⟩ := Defines.global (defining found' declares') declares'
    exact ⟨s, held, by simp [Symbol.isGlobal, kind, SymbolKind.isGlobal]⟩
  intro r reads
  refine (grounded.reads r reads).imp_left fun listed => ?_
  have mentions := (Binding.mem_reads_definition (defining found declares)).mp reads
  rcases ordered.earlier before id after split r.1 r.2 ⟨a, mem_assignments.mpr ⟨site, found⟩, declares,
    mentions, isGlobal r.1 listed⟩ with ⟨circular, _⟩ | early | out
  · cases circular
  · exact early
  · exact absurd listed out

/-- **Typing the definitions of globals**, each of them once. -/
theorem typeGlobals_goes {order : List SymbolId} {circular : List Span} (intact : t.Intact bound)
    (sites : program.Sites bound t)
    (unset : program.All Expr.Unset) (ordered : program.Ordered t order circular) (names : program.Names t order)
    (acyclic : g.sure → circular = []) :
      ∀ {before ids : List SymbolId} {done : List GlobalSite} {program' : Program} {t' : Table}
      {known : SymbolId → Prop}, order = before ++ ids →
    (∀ id ∈ ids, ∃ site a, program.assignmentAt? site = some a ∧ id ∈ a.declares ∧ site ∉ done) →
    Reached bound t known t' → (∀ id ∈ before, known id) →
    Defined (Checks.judged bound t).assignment program done program' →
    Goes (Unseen bound g) t' (typeGlobals ids done program')
      (fun result t'' => Reached bound t (fun j => known j ∨ j ∈ ids) t'' ∧
        Defined (Checks.judged bound t).assignment program result.1 result.2 ∧
        ∀ site, site ∈ result.1 ↔ site ∈ done ∨ ∃ a, program.assignmentAt? site = some a ∧ ∃ id ∈ ids, id ∈ a.declares)
      fun result _ => (∀ site a, program.assignmentAt? site = some a →
          (Checks.met t (Binding.Context.Inherits .top) .outside).assignment a) →
        Finished t done program' → Finished t result.1 result.2
  | before, [], done, program', t', known, _, _, reached, _, defined => by
    refine .pure ⟨?_, defined, by simp⟩ fun _ finished => finished
    simpa using reached
  | before, id :: ids, done, program', t', known, split, all, reached, isKnown, defined => by
    have new : id ∉ ids := (List.nodup_cons.mp (List.nodup_append.mp (split ▸ ordered.once)).2.1).1
    obtain ⟨site, a, found, declares, pending⟩ := all id List.mem_cons_self
    have defines : a.Defines bound t (Expr.Inner bound t.symbols.size) site := by
      rcases sites site a found with none | defines
      · simp [none] at declares
      · exact defines
    have grounded := names.grounded a (mem_assignments.mpr ⟨site, found⟩) (List.ne_nil_of_mem declares)
    obtain ⟨one, left, s, v, held, kind, untyped⟩ := Defines.global defines declares
    obtain ⟨given, retyped⟩ := reached.retyped
    have held' : t'.symbol? id = some (s.given (given id)) := retyped.symbol held
    have isVar : t.var? id = some v := by
      rw [Table.var_of held, Symbol.var?, kind]
      rfl
    have settles : ∀ r ∈ a.reads, g.Settles t known r.1 := fun r reads sure =>
      (Grounded.early (acyclic sure ▸ ordered) sites found grounded split declares r reads).imp_left (isKnown r.1)
    have isOpen {e : Expr} (placed : e.All (Expr.Placed bound t.symbols.size)) (unset : e.All Expr.Unset)
        (outside : e.All Expr.Outside) (reads : ∀ r ∈ e.reads, r ∈ a.reads) : g.Open bound t known e := by
      have nodes : e.All fun e => e.Placed bound t.symbols.size ∧ e.Unset :=
        placed.meet (fun _ placed unset => ⟨placed, unset⟩) unset
      exact nodes.meet (fun _ both ready => ⟨both.1, both.2, ready⟩) (Expr.Outside.ready outside
        fun r inside => settles r (reads r inside))
    unfold typeGlobals
    refine askSymbol held' (fun _ => by rw [Symbol.given_global (Symbol.given_global kind), Symbol.given_global kind])
      ?_
    rw [Symbol.given_global kind]
    have notDone : done.contains site = false := by simpa using pending
    have found' := (defined.pending pending).trans found
    simp only [notDone, Bool.false_eq_true, if_false, found']
    have placed := Binding.Defines.placed defines
    have unsetHere := unset_at unset found
    have target : Target bound g t known a.left := by
      refine ⟨placed.1, fun undeclaring => ?_, fun id' declares' => ?_⟩
      · cases left.symm.trans undeclaring
      · cases left.symm.trans declares'
        exact ⟨v, isVar, untyped⟩
    have value := isOpen placed.2.2 unsetHere.2.2 grounded.outside.value fun r inside => by
      simp [Assignment.reads, inside]
    have chained : ∀ e ∈ a.chained, g.Open bound t known e ∧ e.declares = none := by
      intro e inside
      refine ⟨isOpen (placed.2.1 e inside) (unsetHere.2.1 e inside) (grounded.outside.chained e inside)
        fun r reads => ?_, (defines.chained e inside).undeclaring⟩
      have among : r ∈ Expr.readsAll a.chained.reverse :=
        Expr.mem_readsAll_iff.mpr ⟨e, List.mem_reverse.mpr inside, Expr.mem_reads_iff.mp reads⟩
      simp [Assignment.reads, among]
    apply (typeAssignment_goes reached (Context.fits_top intact reached) value chained target).bind
    rintro a' t₁ ⟨reached₁, typed⟩
    have next : ∀ j ∈ before ++ [id], known j ∨ a.left.declares = some j := by
      intro j inside
      rcases List.mem_append.mp inside with early | here
      · exact .inl (isKnown j early)
      · exact .inr (List.mem_singleton.mp here ▸ left)
    apply (typeGlobals_goes intact sites unset ordered names acyclic (by simpa using split)
      (definitions_left all found one new) reached₁ next (defined.set found' typed.all typed.same)).mono
    · rintro result t₂ ⟨reached₂, defined₂, members⟩
      refine ⟨reached₂.extend fun j _ known _ => .inl ?_, defined₂, fun site' => ?_⟩
      · rw [left, Option.some.injEq, eq_comm (a := id), or_assoc]
        exact known.imp_right List.mem_cons.mp
      · rw [members, List.mem_append, List.mem_singleton, or_assoc]
        refine or_congr_right ⟨?_, ?_⟩
        · rintro (rfl | ⟨b, foundB, id', inside, declaresB⟩)
          · exact ⟨a, found, id, List.mem_cons_self, declares⟩
          · exact ⟨b, foundB, id', List.mem_cons_of_mem _ inside, declaresB⟩
        · rintro ⟨b, foundB, id', inside, declaresB⟩
          rcases List.mem_cons.mp inside with rfl | inside
          · -- A global has one place.
            rcases sites site' b foundB with none | definesB
            · simp [none] at declaresB
            · obtain ⟨_, _, s', _, heldB, kindB, _⟩ := Defines.global definesB declaresB
              cases held.symm.trans heldB
              cases kind.symm.trans kindB
              exact .inl rfl
          · exact .inr ⟨b, foundB, id', inside, declaresB⟩
    · intro result t₂ _ rest done met finished
      exact rest met (finished.set found' (done (met site a found)))

/-! ## Programs -/

/-- The assignments of an item and their sites. -/
theorem assignmentAt_item {i part : Nat} (here : program.items[i]? = some item) :
    program.assignmentAt? ⟨i, part⟩ = item.assignments[part]? := by
  simp [Program.assignmentAt?, here]

section Items

variable {program program' : Program} {done : List GlobalSite} {i : Nat} {item item' : Item} {first last : Nat}
  (defined : Defined (Checks.judged bound t).assignment program done program')
  (members : ∀ site a, program.assignmentAt? site = some a → (site ∈ done ↔ a.declares ≠ []))
  (here : program.items[i]? = some item) (here' : program'.items[i]? = some item')
  (length : item.assignments.length = item'.assignments.length)
include defined members here here' length

/-- The assignments before and after, at their sites. -/
theorem Defined.assignments {S : Assignment → Assignment × Nat → Prop}
    (isDone : ∀ a a' part, item.assignments[part]? = some a → a.declares ≠ [] → ⟨i, part⟩ ∈ done →
      program'.assignmentAt? ⟨i, part⟩ = some a' → S a (a', part))
    (isPending : ∀ a part, item.assignments[part]? = some a → a.declares = [] → ⟨i, part⟩ ∉ done → S a (a, part)) :
    List.Forall₂ S item.assignments item'.assignments.zipIdx := by
  apply forall₂_indexed length
  intro part a a' found found'
  have before := (assignmentAt_item here).trans found
  have after := (assignmentAt_item here').trans found'
  by_cases inside : ⟨i, part⟩ ∈ done
  · exact isDone a a' part found ((members _ a before).mp inside) inside after
  · have none : a.declares = [] := by
      by_contra declares
      exact inside ((members _ a before).mpr declares)
    rw [defined.pending inside, before] at after
    cases after
    exact isPending a part found none inside

/-- Once the definitions of globals are typed, the items await the rest. -/
theorem Defined.awaits (like : item.Like item') (unset : item.All Expr.Unset)
    (inItem : item.Threads bound t first last) :
    Item.Awaits bound t done first (item', i) last := by
  rcases Like.split like with ⟨s, s', rfl, rfl, isAssignment, isAssignment'⟩ | ⟨rfl, other⟩
  · rw [Item.threads_assignments isAssignment] at inItem
    simp only [Item.Awaits, isAssignment', if_true]
    apply threads_forall₂ _ inItem
    apply defined.assignments members here here' length
    · intro a a' part _ declares inside after first last between
      rw [if_neg declares] at between
      simpa [Assignment.Awaits, inside] using ⟨between, defined.typed inside after⟩
    · intro a part found none outside first last between
      rw [if_pos none] at between
      simpa [Assignment.Awaits, outside] using ⟨between, unset.assignment (List.mem_of_getElem? found)⟩
  · cases item' with
    | cls | function => exact ⟨inItem, unset⟩
    | stmt s =>
      simp only [Item.Awaits, other s rfl, Bool.false_eq_true, if_false]
      exact ⟨(Item.threads_stmt (other s rfl)).mp inItem, unset⟩

theorem Defined.prepared (like : item.Like item') (finished : Finished t done program')
    (whole : item.Whole t inherits) (isBound : item.Bound t waiting) :
    Item.Prepared t inherits waiting done (item', i) := by
  rcases Like.split like with ⟨s, s', rfl, rfl, isAssignment, isAssignment'⟩ | ⟨rfl, other⟩
  · have met := (Stmt.holds_assignments isAssignment).mp (whole.meet Checks.filled_bound isBound)
    have all : List.Forall₂ (fun a x => (Checks.met t (Binding.Context.Inherits .top) .outside).assignment a →
        Assignment.Prepared t done i x) (Item.stmt s).assignments (Item.stmt s').assignments.zipIdx := by
      apply defined.assignments members here here' length
      · intro a a' part _ _ inside after _
        simpa [Assignment.Prepared, inside] using finished _ a' inside after
      · intro a part _ _ outside met
        simpa [Assignment.Prepared, outside] using met
    simp only [Item.Prepared, isAssignment', if_true]
    exact forall_through all met
  · cases item' with
    | cls | function => exact ⟨whole, isBound⟩
    | stmt s =>
      simp only [Item.Prepared, other s rfl, Bool.false_eq_true, if_false]
      exact Stmt.Holds.meet Checks.filled_bound whole isBound

end Items

/-- The assignments of a program without empty slots. -/
theorem Complete.definitions (complete : program.Complete t) (inTurn : boundInTurn t program.items) : ∀ site a,
    program.assignmentAt? site = some a → (Checks.met t (Binding.Context.Inherits .top) .outside).assignment a := by
  rintro ⟨i, part⟩ a found
  obtain ⟨item, here, inside⟩ := Option.bind_eq_some_iff.mp found
  have whole := complete.items item (List.mem_of_getElem? here)
  have isBound := boundInTurn_at inTurn here
  have member := List.mem_of_getElem? inside
  cases item with
  | cls | function => cases member
  | stmt s =>
    cases isAssignment : s.isAssignment with
    | true =>
      exact (Stmt.holds_assignments isAssignment).mp (Stmt.Holds.meet Checks.filled_bound whole isBound) a member
    | false =>
      rw [Stmt.no_assignments isAssignment] at member
      cases member

section Program

variable {program program₁ : Program} {order : List SymbolId} {circular : List Span}
variable {done : List GlobalSite} {first count : Nat}

/-- Each global in the order has its definition. -/
theorem Ordered.definitions (ordered : program.Ordered t order circular) :
    ∀ id ∈ order, ∃ site a, program.assignmentAt? site = some a ∧ id ∈ a.declares ∧ site ∉ ([] : List GlobalSite) := by
  intro id inside
  obtain ⟨a, member, declares⟩ := (ordered.defined id).mp inside
  obtain ⟨site, found⟩ := mem_assignments.mp member
  exact ⟨site, a, found, declares, by simp⟩

/-- Once the globals in the order are defined, the sites of all definitions are done. -/
theorem Ordered.members (ordered : program.Ordered t order circular)
    (members : ∀ site, site ∈ done ↔ site ∈ ([] : List GlobalSite) ∨ ∃ a, program.assignmentAt? site = some a ∧
    ∃ id ∈ order, id ∈ a.declares) :
    ∀ site a, program.assignmentAt? site = some a → (site ∈ done ↔ a.declares ≠ []) := by
  intro site a found
  rw [members]
  constructor
  · rintro (impossible | ⟨b, foundB, id, _, declares⟩)
    · simp at impossible
    · cases found.symm.trans foundB
      exact List.ne_nil_of_mem declares
  · intro declares
    obtain ⟨id, inside⟩ := List.exists_mem_of_ne_nil _ declares
    exact .inr ⟨a, found, id, (ordered.defined id).mpr ⟨a, mem_assignments.mpr ⟨site, found⟩, inside⟩, inside⟩

/-- The globals in the order are the variables up to `count`. -/
theorem Numbered.reached (numbered : program.Numbered bound t order first count)
    (reached : Reached bound t (fun j => j.index < first ∨ j ∈ order) t') : Reached bound t (·.index < count) t' := by
  apply reached.extend
  intro id _ before _
  refine .inl ?_
  by_cases early : id.index < first
  · exact .inl early
  · exact .inr ((numbered.globals id).mpr ⟨Nat.not_lt.mp early, before⟩)

/-- The items before and after the definitions are typed. -/
theorem Defined.pairs {P : Assignment → Prop} (defined : Defined P program done program₁) :
    List.Forall₂ (fun item (x : Item × Nat) => program.items[x.2]? = some item ∧ program₁.items[x.2]? = some x.1 ∧
      item.Like x.1 ∧ item.assignments.length = x.1.assignments.length) program.items program₁.items.zipIdx := by
  apply forall₂_indexed defined.items.length_eq
  intro i item item' here here'
  obtain ⟨item₀, found, holds⟩ := forall₂_get defined.items here'
  cases here.symm.trans found
  exact ⟨here, here', holds⟩

theorem Defined.awaitsAll (defined : Defined (Checks.judged bound t).assignment program done program₁)
    (isDone : ∀ site a, program.assignmentAt? site = some a → (site ∈ done ↔ a.declares ≠ []))
    (unset : program.All Expr.Unset) (numbered : program.Numbered bound t order first count) :
    threads (Item.Awaits bound t done) count program₁.items.zipIdx t.symbols.size := by
  apply threads_forall₂ _ numbered.items
  exact defined.pairs.imp fun item x ⟨here, here', like, length⟩ first last inItem =>
    defined.awaits isDone here here' length like (unset item (List.mem_of_getElem? here)) inItem

/-- What typing leaves of a program, whatever was reported. -/
structure Decorated (bound : Nat) (t : Table) (program program' : Program) : Prop where
  placed : ∀ item ∈ program'.items, item.Placed bound t
  bare : program'.bare = program.bare
  noted : program'.All (Expr.Noted t)
  kin : List.Forall₂ Item.Kin program.items program'.items

/-- **Typing a program.** Every variable has a type afterwards. -/
theorem typeProgram_goes (intact : t.Intact bound) (unset : program.All Expr.Unset)
    (sites : program.Sites bound t) (ordered : program.Ordered t order circular)
    (numbered : program.Numbered bound t order first count)
    (typed : t.Typed 0 first) (names : program.Names t order) (acyclic : g.sure → circular = []) :
      Goes (Unseen bound g) t (typeProgram program order)
      (fun program' t' => Reached bound t (·.index < t.symbols.size) t' ∧ Decorated bound t program program')
      fun program' _ => program.Complete t → boundInTurn t program.items → (∀ item ∈ program'.items, item.Complete t) ∧
      program'.Linked t := by
  have start : Reached bound t (·.index < first) t := .start intact typed names.apart
  unfold typeProgram
  apply (typeGlobals_goes intact sites unset ordered names acyclic (List.nil_append order).symm
    (Ordered.definitions ordered) start (by simp) (.start program)).bind
  rintro ⟨done, program₁⟩ t₁ ⟨reached₁, defined, members⟩
  have isDone := Ordered.members ordered members
  let waiting (i : Nat) (id : SymbolId) := ∃ later ∈ program.items.drop (i + 1), later.Owns id
  have items := mapM_reached (g := g) (f := fun x : Item × Nat => typeItem done x.2 x.1)
    (A := fun x => Worked bound t x.1)
    (B := fun x item => Item.Prepared t (fun id => ∃ d, t.Under id d) (waiting x.2) done x → item.Complete t ∧
    item.Linked t (waiting x.2)) (fun awaits => awaits.le)
    (fun x _ {_ _ _} reached inItem le => typeItem_goes intact reached inItem le)
    (Numbered.reached numbered reached₁) (defined.awaitsAll isDone unset numbered) (Nat.le_refl _)
  apply items.bind
  rintro items' t₂ ⟨reached₃, worked⟩
  have kins : List.Forall₂ Item.Kin program.items items' :=
    forall₂_through (fun _ _ _ pair worked => Like.kin pair.2.2.1 worked.kin) defined.pairs worked
  have bares := dresses_map
    (forall₂_of_zipIdx (R := Item.Dresses (Expr.Noted t)) (worked.imp fun _ _ worked => worked.dressed))
  refine .pure ⟨reached₃, forall_right worked fun _ _ worked => worked.placed, ?_, bares.all, kins⟩
    fun complete finished whole inTurn => ?_
  · rw [← defined.bare]
    exact congrArg Program.mk bares.same
  · have finished := finished (Complete.definitions whole inTurn) (by simp [Finished])
    have prepared : ∀ x ∈ program₁.items.zipIdx,
        Item.Prepared t (fun id => ∃ d, t.Under id d) (waiting x.2) done x := by
      refine forall_right defined.pairs ?_
      rintro item x ⟨here, here', like, length⟩
      exact defined.prepared isDone here here' length like finished (whole.items item (List.mem_of_getElem? here))
        (boundInTurn_at inTurn here)
    have both := (List.forall₂_and_left _ _).mpr ⟨prepared, complete⟩
    refine ⟨forall_right both fun _ _ holds => (holds.2 holds.1).1, fun i item here => ?_⟩
    obtain ⟨x, there, prepared, linked⟩ := forall₂_get both here
    rw [List.getElem?_zipIdx, Option.map_eq_some_iff] at there
    obtain ⟨_, _, rfl⟩ := there
    have linked := (linked prepared).2
    simp only [waiting, Nat.zero_add] at linked
    simpa only [Item.Kin.owners (List.forall₂_drop (i + 1) kins)] using linked

end Program

end Typing

end Quasicode
