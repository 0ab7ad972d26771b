import Quasicode.Binding.Global
import Quasicode.Proofs.DeclarePhase

/-!
Programs whose names are bound. Whatever was reported, the slots of a program hold symbols and scopes that are there. If
nothing was reported, no slot is empty, and a variable that is read was declared before: symbols are numbered as they
are declared, and a statement is bound between two numbers, so the numbers tell which variables there are at any place.
-/
namespace Quasicode

/-! ## Slots and types of a node -/

namespace Expr

/-- The types that are written at a node. -/
def writtenTypes : Expr → List TypeName
  | .classRef _ type _ | .cast _ type _ | .newArray _ type _ | .newObject _ type _ _ | .isType _ _ type _ => [type]
  | .assignee _ _ typeName _ _ => typeName.toList
  | _ => []

/-- The symbols that a node holds. -/
def slots : Expr → List SymbolId
  | .classRef _ _ slot | .this _ slot | .var _ _ slot | .member _ _ _ slot | .newObject _ _ _ slot
  | .assignee _ _ _ slot _ =>
    slot.toList
  | .superField _ _ superclass field => superclass.toList ++ field.toList
  | .call _ _ _ _ (some (.unique id)) => [id]
  | .call _ _ _ _ (some (.byClass methods)) => methods.map (·.2)
  | _ => []

/-- The name of a plain variable on the left of an assignment. -/
def assigned? : Expr → Option Ident
  | .assignee _ name _ _ _ => some name
  | _ => none

/-- A node at a place within the source, over the first `count` symbols. -/
structure Placed (bound count : Nat) (e : Expr) : Prop where
  within : e.span.Within bound
  typed : ∀ ty, e.info.type = some ty → ty.type.Below count
  types : ∀ type ∈ e.writtenTypes, type.Fit bound True
  slots : ∀ id ∈ e.slots, id.index < count

variable {bound count count' : Nat} {e : Expr}

theorem Placed.mono (le : count ≤ count') (placed : e.Placed bound count) : e.Placed bound count' :=
  ⟨placed.within, fun ty same => (placed.typed ty same).mono le, placed.types,
    fun id inside => Nat.lt_of_lt_of_le (placed.slots id inside) le⟩

theorem Placed.type (placed : e.Placed bound count) : e.type.Below count := by
  unfold Expr.type valueTy
  cases known : e.info.type with
  | none => trivial
  | some ty => exact placed.typed ty known

/-- An expression over the first `count` symbols that declares no variable. -/
structure Inner (bound count : Nat) (e : Expr) : Prop where
  all : e.All (Placed bound count)
  undeclaring : e.declares = none

theorem Inner.mono (le : count ≤ count') (inner : e.Inner bound count) : e.Inner bound count' :=
  ⟨inner.all.mono fun _ placed => placed.mono le, inner.undeclaring⟩

theorem Fresh.placed (fresh : e.Fresh bound True) : e.Placed bound count := by
  refine ⟨fresh.info.within, by simp [fresh.info.untyped], ?_, ?_⟩
  · cases e with
    | classRef | newObject | isType => simpa [writtenTypes] using fresh.2.1
    | cast | newArray => simpa [writtenTypes] using fresh.2
    | assignee | widen => exact fresh.elim
    | _ => simp [writtenTypes]
  · cases e with
    | classRef => simp [slots, fresh.2.2.2]
    | this => simp [slots, fresh.2]
    | superField => simp [slots, fresh.2.2.1, fresh.2.2.2]
    | var | member | call => simp [slots, fresh.2.2]
    | newObject => simp [slots, fresh.2.2.2]
    | assignee | widen => exact fresh.elim
    | _ => simp [slots]

theorem FreshTarget.placed (fresh : e.FreshTarget bound True) : e.All (Placed bound count) := by
  unfold FreshTarget at fresh
  split at fresh
  next info name typeName slot first =>
    obtain ⟨info, _, types, noSlot, _⟩ := fresh
    refine ⟨info.within, by simp [Expr.info, info.untyped], ?_, by simp [slots, noSlot]⟩
    intro type inside
    exact types type (by simpa [writtenTypes] using inside)
  next => exact fresh.mono fun _ fresh => fresh.placed

end Expr

/-! ## Statements -/

/-- The parts of statements hold symbols and scopes that are there. -/
def Checks.placed (bound : Nat) (t : Table) : Checks where
  value e := e.All (Expr.Placed bound t.symbols.size)
  assignment a := a.left.All (Expr.Placed bound t.symbols.size) ∧
    (∀ e ∈ a.chained, e.All (Expr.Placed bound t.symbols.size)) ∧ a.value.All (Expr.Placed bound t.symbols.size)
  returned value := ∀ e, value = some e → e.All (Expr.Placed bound t.symbols.size)
  counter name slot := name.span.Within bound ∧ ∀ id, slot = some id → id.index < t.symbols.size
  scope scope := ∀ id, scope = some id → id.index < t.scopes.size
  place span := span.Within bound

theorem Checks.placed_mono {bound : Nat} {t t' : Table} (symbols : t.symbols.size ≤ t'.symbols.size)
    (scopes : t.scopes.size ≤ t'.scopes.size) : (Checks.placed bound t).Implies (.placed bound t') := by
  have more : ∀ e : Expr, e.All (Expr.Placed bound t.symbols.size) → e.All (Expr.Placed bound t'.symbols.size) :=
    fun e all => all.mono fun _ placed => placed.mono symbols
  refine ⟨more, fun a ⟨left, chained, value⟩ => ⟨more _ left, fun e inside => more e (chained e inside), more _ value⟩,
    fun _ returned e same => more e (returned e same), fun _ _ ⟨within, below⟩ => ⟨within, fun id same => ?_⟩,
    fun _ inside id same => ?_, fun _ within => within⟩
  · exact Nat.lt_of_lt_of_le (below id same) symbols
  · exact Nat.lt_of_lt_of_le (inside id same) scopes

/-! ## Declarations -/

/-- A parameter whose slot and default are over the first `count` symbols. -/
structure Param.Placed (bound count : Nat) (p : Param) : Prop where
  symbol : ∀ id, p.symbol = some id → id.index < count
  default : ∀ e, p.default = some e → e.All (Expr.Placed bound count)

/-- A function over symbols that are there; one without a symbol is never looked at. -/
structure Function.Placed (bound : Nat) (t : Table) (f : Function) : Prop where
  params : f.symbol.isSome → ∀ p ∈ f.params, p.Placed bound t.symbols.size
  body : f.symbol.isSome → holdsInAll (.placed bound t) f.body
  endSpan : f.endSpan.Within bound
  symbol : ∀ id, f.symbol = some id → id.index < t.symbols.size

/-- A field whose slot and initializer are over the first `count` symbols. -/
structure Field.Placed (bound count : Nat) (f : Field) : Prop where
  initializer : ∀ e, f.initializer = some e → e.All (Expr.Placed bound count)
  symbol : ∀ id, f.symbol = some id → id.index < count

/-- A class whose members are over symbols that are there; one without a symbol is never looked at. -/
structure Class.Placed (bound : Nat) (t : Table) (c : Class) : Prop where
  symbol : ∀ id, c.symbol = some id → id.index < t.symbols.size
  methods : c.symbol.isSome → ∀ m ∈ c.methods, m.function.Placed bound t
  fields : c.symbol.isSome → ∀ f ∈ c.fields, f.Placed bound t.symbols.size

/-- An item over symbols that are there. -/
def Item.Placed (bound : Nat) (t : Table) : Item → Prop :=
  Item.Are (·.Placed bound t) (·.Placed bound t) (·.Holds (.placed bound t))

theorem Param.Placed.mono {bound count count' : Nat} {p : Param} (le : count ≤ count') (placed : p.Placed bound count) :
    p.Placed bound count' :=
  ⟨fun id same => Nat.lt_of_lt_of_le (placed.symbol id same) le, fun e same => (placed.default e same).mono
    fun _ placed => placed.mono le⟩

theorem Field.Placed.mono {bound count count' : Nat} {f : Field} (le : count ≤ count') (placed : f.Placed bound count) :
    f.Placed bound count' :=
  ⟨fun e same => (placed.initializer e same).mono fun _ placed => placed.mono le,
    fun id same => Nat.lt_of_lt_of_le (placed.symbol id same) le⟩

section Mono

variable {bound : Nat} {t t' : Table} (symbols : t.symbols.size ≤ t'.symbols.size)
variable (scopes : t.scopes.size ≤ t'.scopes.size)
include symbols scopes

theorem Function.Placed.mono {f : Function} (placed : f.Placed bound t) : f.Placed bound t' :=
  ⟨fun known p inside => (placed.params known p inside).mono symbols,
    fun known => holdsInAll_mono (Checks.placed_mono symbols scopes) (placed.body known), placed.endSpan,
    fun id same => Nat.lt_of_lt_of_le (placed.symbol id same) symbols⟩

theorem Class.Placed.mono {c : Class} (placed : c.Placed bound t) : c.Placed bound t' :=
  ⟨fun id same => Nat.lt_of_lt_of_le (placed.symbol id same) symbols,
    fun known m inside => (placed.methods known m inside).mono symbols scopes,
    fun known f inside => (placed.fields known f inside).mono symbols⟩

theorem Item.Placed.mono {item : Item} (placed : item.Placed bound t) : item.Placed bound t' :=
  Item.Are.mono placed (fun _ placed => placed.mono symbols scopes) (fun _ placed => placed.mono symbols scopes)
    fun _ placed => placed.mono (Checks.placed_mono symbols scopes)

end Mono

/-! ## Programs without empty slots -/

/-- A node of which every name was found; a superclass only where `inherits` holds. -/
def Expr.Filled (t : Table) (inherits : Prop) : Expr → Prop
  | .classRef _ _ slot => ∃ id, slot = some id ∧ (t.class? id).isSome
  | .this _ slot | .var _ _ slot => ∃ id, slot = some id ∧ (t.var? id).isSome
  | .superField _ _ superclass slot =>
    inherits ∧ (∃ d, superclass = some d ∧ (t.class? d).isSome) ∧ ∃ id, slot = some id ∧ (t.var? id).isSome
  | .cast _ type _ | .newArray _ type _ | .isType _ _ type _ => ∃ ty, type.resolve t.classes = .ok ty
  | .newObject _ type _ target => target = none ∧ ∃ ty id, type.resolve t.classes = .ok ty ∧ ty.classId? = some id
  | .call _ callee _ _ target => target = none ∧ (callee = .super ∨ callee = .superConstructor → inherits)
  | .assignee _ _ typeName slot first =>
    (∀ type, typeName = some type → ∃ ty, type.resolve t.classes = .ok ty) ∧ first.isSome ∧
    ∃ id, slot = some id ∧ (t.var? id).isSome
  | .widen _ _ => False
  | _ => True

/-- The parts of statements have no empty slots. -/
def Checks.filled (t : Table) (inherits : Prop) : Checks where
  value e := e.All (Expr.Filled t inherits)
  assignment a := a.left.All (Expr.Filled t inherits) ∧ (∀ e ∈ a.chained, e.All (Expr.Filled t inherits)) ∧
    a.value.All (Expr.Filled t inherits)
  returned value := ∀ e, value = some e → e.All (Expr.Filled t inherits)
  counter _ slot := ∃ id, slot = some id ∧ (t.var? id).isSome
  scope scope := scope.isSome
  place _ := True

/-- A parameter with the type that is written for it. -/
structure Param.Filled (t : Table) (inherits : Prop) (p : Param) : Prop where
  symbol : ∃ id v ty, p.symbol = some id ∧ t.var? id = some v ∧ v.type = some ty ∧ TypeName.Means t .any p.typeName ty
  default : ∀ e, p.default = some e → e.All (Expr.Filled t inherits)

structure Function.Filled (t : Table) (inherits : Prop) (owner : Option Binding.MethodOwner) (f : Function) : Prop where
  signed : f.Signed t owner
  scope : f.scope.isSome
  params : ∀ p ∈ f.params, p.Filled t inherits
  body : holdsInAll (.filled t inherits) f.body

structure Field.Filled (t : Table) (inherits : Prop) (f : Field) : Prop where
  signed : f.Signed t
  initializer : ∀ e, f.initializer = some e → e.All (Expr.Filled t inherits)

/-- A class without empty slots; the classes with a superclass are told by `inherits`. -/
structure Class.Filled (t : Table) (inherits : SymbolId → Prop) (c : Class) : Prop where
  symbol : ∃ id, c.symbol = some id ∧ (t.class? id).isSome ∧ (∀ f ∈ c.fields, f.Filled t (inherits id)) ∧
    ∀ m ∈ c.methods, m.function.Filled t (inherits id) (some ⟨id, c.name.name, m⟩)
  scope : c.scope.isSome
  object : ∃ id, c.instanceThis = some id ∧ (t.var? id).isSome
  itself : ∃ id, c.staticThis = some id ∧ (t.var? id).isSome

/-! ## Numbers

Symbols are numbered as they are declared, so a statement is bound between two numbers, those of
the symbols before it and after it. -/

/-- The left of an assignment; where it declares a variable, that is the next symbol. -/
structure Expr.Sets (bound : Nat) (t : Table) (first : Nat) (e : Expr) (last : Nat) : Prop where
  placed : e.All (Expr.Placed bound last)
  next : (e.declares = some ⟨first⟩ ∧ last = first + 1 ∧ ∃ v, t.var? ⟨first⟩ = some v ∧ v.type = none) ∨
    (e.declares = none ∧ last = first)

structure Assignment.Threads (bound : Nat) (t : Table) (first : Nat) (a : Assignment) (last : Nat) : Prop where
  value : a.value.All (Expr.Placed bound first)
  chained : ∀ e ∈ a.chained, e.Inner bound first
  left : a.left.Sets bound t first last

/-- One after the other. -/
def threads {α : Type} (R : Nat → α → Nat → Prop) (first : Nat) : List α → Nat → Prop
  | [], last => last = first
  | x :: xs, last => ∃ middle, R first x middle ∧ threads R middle xs last

mutual

/-- A statement that is bound between the symbols `first` and `last`. -/
def Stmt.Threads (bound : Nat) (t : Table) (first : Nat) : Stmt → Nat → Prop
  | .eval value, last => value.All (Expr.Placed bound first) ∧ last = first
  | .branch condition body elseIfs otherwise _, last =>
    condition.All (Expr.Placed bound first) ∧ ∃ second third, body.Threads bound t first second ∧
      threadsElseIfs bound t second elseIfs third ∧ threadsOtherwise bound t third otherwise last
  | .output values _, last | .input values _, last => (∀ e ∈ values, e.All (Expr.Placed bound first)) ∧ last = first
  | .ret value span, last => (∀ e, value = some e → e.All (Expr.Placed bound first)) ∧ span.Within bound ∧ last = first
  | .count counter slot low high body _, last =>
    low.All (Expr.Placed bound first) ∧ high.All (Expr.Placed bound first) ∧ counter.span.Within bound ∧
      ∃ second, first ≤ second ∧ t.Typed first second ∧ (∀ id, slot = some id → id.index < second) ∧
      body.Threads bound t second last
  | .repeatWhile condition body _, last => condition.All (Expr.Placed bound first) ∧ body.Threads bound t first last
  | .leave span, last | .next span, last => span.Within bound ∧ last = first
  | .exit _, last => last = first
  | .assignAll parts _, last => threads (fun first a last => Assignment.Threads bound t first a last) first parts last
  | .assign part, last => part.Threads bound t first last

def threadsAll (bound : Nat) (t : Table) (first : Nat) : List Stmt → Nat → Prop
  | [], last => last = first
  | s :: ss, last => ∃ middle, s.Threads bound t first middle ∧ threadsAll bound t middle ss last

def Block.Threads (bound : Nat) (t : Table) (first : Nat) : Block → Nat → Prop
  | ⟨stmts, scope, _⟩, last => (∀ id, scope = some id → id.index < t.scopes.size) ∧ threadsAll bound t first stmts last

def ElseIf.Threads (bound : Nat) (t : Table) (first : Nat) : ElseIf → Nat → Prop
  | ⟨condition, block⟩, last => condition.All (Expr.Placed bound first) ∧ block.Threads bound t first last

def threadsElseIfs (bound : Nat) (t : Table) (first : Nat) : List ElseIf → Nat → Prop
  | [], last => last = first
  | e :: es, last => ∃ middle, e.Threads bound t first middle ∧ threadsElseIfs bound t middle es last

def threadsOtherwise (bound : Nat) (t : Table) (first : Nat) : Option Block → Nat → Prop
  | none, last => last = first
  | some block, last => block.Threads bound t first last

end

/-- A function between two numbers: its parameters come first. One without a symbol is never looked at. -/
structure Function.Threads (bound : Nat) (t : Table) (first : Nat) (f : Function) (last : Nat) : Prop where
  endSpan : f.endSpan.Within bound
  unknown : f.symbol = none → last = first
  known : ∀ id, f.symbol = some id → ∃ s scope middle, t.symbol? id = some s ∧
    s.function?.isSome ∧ f.scope = some scope ∧ scope.index < t.scopes.size ∧ first ≤ middle ∧ t.Typed first middle ∧
    (∀ p ∈ f.params, p.Placed bound middle) ∧ (∀ p ∈ f.params, ∀ id, p.symbol = some id → first ≤ id.index) ∧
    threadsAll bound t middle f.body last

/-- A class between two numbers: the symbols for the object and for the class come first, and then its methods. One
without a symbol is never looked at. -/
structure Class.Threads (bound : Nat) (t : Table) (first : Nat) (c : Class) (last : Nat) : Prop where
  unknown : c.symbol = none → last = first
  known : ∀ id, c.symbol = some id → ∃ scope middle, id.index < t.symbols.size ∧ c.scope = some scope ∧
    scope.index < t.scopes.size ∧ first ≤ middle ∧ t.Typed first middle ∧
    (∀ f ∈ c.fields, f.Placed bound middle) ∧
    threads (fun first (m : Method) last => m.function.Threads bound t first last) middle c.methods last

end Quasicode
