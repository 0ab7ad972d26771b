import Quasicode.Proofs.FreshProgram

/-!
Programs without what an analysis adds to them. The bare form of a program has empty slots, no
types, and no `widen` nodes; a program as it is read is its own bare form. What is asked of
every node of a program is put together from its parts.
-/
namespace Quasicode

/-! ## Bare expressions and statements -/

/-- What a node carries when it is read. -/
def NodeInfo.bare (info : NodeInfo) : NodeInfo := { span := info.span }

mutual

/-- An expression without conversions, types, symbols and targets. -/
def Expr.bare : Expr → Expr
  | .widen _ e => e.bare
  | .group info e => .group info.bare e.bare
  | .literal info value => .literal info.bare value
  | .arrayLiteral info es => .arrayLiteral info.bare (bareAll es)
  | .classRef info type _ => .classRef info.bare type none
  | .this info _ => .this info.bare none
  | .superField info property _ _ => .superField info.bare property none none
  | .var info name _ => .var info.bare name none
  | .subscript info a b => .subscript info.bare a.bare b.bare
  | .call info callee name es _ => .call info.bare callee.bare name (bareAll es) none
  | .member info e property _ => .member info.bare e.bare property none
  | .unary info op e => .unary info.bare op e.bare
  | .cast info type e => .cast info.bare type e.bare
  | .newArray info type es => .newArray info.bare type (bareAll es)
  | .newObject info type es _ => .newObject info.bare type (bareAll es) none
  | .binary info a op b => .binary info.bare a.bare op b.bare
  | .logical info a op b => .logical info.bare a.bare op b.bare
  | .assignee info name typeName _ _ => .assignee info.bare name typeName none none
  | .isType info e type _ => .isType info.bare e.bare type none

def bareAll : List Expr → List Expr
  | [] => []
  | e :: es => e.bare :: bareAll es

def Callee.bare : Callee → Callee
  | .object receiver => .object receiver.bare
  | .free => .free
  | .super => .super
  | .superConstructor => .superConstructor

end

theorem bareAll_eq (es : List Expr) : bareAll es = es.map Expr.bare := by
  induction es with
  | nil => rfl
  | cons e es ih => rw [bareAll, ih, List.map_cons]

mutual

/-- What follows for a node from its bare form holds throughout an expression if the bare
expression gives it throughout. -/
theorem Expr.all_of_bare {P Q : Expr → Prop} (step : ∀ e : Expr, P e.bare → Q e) : ∀ {e : Expr}, e.bare.All P → e.All Q
  | .widen _ e, all => ⟨step _ (show P e.bare from all.here), Expr.all_of_bare step all⟩
  | .literal _ _, all => step _ all
  | .classRef _ _ _, all => step _ all
  | .this _ _, all => step _ all
  | .superField _ _ _ _, all => step _ all
  | .var _ _ _, all => step _ all
  | .assignee _ _ _ _ _, all => step _ all
  | .group _ _, all => ⟨step _ all.1, Expr.all_of_bare step all.2⟩
  | .member _ _ _ _, all => ⟨step _ all.1, Expr.all_of_bare step all.2⟩
  | .unary _ _ _, all => ⟨step _ all.1, Expr.all_of_bare step all.2⟩
  | .cast _ _ _, all => ⟨step _ all.1, Expr.all_of_bare step all.2⟩
  | .isType _ _ _ _, all => ⟨step _ all.1, Expr.all_of_bare step all.2⟩
  | .arrayLiteral _ _, all => ⟨step _ all.1, allOf_of_bare step all.2⟩
  | .newArray _ _ _, all => ⟨step _ all.1, allOf_of_bare step all.2⟩
  | .newObject _ _ _ _, all => ⟨step _ all.1, allOf_of_bare step all.2⟩
  | .subscript _ _ _, all => ⟨step _ all.1, Expr.all_of_bare step all.2.1, Expr.all_of_bare step all.2.2⟩
  | .binary _ _ _ _, all => ⟨step _ all.1, Expr.all_of_bare step all.2.1, Expr.all_of_bare step all.2.2⟩
  | .logical _ _ _ _, all => ⟨step _ all.1, Expr.all_of_bare step all.2.1, Expr.all_of_bare step all.2.2⟩
  | .call _ _ _ _ _, all => ⟨step _ all.1, Callee.all_of_bare step all.2.1, allOf_of_bare step all.2.2⟩

theorem allOf_of_bare {P Q : Expr → Prop} (step : ∀ e : Expr, P e.bare → Q e) :
    ∀ {es : List Expr}, allOf P (bareAll es) → allOf Q es
  | [], _ => trivial
  | _ :: _, all => ⟨Expr.all_of_bare step all.1, allOf_of_bare step all.2⟩

theorem Callee.all_of_bare {P Q : Expr → Prop} (step : ∀ e : Expr, P e.bare → Q e) :
    ∀ {callee : Callee}, callee.bare.All P → callee.All Q
  | .object _, all => Expr.all_of_bare step all
  | .free, _ | .super, _ | .superConstructor, _ => trivial

end

/-- A type is not part of the bare form. -/
def Assignment.bare (a : Assignment) : Assignment :=
  { a with left := a.left.bare, chained := a.chained.map Expr.bare, value := a.value.bare }

mutual

def Stmt.bare : Stmt → Stmt
  | .eval value => .eval value.bare
  | .branch condition body elseIfs otherwise span =>
    .branch condition.bare body.bare (bareElseIfs elseIfs) (bareOtherwise otherwise) span
  | .output values span => .output (values.map Expr.bare) span
  | .input targets span => .input (targets.map Expr.bare) span
  | .ret value span => .ret (value.map Expr.bare) span
  | .count counter _ first last body span => .count counter none first.bare last.bare body.bare span
  | .repeatWhile condition body span => .repeatWhile condition.bare body.bare span
  | .leave span => .leave span
  | .next span => .next span
  | .exit span => .exit span
  | .assignAll parts span => .assignAll (parts.map Assignment.bare) span
  | .assign part => .assign part.bare

def bareStmts : List Stmt → List Stmt
  | [] => []
  | s :: ss => s.bare :: bareStmts ss

def Block.bare : Block → Block
  | ⟨stmts, _, span⟩ => ⟨bareStmts stmts, none, span⟩

def ElseIf.bare : ElseIf → ElseIf
  | ⟨condition, block⟩ => ⟨condition.bare, block.bare⟩

def bareElseIfs : List ElseIf → List ElseIf
  | [] => []
  | e :: es => e.bare :: bareElseIfs es

def bareOtherwise : Option Block → Option Block
  | none => none
  | some block => some block.bare

end

/-! ## Bare declarations -/

def Param.bare (p : Param) : Param := { p with default := p.default.map Expr.bare, symbol := none }

def Function.bare (f : Function) : Function :=
  { f with
    params := f.params.map Param.bare, body := bareStmts f.body
    symbol := none, overloads := none, scope := none }

def Method.bare (m : Method) : Method := { m with function := m.function.bare }

def Field.bare (f : Field) : Field := { f with initializer := f.initializer.map Expr.bare, symbol := none }

def Class.bare (c : Class) : Class :=
  { c with
    methods := c.methods.map Method.bare
    fields := c.fields.map Field.bare
    symbol := none
    instanceThis := none
    staticThis := none
    scope := none }

def Item.bare : Item → Item
  | .cls c => .cls c.bare
  | .function f => .function f.bare
  | .stmt s => .stmt s.bare

/-- A program as it was read. -/
def Program.bare (program : Program) : Program := ⟨program.items.map Item.bare⟩

/-! ## Every node of a program -/

/-- All nodes of the parts of a statement have the property `P`. -/
def Checks.nodes (P : Expr → Prop) : Checks where
  value e := e.All P
  assignment a := a.left.All P ∧ (∀ e ∈ a.chained, e.All P) ∧ a.value.All P
  returned value := ∀ e, value = some e → e.All P
  counter _ _ := True
  scope _ := True
  place _ := True

def Function.All (P : Expr → Prop) (f : Function) : Prop :=
  (∀ p ∈ f.params, ∀ e, p.default = some e → e.All P) ∧ holdsInAll (.nodes P) f.body

def Class.All (P : Expr → Prop) (c : Class) : Prop :=
  (∀ f ∈ c.fields, ∀ e, f.initializer = some e → e.All P) ∧ ∀ m ∈ c.methods, m.function.All P

def Item.All (P : Expr → Prop) : Item → Prop
  | .cls c => c.All P
  | .function f => f.All P
  | .stmt s => s.Holds (.nodes P)

/-- All nodes of a program, at any depth, have the property `P`. -/
def Program.All (P : Expr → Prop) (program : Program) : Prop := ∀ item ∈ program.items, item.All P

theorem assignment_calls {P : Expr → Prop} {a : Assignment} (all : (Checks.nodes P).assignment a) :
    ∀ call ∈ a.calls, P call := by
  simp only [Assignment.calls, List.forall_mem_append, forall_callsOfAll]
  exact ⟨⟨all.1.calls, fun e inside => (all.2.1 e inside).calls⟩, all.2.2.calls⟩

mutual

/-- The calls of a statement are among its nodes. -/
theorem Stmt.Holds.calls {P : Expr → Prop} : ∀ {s : Stmt}, s.Holds (.nodes P) → ∀ call ∈ s.calls, P call
  | .eval _, all => Expr.All.calls all
  | .branch _ _ _ _ _, ⟨condition, body, elseIfs, otherwise⟩ => by
    simp only [Stmt.calls, List.forall_mem_append]
    exact ⟨⟨⟨condition.calls, Block.Holds.calls body⟩, holdsInElseIfs_calls elseIfs⟩, holdsInOtherwise_calls otherwise⟩
  | .output _ _, all | .input _ _, all => forall_callsOfAll.mpr fun e inside => (all e inside).calls
  | .ret _ _, all => forall_callsOfOption.mpr fun e same => (all.1 e same).calls
  | .count _ _ _ _ _ _, ⟨first, last, _, body⟩ => by
    simp only [Stmt.calls, List.forall_mem_append]
    exact ⟨⟨first.calls, last.calls⟩, Block.Holds.calls body⟩
  | .repeatWhile _ _ _, ⟨condition, body⟩ => List.forall_mem_append.mpr ⟨condition.calls, Block.Holds.calls body⟩
  | .leave _, _ | .next _, _ | .exit _, _ => by simp [Stmt.calls]
  | .assignAll _ _, all => forall_flatMap.mpr fun a inside => assignment_calls (all a inside)
  | .assign _, all => assignment_calls all

theorem holdsInAll_calls {P : Expr → Prop} : ∀ {ss : List Stmt}, holdsInAll (.nodes P) ss →
    ∀ call ∈ callsOfStmts ss, P call
  | [], _ => by simp [callsOfStmts]
  | _ :: _, all => List.forall_mem_append.mpr ⟨Stmt.Holds.calls all.1, holdsInAll_calls all.2⟩

theorem Block.Holds.calls {P : Expr → Prop} : ∀ {block : Block}, block.Holds (.nodes P) → ∀ call ∈ block.calls, P call
  | ⟨_, _, _⟩, all => holdsInAll_calls all.2

theorem ElseIf.Holds.calls {P : Expr → Prop} : ∀ {elseIf : ElseIf}, elseIf.Holds (.nodes P) →
    ∀ call ∈ elseIf.calls, P call
  | ⟨_, _⟩, all => List.forall_mem_append.mpr ⟨all.1.calls, Block.Holds.calls all.2⟩

theorem holdsInElseIfs_calls {P : Expr → Prop} : ∀ {es : List ElseIf}, holdsInElseIfs (.nodes P) es →
    ∀ call ∈ callsOfElseIfs es, P call
  | [], _ => by simp [callsOfElseIfs]
  | _ :: _, all => List.forall_mem_append.mpr ⟨ElseIf.Holds.calls all.1, holdsInElseIfs_calls all.2⟩

theorem holdsInOtherwise_calls {P : Expr → Prop} : ∀ {otherwise : Option Block},
    holdsInOtherwise (.nodes P) otherwise → ∀ call ∈ callsOfOtherwise otherwise, P call
  | none, _ => by simp [callsOfOtherwise]
  | some _, all => Block.Holds.calls all

end

theorem Function.All.calls {P : Expr → Prop} {f : Function} (all : f.All P) : ∀ call ∈ f.calls, P call := by
  refine List.forall_mem_append.mpr ⟨forall_flatMap.mpr fun p inside => ?_, holdsInAll_calls all.2⟩
  exact forall_callsOfOption.mpr fun e same => (all.1 p inside e same).calls

theorem Item.All.calls {P : Expr → Prop} {item : Item} (all : item.All P) : ∀ call ∈ item.calls, P call := by
  cases item with
  | cls c =>
    refine List.forall_mem_append.mpr ⟨forall_flatMap.mpr fun f inside => ?_, forall_flatMap.mpr
      fun m inside => (all.2 m inside).calls⟩
    exact forall_callsOfOption.mpr fun e same => (all.1 f inside e same).calls
  | function f => exact Function.All.calls all
  | stmt s => exact Stmt.Holds.calls all

/-- The calls of a program are among its nodes. -/
theorem Program.All.calls {P : Expr → Prop} {program : Program} (all : program.All P) :
    ∀ call ∈ program.calls, P call :=
  forall_flatMap.mpr fun item inside => (all item inside).calls

theorem Checks.nodes_meet {P Q R : Expr → Prop} (implies : ∀ e, P e → Q e → R e) :
    (Checks.nodes P).Meets (.nodes Q) (.nodes R) where
  value _ all all' := all.meet implies all'
  assignment _ all all' :=
    ⟨all.1.meet implies all'.1, fun e inside => (all.2.1 e inside).meet implies (all'.2.1 e inside),
      all.2.2.meet implies all'.2.2⟩
  returned _ all all' e same := (all e same).meet implies (all' e same)
  counter _ _ _ _ := trivial
  scope _ _ _ := trivial
  place _ _ _ := trivial

section Mono

variable {P Q : Expr → Prop} (implies : ∀ e, P e → Q e)
include implies

theorem Checks.nodes_mono : (Checks.nodes P).Implies (.nodes Q) := by
  refine ⟨fun e all => all.mono implies, ?_, fun _ all e same => (all e same).mono implies, fun _ _ => id,
    fun _ => id, fun _ => id⟩
  intro a all
  exact ⟨all.1.mono implies, fun e inside => (all.2.1 e inside).mono implies, all.2.2.mono implies⟩

theorem Function.All.mono {f : Function} (all : f.All P) : f.All Q :=
  ⟨fun p inside e same => (all.1 p inside e same).mono implies, holdsInAll_mono (Checks.nodes_mono implies) all.2⟩

theorem Item.All.mono {item : Item} (all : item.All P) : item.All Q := by
  cases item with
  | cls c =>
    refine ⟨fun f inside e same => (all.1 f inside e same).mono implies, fun m inside => (all.2 m inside).mono implies⟩
  | function f => exact Function.All.mono implies all
  | stmt s => exact Stmt.Holds.mono (Checks.nodes_mono implies) all

end Mono

/-! ## What has become of a program -/

/-- What `x` has become: its bare form is the same, and it is as asked. -/
structure Dresses {α : Type} (bare : α → α) (All : α → Prop) (x x' : α) : Prop where
  same : bare x' = bare x
  all : All x'

abbrev Expr.Dresses (P : Expr → Prop) := Quasicode.Dresses Expr.bare (Expr.All P)

abbrev DressesAll (P : Expr → Prop) := Dresses bareAll (allOf P)

abbrev Callee.Dresses (P : Expr → Prop) := Quasicode.Dresses Callee.bare (Callee.All P)

abbrev Assignment.Dresses (c : Checks) := Quasicode.Dresses Assignment.bare c.assignment

abbrev Stmt.Dresses (c : Checks) := Quasicode.Dresses Stmt.bare (Stmt.Holds c)

abbrev DressesStmts (c : Checks) := Dresses bareStmts (holdsInAll c)

abbrev Block.Dresses (c : Checks) := Quasicode.Dresses Block.bare (Block.Holds c)

abbrev ElseIf.Dresses (c : Checks) := Quasicode.Dresses ElseIf.bare (ElseIf.Holds c)

abbrev DressesElseIfs (c : Checks) := Dresses bareElseIfs (holdsInElseIfs c)

abbrev DressesOtherwise (c : Checks) := Dresses bareOtherwise (holdsInOtherwise c)

abbrev DressesOption (c : Checks) := Dresses (Option.map Expr.bare) c.returned

abbrev Function.Dresses (P : Expr → Prop) := Quasicode.Dresses Function.bare (Function.All P)

abbrev Class.Dresses (P : Expr → Prop) := Quasicode.Dresses Class.bare (Class.All P)

abbrev Item.Dresses (P : Expr → Prop) := Quasicode.Dresses Item.bare (Item.All P)

section Dresses

variable {P : Expr → Prop} {es : List Expr}

theorem allOf_reverse : allOf P es.reverse ↔ allOf P es := by
  simp only [allOf_iff, List.mem_reverse]

theorem bareAll_reverse (es : List Expr) : bareAll es.reverse = (bareAll es).reverse := by
  simp only [bareAll_eq, List.map_reverse]

/-- The targets of an assignment in the order in which they are written. -/
theorem DressesAll.reverse {es' : List Expr} (dresses : DressesAll P es.reverse es') : DressesAll P es es'.reverse := by
  refine ⟨?_, allOf_reverse.mpr dresses.all⟩
  rw [bareAll_reverse, dresses.same, bareAll_reverse, List.reverse_reverse]

theorem Assignment.dresses {a : Assignment} {left value : Expr} {chained : List Expr}
    (first : a.left.Dresses P left) (middle : DressesAll P a.chained chained) (last : a.value.Dresses P value) :
    a.Dresses (.nodes P) { a with left, chained, value } := by
  refine ⟨?_, first.all, allOf_iff.mp middle.all, last.all⟩
  simp only [Assignment.bare, first.same, last.same, ← bareAll_eq, middle.same]

end Dresses

/-! ## Programs as they are read -/

/-- A node as it is before typing: no conversion, and nothing is chosen yet. -/
def Expr.Unset : Expr → Prop
  | .widen _ _ => False
  | .call _ _ _ _ target => target = none
  | .member _ _ _ field => field = none
  | .newObject _ _ _ target => target = none
  | _ => True

section Fresh

variable {bound : Nat} {plain : Prop}
variable {e : Expr} {f : Function} {item : Item}

theorem NodeInfo.Fresh.bare {info : NodeInfo} (fresh : info.Fresh bound) : info.bare = info := by
  obtain ⟨span, type⟩ := info
  obtain rfl : type = none := fresh.untyped
  rfl

theorem Expr.Fresh.unset (fresh : e.Fresh bound plain) : e.Unset := by
  cases e with
  | widen => exact fresh
  | call | member => exact fresh.2.2
  | newObject => exact fresh.2.2.2
  | _ => trivial

mutual

/-- An expression as it is read is bare. -/
theorem Expr.All.bare : ∀ {e : Expr}, e.All (Expr.Fresh bound plain) → e.bare = e
  | .widen _ _, fresh => fresh.1.elim
  | .assignee _ _ _ _ _, fresh => False.elim fresh
  | .literal info _, fresh => by rw [Expr.bare, NodeInfo.Fresh.bare fresh]
  | .classRef info type slot, fresh => by
    obtain ⟨info, _, _, rfl⟩ := fresh
    rw [Expr.bare, info.bare]
  | .this info slot, fresh => by
    obtain ⟨info, rfl⟩ := fresh
    rw [Expr.bare, info.bare]
  | .superField info property superclass field, fresh => by
    obtain ⟨info, _, rfl, rfl⟩ := fresh
    rw [Expr.bare, info.bare]
  | .var info name slot, fresh => by
    obtain ⟨info, _, rfl⟩ := fresh
    rw [Expr.bare, info.bare]
  | .group info e, fresh => by rw [Expr.bare, NodeInfo.Fresh.bare fresh.1, Expr.All.bare fresh.2]
  | .unary info op e, fresh => by rw [Expr.bare, NodeInfo.Fresh.bare fresh.1, Expr.All.bare fresh.2]
  | .cast info type e, fresh => by rw [Expr.bare, fresh.1.1.bare, Expr.All.bare fresh.2]
  | .member info e property field, fresh => by
    obtain ⟨⟨info, _, rfl⟩, inner⟩ := fresh
    rw [Expr.bare, info.bare, Expr.All.bare inner]
  | .isType info e type tested, fresh => by
    obtain ⟨⟨info, _, rfl⟩, inner⟩ := fresh
    rw [Expr.bare, info.bare, Expr.All.bare inner]
  | .arrayLiteral info es, fresh => by rw [Expr.bare, NodeInfo.Fresh.bare fresh.1, bareAll_fresh fresh.2]
  | .newArray info type es, fresh => by rw [Expr.bare, fresh.1.1.bare, bareAll_fresh fresh.2]
  | .newObject info type es target, fresh => by
    obtain ⟨⟨info, _, _, rfl⟩, inner⟩ := fresh
    rw [Expr.bare, info.bare, bareAll_fresh inner]
  | .subscript info a b, fresh => by
    rw [Expr.bare, NodeInfo.Fresh.bare fresh.1, Expr.All.bare fresh.2.1, Expr.All.bare fresh.2.2]
  | .binary info a op b, fresh => by
    rw [Expr.bare, NodeInfo.Fresh.bare fresh.1, Expr.All.bare fresh.2.1, Expr.All.bare fresh.2.2]
  | .logical info a op b, fresh => by
    rw [Expr.bare, NodeInfo.Fresh.bare fresh.1, Expr.All.bare fresh.2.1, Expr.All.bare fresh.2.2]
  | .call info callee name es target, fresh => by
    obtain ⟨⟨info, _, rfl⟩, receiver, inner⟩ := fresh
    rw [Expr.bare, info.bare, Callee.bare_fresh receiver, bareAll_fresh inner]

theorem bareAll_fresh : ∀ {es : List Expr}, allOf (Expr.Fresh bound plain) es → bareAll es = es
  | [], _ => rfl
  | e :: es, fresh => by rw [bareAll, Expr.All.bare fresh.1, bareAll_fresh fresh.2]

theorem Callee.bare_fresh : ∀ {callee : Callee}, callee.All (Expr.Fresh bound plain) → callee.bare = callee
  | .object receiver, fresh => by rw [Callee.bare, Expr.All.bare fresh]
  | .free, _ | .super, _ | .superConstructor, _ => rfl

end

theorem Expr.FreshTarget.bare (fresh : e.FreshTarget bound plain) : e.bare = e := by
  unfold Expr.FreshTarget at fresh
  split at fresh
  · obtain ⟨info, _, _, rfl, rfl⟩ := fresh
    rw [Expr.bare, info.bare]
  · exact fresh.bare

theorem Expr.FreshTarget.unset (fresh : e.FreshTarget bound plain) : e.All Expr.Unset := by
  unfold Expr.FreshTarget at fresh
  split at fresh
  · trivial
  · exact fresh.mono fun _ fresh => fresh.unset

/-- A list is its own bare form if its elements are. -/
theorem map_bare {α : Type} {bare : α → α} {xs : List α} (each : ∀ x ∈ xs, bare x = x) : xs.map bare = xs := by
  rw [List.map_congr_left each, List.map_id']

theorem option_bare {value : Option Expr} (fresh : ∀ e, value = some e → e.All (Expr.Fresh bound plain)) :
    value.map Expr.bare = value := by
  cases value with
  | none => rfl
  | some e => rw [Option.map_some, (fresh e rfl).bare]

theorem Assignment.Fresh.bare {a : Assignment} (fresh : a.Fresh bound plain) : a.bare = a := by
  rw [Assignment.bare, fresh.left.bare, map_bare fun e inside => (fresh.chained e inside).bare, fresh.value.bare]

mutual

/-- A statement as it is read is bare. -/
theorem Stmt.Holds.bare : ∀ {s : Stmt}, s.Holds (.fresh bound plain) → s.bare = s
  | .eval value, fresh => by rw [Stmt.bare, Expr.All.bare fresh]
  | .branch condition body elseIfs otherwise span, fresh => by
    rw [Stmt.bare, Expr.All.bare fresh.1, Block.Holds.bare fresh.2.1, bareElseIfs_fresh fresh.2.2.1,
      bareOtherwise_fresh fresh.2.2.2]
  | .output values span, fresh => by rw [Stmt.bare, map_bare fun e inside => Expr.All.bare (fresh e inside)]
  | .input targets span, fresh => by rw [Stmt.bare, map_bare fun e inside => Expr.All.bare (fresh e inside)]
  | .ret value span, fresh => by rw [Stmt.bare, option_bare fresh.1]
  | .count counter slot first last body span, fresh => by
    obtain ⟨low, high, ⟨_, rfl⟩, inner⟩ := fresh
    rw [Stmt.bare, Expr.All.bare low, Expr.All.bare high, Block.Holds.bare inner]
  | .repeatWhile condition body span, fresh => by rw [Stmt.bare, Expr.All.bare fresh.1, Block.Holds.bare fresh.2]
  | .leave _, _ | .next _, _ | .exit _, _ => rfl
  | .assignAll parts span, fresh => by rw [Stmt.bare, map_bare fun a inside => Assignment.Fresh.bare (fresh a inside)]
  | .assign part, fresh => by rw [Stmt.bare, Assignment.Fresh.bare fresh]

theorem bareStmts_fresh : ∀ {ss : List Stmt}, holdsInAll (.fresh bound plain) ss → bareStmts ss = ss
  | [], _ => rfl
  | s :: ss, fresh => by rw [bareStmts, Stmt.Holds.bare fresh.1, bareStmts_fresh fresh.2]

theorem Block.Holds.bare : ∀ {block : Block}, block.Holds (.fresh bound plain) → block.bare = block
  | ⟨stmts, scope, span⟩, fresh => by
    obtain ⟨rfl, inner⟩ := fresh
    rw [Block.bare, bareStmts_fresh inner]

theorem ElseIf.Holds.bare : ∀ {elseIf : ElseIf}, elseIf.Holds (.fresh bound plain) → elseIf.bare = elseIf
  | ⟨condition, block⟩, fresh => by rw [ElseIf.bare, Expr.All.bare fresh.1, Block.Holds.bare fresh.2]

theorem bareElseIfs_fresh : ∀ {es : List ElseIf}, holdsInElseIfs (.fresh bound plain) es → bareElseIfs es = es
  | [], _ => rfl
  | e :: es, fresh => by rw [bareElseIfs, ElseIf.Holds.bare fresh.1, bareElseIfs_fresh fresh.2]

theorem bareOtherwise_fresh : ∀ {otherwise : Option Block}, holdsInOtherwise (.fresh bound plain) otherwise →
    bareOtherwise otherwise = otherwise
  | none, _ => rfl
  | some block, fresh => by rw [bareOtherwise, Block.Holds.bare fresh]

end

theorem Param.Fresh.bare {p : Param} (fresh : p.Fresh bound plain) : p.bare = p := by
  obtain ⟨name, typeName, default, symbol⟩ := p
  obtain rfl : symbol = none := fresh.unset
  rw [Param.bare, option_bare fresh.default]

theorem Function.Fresh.bare (fresh : f.Fresh bound plain) : f.bare = f := by
  have params := map_bare fun p inside => (fresh.params p inside).bare
  have body := bareStmts_fresh fresh.body
  have unset := fresh.unset
  have unplaced := fresh.unplaced
  have ungrouped := fresh.ungrouped
  cases f
  simp only at unset unplaced ungrouped
  subst unset unplaced ungrouped
  rw [Function.bare, params, body]

theorem Field.Fresh.bare {f : Field} (fresh : f.Fresh bound plain) : f.bare = f := by
  have initializer := option_bare fresh.initializer
  have unset := fresh.unset
  cases f
  simp only at unset
  subst unset
  rw [Field.bare, initializer]

theorem Class.Fresh.bare {c : Class} (fresh : c.Fresh bound) : c.bare = c := by
  have methods : c.methods.map Method.bare = c.methods := by
    refine map_bare fun m inside => ?_
    rw [Method.bare, (fresh.methods m inside).function.bare]
  have fields := map_bare fun f inside => (fresh.fields f inside).bare
  have unset := fresh.unset
  have unplaced := fresh.unplaced
  obtain ⟨object, own⟩ := fresh.objectless
  cases c
  simp only at object own unset unplaced
  subst object own unset unplaced
  rw [Class.bare, methods, fields]

/-- An item as it is read is bare. -/
theorem Item.Fresh.bare (fresh : item.Fresh bound) : item.bare = item := by
  cases item with
  | cls c => rw [Item.bare, Class.Fresh.bare fresh]
  | function f => rw [Item.bare, Function.Fresh.bare fresh]
  | stmt s => rw [Item.bare, Stmt.Holds.bare fresh]

/-! Nothing that is read is set. -/

theorem Checks.fresh_unset : (Checks.fresh bound plain).Implies (.nodes Expr.Unset) := by
  have plainly {e : Expr} (fresh : e.All (Expr.Fresh bound plain)) : e.All Expr.Unset :=
    fresh.mono fun _ fresh => fresh.unset
  refine ⟨fun _ => plainly, ?_, fun _ fresh e same => plainly (fresh e same), fun _ _ _ => trivial,
    fun _ _ => trivial, fun _ _ => trivial⟩
  intro a fresh
  exact ⟨fresh.left.unset, fun e inside => plainly (fresh.chained e inside), plainly fresh.value⟩

theorem Function.Fresh.all_unset (fresh : f.Fresh bound plain) : f.All Expr.Unset :=
  ⟨fun p inside e same => ((fresh.params p inside).default e same).mono fun _ fresh => fresh.unset,
    holdsInAll_mono Checks.fresh_unset fresh.body⟩

theorem Item.Fresh.all_unset (fresh : item.Fresh bound) : item.All Expr.Unset := by
  cases item with
  | cls c =>
    refine ⟨fun f inside e same => ?_, fun m inside => ((Class.Fresh.methods fresh) m inside).function.all_unset⟩
    exact ((Class.Fresh.fields fresh f inside).initializer e same).mono fun _ fresh => fresh.unset
  | function f => exact Function.Fresh.all_unset fresh
  | stmt s => exact Stmt.Holds.mono Checks.fresh_unset fresh

end Fresh

end Quasicode
