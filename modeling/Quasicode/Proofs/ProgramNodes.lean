import Quasicode.Proofs.ProgramCalls

/-!
The expressions of a program, at any depth. A property of nodes holds throughout an expression if it holds of the
expression and throughout its parts; a property of statements is put together from what is asked of the values, the
assignments and the other parts that a statement can have.
-/
namespace Quasicode

/-! ## Throughout an expression -/

mutual

/-- The property `P` holds of an expression and of everything inside it. -/
def Expr.All (P : Expr → Prop) : Expr → Prop
  | .literal info value => P (.literal info value)
  | .classRef info type id => P (.classRef info type id)
  | .this info slot => P (.this info slot)
  | .superField info property superclass field => P (.superField info property superclass field)
  | .var info name slot => P (.var info name slot)
  | .assignee info name typeName slot first => P (.assignee info name typeName slot first)
  | .group info e => P (.group info e) ∧ e.All P
  | .widen info e => P (.widen info e) ∧ e.All P
  | .member info e property field => P (.member info e property field) ∧ e.All P
  | .unary info op e => P (.unary info op e) ∧ e.All P
  | .cast info target e => P (.cast info target e) ∧ e.All P
  | .isType info e type tested => P (.isType info e type tested) ∧ e.All P
  | .arrayLiteral info es => P (.arrayLiteral info es) ∧ allOf P es
  | .newArray info type es => P (.newArray info type es) ∧ allOf P es
  | .newObject info type es target => P (.newObject info type es target) ∧ allOf P es
  | .subscript info a b => P (.subscript info a b) ∧ a.All P ∧ b.All P
  | .binary info a op b => P (.binary info a op b) ∧ a.All P ∧ b.All P
  | .logical info a op b => P (.logical info a op b) ∧ a.All P ∧ b.All P
  | .call info callee name es target => P (.call info callee name es target) ∧ callee.All P ∧ allOf P es

def allOf (P : Expr → Prop) : List Expr → Prop
  | [] => True
  | e :: es => e.All P ∧ allOf P es

def Callee.All (P : Expr → Prop) : Callee → Prop
  | .object receiver => receiver.All P
  | .free | .super | .superConstructor => True

end

variable {P Q : Expr → Prop}

theorem Expr.All.here {e : Expr} (all : e.All P) : P e := by
  cases e with
  | literal | classRef | this | superField | var | assignee => exact all
  | group | widen | member | unary | cast | isType | arrayLiteral | newArray | newObject | subscript | binary
    | logical | call => exact all.1

theorem allOf_iff {es : List Expr} : allOf P es ↔ ∀ e ∈ es, e.All P := by
  induction es with
  | nil => simp [allOf]
  | cons e es ih => simp [allOf, ih]

mutual

/-- What follows from two properties at every node follows throughout. -/
theorem Expr.All.meet {R : Expr → Prop} (implies : ∀ e, P e → Q e → R e) : ∀ {e : Expr}, e.All P → e.All Q → e.All R
  | .literal _ _, all, all' | .classRef _ _ _, all, all' | .this _ _, all, all' | .superField _ _ _ _, all, all'
  | .var _ _ _, all, all' | .assignee _ _ _ _ _, all, all' => implies _ all all'
  | .group _ _, ⟨here, inside⟩, ⟨here', inside'⟩ | .widen _ _, ⟨here, inside⟩, ⟨here', inside'⟩
  | .member _ _ _ _, ⟨here, inside⟩, ⟨here', inside'⟩ | .unary _ _ _, ⟨here, inside⟩, ⟨here', inside'⟩
  | .cast _ _ _, ⟨here, inside⟩, ⟨here', inside'⟩ | .isType _ _ _ _, ⟨here, inside⟩, ⟨here', inside'⟩ =>
    ⟨implies _ here here', Expr.All.meet implies inside inside'⟩
  | .arrayLiteral _ _, ⟨here, inside⟩, ⟨here', inside'⟩ | .newArray _ _ _, ⟨here, inside⟩, ⟨here', inside'⟩
  | .newObject _ _ _ _, ⟨here, inside⟩, ⟨here', inside'⟩ => ⟨implies _ here here', allOf_meet implies inside inside'⟩
  | .subscript _ _ _, ⟨here, first, second⟩, ⟨here', first', second'⟩
  | .binary _ _ _ _, ⟨here, first, second⟩, ⟨here', first', second'⟩
  | .logical _ _ _ _, ⟨here, first, second⟩, ⟨here', first', second'⟩ =>
    ⟨implies _ here here', Expr.All.meet implies first first', Expr.All.meet implies second second'⟩
  | .call _ _ _ _ _, ⟨here, first, second⟩, ⟨here', first', second'⟩ =>
    ⟨implies _ here here', Callee.all_meet implies first first', allOf_meet implies second second'⟩

theorem allOf_meet {R : Expr → Prop} (implies : ∀ e, P e → Q e → R e) :
    ∀ {es : List Expr}, allOf P es → allOf Q es → allOf R es
  | [], _, _ => trivial
  | _ :: _, ⟨first, rest⟩, ⟨first', rest'⟩ => ⟨Expr.All.meet implies first first', allOf_meet implies rest rest'⟩

theorem Callee.all_meet {R : Expr → Prop} (implies : ∀ e, P e → Q e → R e) :
    ∀ {callee : Callee}, callee.All P → callee.All Q → callee.All R
  | .object _, all, all' => Expr.All.meet implies all all'
  | .free, _, _ | .super, _, _ | .superConstructor, _, _ => trivial

end

/-- What follows from a property at every node follows throughout. -/
theorem Expr.All.mono (implies : ∀ e, P e → Q e) {e : Expr} (all : e.All P) : e.All Q :=
  all.meet (fun e holds _ => implies e holds) all

mutual

/-- The calls of an expression are among its nodes. -/
theorem Expr.All.calls : ∀ {e : Expr}, e.All P → ∀ call ∈ e.calls, P call
  | .literal _ _, _ | .classRef _ _ _, _ | .this _ _, _ | .superField _ _ _ _, _ | .var _ _ _, _
  | .assignee _ _ _ _ _, _ => by
    simp [Expr.calls]
  | .group _ _, all | .widen _ _, all | .member _ _ _ _, all | .unary _ _ _, all | .cast _ _ _, all
  | .isType _ _ _ _, all =>
    fun call inside => Expr.All.calls all.2 call inside
  | .arrayLiteral _ _, all | .newArray _ _ _, all | .newObject _ _ _ _, all =>
    fun call inside => allOf_calls all.2 call inside
  | .subscript _ _ _, all | .binary _ _ _ _, all | .logical _ _ _ _, all =>
    List.forall_mem_append.mpr ⟨Expr.All.calls all.2.1, Expr.All.calls all.2.2⟩
  | .call _ _ _ _ _, all =>
    List.forall_mem_cons.mpr ⟨all.1, List.forall_mem_append.mpr ⟨Callee.all_calls all.2.1, allOf_calls all.2.2⟩⟩

theorem allOf_calls : ∀ {es : List Expr}, allOf P es → ∀ call ∈ callsOfAll es, P call
  | [], _ => by simp [callsOfAll]
  | _ :: _, all => List.forall_mem_append.mpr ⟨Expr.All.calls all.1, allOf_calls all.2⟩

theorem Callee.all_calls : ∀ {callee : Callee}, callee.All P → ∀ call ∈ callee.calls, P call
  | .object receiver, all => fun call inside => @Expr.All.calls receiver all call inside
  | .free, _ | .super, _ | .superConstructor, _ => by simp [Callee.calls]

end

/-! ## Throughout a statement -/

/-- What is asked of the parts of statements. -/
structure Checks where
  value : Expr → Prop
  assignment : Assignment → Prop
  returned : Option Expr → Prop
  counter : Ident → Option SymbolId → Prop
  scope : Option ScopeId → Prop
  /-- The places of statements that may stand only in some bodies. -/
  place : Span → Prop

mutual

/-- The parts of a statement, at any depth, are as asked. -/
def Stmt.Holds (c : Checks) : Stmt → Prop
  | .eval value => c.value value
  | .branch condition body elseIfs otherwise _ =>
    c.value condition ∧ body.Holds c ∧ holdsInElseIfs c elseIfs ∧ holdsInOtherwise c otherwise
  | .output values _ | .input values _ => ∀ e ∈ values, c.value e
  | .ret value span => c.returned value ∧ c.place span
  | .count counter slot first last body _ =>
    c.value first ∧ c.value last ∧ c.counter counter slot ∧ body.Holds c
  | .repeatWhile condition body _ => c.value condition ∧ body.Holds c
  | .leave span | .next span => c.place span
  | .exit _ => True
  | .assignAll parts _ => ∀ a ∈ parts, c.assignment a
  | .assign part => c.assignment part

def holdsInAll (c : Checks) : List Stmt → Prop
  | [] => True
  | s :: ss => s.Holds c ∧ holdsInAll c ss

def Block.Holds (c : Checks) : Block → Prop
  | ⟨stmts, scope, _⟩ => c.scope scope ∧ holdsInAll c stmts

def ElseIf.Holds (c : Checks) : ElseIf → Prop
  | ⟨condition, block⟩ => c.value condition ∧ block.Holds c

def holdsInElseIfs (c : Checks) : List ElseIf → Prop
  | [] => True
  | e :: es => e.Holds c ∧ holdsInElseIfs c es

def holdsInOtherwise (c : Checks) : Option Block → Prop
  | none => True
  | some block => block.Holds c

end

/-- Whatever `c` admits `d` admits. -/
structure Checks.Implies (c d : Checks) : Prop where
  value : ∀ e, c.value e → d.value e
  assignment : ∀ a, c.assignment a → d.assignment a
  returned : ∀ e, c.returned e → d.returned e
  counter : ∀ name slot, c.counter name slot → d.counter name slot
  scope : ∀ scope, c.scope scope → d.scope scope
  place : ∀ span, c.place span → d.place span

/-- What `c` and `d` both admit `e` admits. -/
structure Checks.Meets (c d e : Checks) : Prop where
  value : ∀ x, c.value x → d.value x → e.value x
  assignment : ∀ a, c.assignment a → d.assignment a → e.assignment a
  returned : ∀ x, c.returned x → d.returned x → e.returned x
  counter : ∀ name slot, c.counter name slot → d.counter name slot → e.counter name slot
  scope : ∀ scope, c.scope scope → d.scope scope → e.scope scope
  place : ∀ span, c.place span → d.place span → e.place span

variable {c d e : Checks}

mutual

theorem Stmt.Holds.meet (meets : c.Meets d e) : ∀ {s : Stmt}, s.Holds c → s.Holds d → s.Holds e
  | .eval _, value, value' => meets.value _ value value'
  | .branch _ _ _ _ _, ⟨condition, body, elseIfs, otherwise⟩, ⟨condition', body', elseIfs', otherwise'⟩ =>
    ⟨meets.value _ condition condition', Block.Holds.meet meets body body', holdsInElseIfs_meet meets elseIfs elseIfs',
      holdsInOtherwise_meet meets otherwise otherwise'⟩
  | .output _ _, values, values' | .input _ _, values, values' =>
    fun e inside => meets.value e (values e inside) (values' e inside)
  | .ret _ _, ⟨value, place⟩, ⟨value', place'⟩ => ⟨meets.returned _ value value', meets.place _ place place'⟩
  | .count _ _ _ _ _ _, ⟨first, last, counter, body⟩, ⟨first', last', counter', body'⟩ =>
    ⟨meets.value _ first first', meets.value _ last last', meets.counter _ _ counter counter',
      Block.Holds.meet meets body body'⟩
  | .repeatWhile _ _ _, ⟨condition, body⟩, ⟨condition', body'⟩ =>
    ⟨meets.value _ condition condition', Block.Holds.meet meets body body'⟩
  | .leave _, place, place' | .next _, place, place' => meets.place _ place place'
  | .exit _, _, _ => trivial
  | .assignAll _ _, parts, parts' => fun a inside => meets.assignment a (parts a inside) (parts' a inside)
  | .assign _, part, part' => meets.assignment _ part part'

theorem holdsInAll_meet (meets : c.Meets d e) : ∀ {ss : List Stmt}, holdsInAll c ss → holdsInAll d ss → holdsInAll e ss
  | [], _, _ => trivial
  | _ :: _, ⟨first, rest⟩, ⟨first', rest'⟩ => ⟨Stmt.Holds.meet meets first first', holdsInAll_meet meets rest rest'⟩

theorem Block.Holds.meet (meets : c.Meets d e) : ∀ {block : Block}, block.Holds c → block.Holds d → block.Holds e
  | ⟨_, _, _⟩, ⟨scope, stmts⟩, ⟨scope', stmts'⟩ => ⟨meets.scope _ scope scope', holdsInAll_meet meets stmts stmts'⟩

theorem ElseIf.Holds.meet (meets : c.Meets d e) : ∀ {elseIf : ElseIf}, elseIf.Holds c → elseIf.Holds d → elseIf.Holds e
  | ⟨_, _⟩, ⟨condition, block⟩, ⟨condition', block'⟩ =>
    ⟨meets.value _ condition condition', Block.Holds.meet meets block block'⟩

theorem holdsInElseIfs_meet (meets : c.Meets d e) :
    ∀ {es : List ElseIf}, holdsInElseIfs c es → holdsInElseIfs d es → holdsInElseIfs e es
  | [], _, _ => trivial
  | _ :: _, ⟨first, rest⟩, ⟨first', rest'⟩ =>
    ⟨ElseIf.Holds.meet meets first first', holdsInElseIfs_meet meets rest rest'⟩

theorem holdsInOtherwise_meet (meets : c.Meets d e) : ∀ {block : Option Block}, holdsInOtherwise c block →
    holdsInOtherwise d block → holdsInOtherwise e block
  | none, _, _ => trivial
  | some _, block, block' => Block.Holds.meet meets block block'

end

theorem Checks.Implies.meets (implies : c.Implies d) : c.Meets c d :=
  ⟨fun _ holds _ => implies.value _ holds, fun _ holds _ => implies.assignment _ holds,
    fun _ holds _ => implies.returned _ holds,
    fun _ _ holds _ => implies.counter _ _ holds, fun _ holds _ => implies.scope _ holds,
    fun _ holds _ => implies.place _ holds⟩

theorem Stmt.Holds.mono (implies : c.Implies d) {s : Stmt} (holds : s.Holds c) : s.Holds d :=
  holds.meet implies.meets holds

theorem holdsInAll_mono (implies : c.Implies d) {ss : List Stmt} (holds : holdsInAll c ss) : holdsInAll d ss :=
  holdsInAll_meet implies.meets holds holds

theorem Block.Holds.mono (implies : c.Implies d) {block : Block} (holds : block.Holds c) : block.Holds d :=
  holds.meet implies.meets holds

theorem ElseIf.Holds.mono (implies : c.Implies d) {elseIf : ElseIf} (holds : elseIf.Holds c) : elseIf.Holds d :=
  holds.meet implies.meets holds

theorem holdsInElseIfs_mono (implies : c.Implies d) {es : List ElseIf} (holds : holdsInElseIfs c es) :
    holdsInElseIfs d es :=
  holdsInElseIfs_meet implies.meets holds holds

end Quasicode
