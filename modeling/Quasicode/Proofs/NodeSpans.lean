import Mathlib.Data.List.Nodup
import Mathlib.Order.Nat
import Quasicode.Proofs.FreshProgram

/-!
The places of expressions. A tree of expressions is tidy if every node covers more than each of
its parts, and its parts stand one after the other. Then no two nodes of the tree have the same
place, and neither have two nodes of trees that stand apart.
-/
namespace Quasicode

/-- The first span lies within the second and does not cover all of it. -/
def Span.Inside (inner outer : Span) : Prop :=
  outer.start ≤ inner.start ∧ inner.stop ≤ outer.stop ∧ (outer.start < inner.start ∨ inner.stop < outer.stop)

/-! ## The nodes of a program -/

def Callee.receivers : Callee → List Expr
  | .object receiver => [receiver]
  | .free | .super | .superConstructor => []

/-- The expressions right inside an expression, in the order in which they are written. -/
def Expr.parts : Expr → List Expr
  | .literal _ _ | .classRef _ _ _ | .this _ _ | .superField _ _ _ _ | .var _ _ _ | .assignee _ _ _ _ _ => []
  | .group _ e | .widen _ e | .member _ e _ _ | .unary _ _ e | .cast _ _ e | .isType _ e _ _ => [e]
  | .arrayLiteral _ es | .newArray _ _ es | .newObject _ _ es _ => es
  | .subscript _ a b | .binary _ a _ b | .logical _ a _ b => [a, b]
  | .call _ callee _ es _ => callee.receivers ++ es

theorem Expr.sizeOf_parts {e p : Expr} (inside : p ∈ e.parts) : sizeOf p < sizeOf e := by
  have among {es : List Expr} (inside : p ∈ es) : sizeOf p < sizeOf es := List.sizeOf_lt_of_mem inside
  cases e with
  | call info callee name es target =>
    cases callee <;> grind [Expr.parts, Callee.receivers]
  | _ => grind [Expr.parts]

/-- The expression and the nodes inside it, each before those inside it. -/
def Expr.nodes (e : Expr) : List Expr := e :: e.parts.attach.flatMap fun p => p.1.nodes
termination_by sizeOf e
decreasing_by exact sizeOf_parts p.2

def Assignment.exprs (a : Assignment) : List Expr := a.left :: (a.chained ++ [a.value])

mutual

/-- The expressions of a statement that stand in no other. -/
def Stmt.exprs : Stmt → List Expr
  | .eval value => [value]
  | .branch condition body elseIfs otherwise _ =>
    condition :: (body.exprs ++ (exprsOfElseIfs elseIfs ++ exprsOfOtherwise otherwise))
  | .output values _ | .input values _ => values
  | .ret value _ => value.toList
  | .count _ _ first last body _ => first :: last :: body.exprs
  | .repeatWhile condition body _ => condition :: body.exprs
  | .leave _ | .next _ | .exit _ => []
  | .assignAll parts _ => parts.flatMap Assignment.exprs
  | .assign part => part.exprs

def exprsOfStmts : List Stmt → List Expr
  | [] => []
  | s :: ss => s.exprs ++ exprsOfStmts ss

def Block.exprs : Block → List Expr
  | ⟨stmts, _, _⟩ => exprsOfStmts stmts

def ElseIf.exprs : ElseIf → List Expr
  | ⟨condition, block⟩ => condition :: block.exprs

def exprsOfElseIfs : List ElseIf → List Expr
  | [] => []
  | e :: es => e.exprs ++ exprsOfElseIfs es

def exprsOfOtherwise : Option Block → List Expr
  | none => []
  | some block => block.exprs

end

def Function.exprs (f : Function) : List Expr := f.params.flatMap (·.default.toList) ++ exprsOfStmts f.body

def Class.exprs (c : Class) : List Expr :=
  c.fields.flatMap (·.initializer.toList) ++ c.methods.flatMap (·.function.exprs)

def Item.exprs : Item → List Expr
  | .cls c => c.exprs
  | .function f => f.exprs
  | .stmt s => s.exprs

/-- Every expression node of a program. -/
def Program.nodes (program : Program) : List Expr := (program.items.flatMap Item.exprs).flatMap Expr.nodes

namespace Expr

variable {P : Expr → Prop} {e node : Expr}

theorem nodes_eq (e : Expr) : e.nodes = e :: e.parts.flatMap nodes := by
  rw [nodes]
  simp

theorem all_iff : e.All P ↔ P e ∧ ∀ p ∈ e.parts, p.All P := by
  cases e with
  | call info callee => cases callee <;> simp [All, Callee.All, parts, Callee.receivers, allOf_iff]
  | _ => simp [All, parts, allOf_iff]

theorem All.nodes {e : Expr} (all : e.All P) (inside : node ∈ e.nodes) : P node := by
  rw [nodes_eq] at inside
  rcases List.mem_cons.mp inside with rfl | inside
  · exact all.here
  · obtain ⟨p, part, inside⟩ := List.mem_flatMap.mp inside
    exact ((all_iff.mp all).2 p part).nodes inside
termination_by sizeOf e
decreasing_by exact sizeOf_parts part

/-! ## Tidy trees -/

/-- The first expression ends before the second begins. -/
def Before (a b : Expr) : Prop := a.span.stop ≤ b.span.start

/-- The node covers some of a text of this length, more of it than each of its parts, and these stand in order. -/
structure Tidy (length : Nat) (e : Expr) : Prop where
  forward : e.span.start < e.span.stop
  within : e.span.stop ≤ length
  inside : ∀ p ∈ e.parts, p.span.Inside e.span
  inOrder : e.parts.Pairwise Before

/-- The nodes of an expression are as asked, and it stands between two places. -/
structure Between (P : Expr → Prop) (lo hi : Nat) (e : Expr) : Prop where
  all : e.All P
  after : lo ≤ e.span.start
  before : e.span.stop ≤ hi

end Expr

/-- The expressions stand between two places, one after the other. -/
structure InTurn (P : Expr → Prop) (lo hi : Nat) (es : List Expr) : Prop where
  le : lo ≤ hi
  each : ∀ e ∈ es, e.Between P lo hi
  inOrder : es.Pairwise Expr.Before

/-- The expressions stand between two places, and no two of them overlap. -/
structure Scattered (P : Expr → Prop) (lo hi : Nat) (es : List Expr) : Prop where
  le : lo ≤ hi
  each : ∀ e ∈ es, e.Between P lo hi
  apart : es.Pairwise fun a b => a.Before b ∨ b.Before a

section Places

variable {P : Expr → Prop} {length lo lo₁ mid hi hi₁ : Nat} {e : Expr} {es fs : List Expr}

theorem Expr.Between.widen (between : e.Between P lo hi) (below : lo₁ ≤ lo) (above : hi ≤ hi₁) : e.Between P lo₁ hi₁ :=
  ⟨between.all, below.trans between.after, between.before.trans above⟩

theorem Expr.Between.imp {Q : Expr → Prop} (implies : ∀ e, P e → Q e) (between : e.Between P lo hi) :
    e.Between Q lo hi :=
  ⟨between.all.mono implies, between.after, between.before⟩

namespace InTurn

theorem nil (le : lo ≤ hi) : InTurn P lo hi [] := ⟨le, by simp, .nil⟩

theorem widen (inTurn : InTurn P lo hi es) (below : lo₁ ≤ lo) (above : hi ≤ hi₁) : InTurn P lo₁ hi₁ es :=
  ⟨below.trans (inTurn.le.trans above), fun e inside => (inTurn.each e inside).widen below above, inTurn.inOrder⟩

theorem cons (first : e.Between P lo mid) (rest : InTurn P mid hi es) (le : lo ≤ mid) : InTurn P lo hi (e :: es) := by
  refine ⟨le.trans rest.le,
    List.forall_mem_cons.mpr ⟨first.widen le_rfl rest.le, fun f inside => (rest.each f inside).widen le le_rfl⟩, ?_⟩
  exact List.pairwise_cons.mpr ⟨fun f inside => first.before.trans (rest.each f inside).after, rest.inOrder⟩

theorem single (first : e.Between P lo hi) (le : lo ≤ hi) : InTurn P lo hi [e] := .cons first (.nil le_rfl) le

theorem imp {Q : Expr → Prop} (implies : ∀ e, P e → Q e) (inTurn : InTurn P lo hi es) : InTurn Q lo hi es :=
  ⟨inTurn.le, fun e inside => (inTurn.each e inside).imp implies, inTurn.inOrder⟩

theorem scattered (inTurn : InTurn P lo hi es) : Scattered P lo hi es :=
  ⟨inTurn.le, inTurn.each, inTurn.inOrder.imp .inl⟩

/-- A node that starts before its parts. -/
theorem around (parts : InTurn P lo hi e.parts) (start : e.span.start < lo) (stop : hi ≤ e.span.stop)
    (within : e.span.stop ≤ length) : e.Tidy length := by
  have le := parts.le
  refine ⟨by omega, within, fun p inside => ?_, parts.inOrder⟩
  have between := parts.each p inside
  have := between.after
  have := between.before
  exact ⟨by omega, by omega, .inl (by omega)⟩

end InTurn

/-- A node that starts with one of its parts and goes on. -/
theorem Expr.Between.extended {p : Expr} (first : p.Between P lo mid) (forward : p.span.start < p.span.stop)
    (rest : InTurn P mid hi es) (parts : e.parts = p :: es) (start : e.span.start ≤ p.span.start)
    (stop : hi ≤ e.span.stop) (more : p.span.stop < e.span.stop) (within : e.span.stop ≤ length) : e.Tidy length := by
  have before := first.before
  refine ⟨by omega, within, ?_, ?_⟩
  · rw [parts]
    refine List.forall_mem_cons.mpr ⟨⟨by omega, by omega, .inr more⟩, fun q inside => ?_⟩
    have between := rest.each q inside
    have := between.after
    have := between.before
    exact ⟨by omega, by omega, .inl (by omega)⟩
  · rw [parts]
    exact List.pairwise_cons.mpr ⟨fun q inside => before.trans (rest.each q inside).after, rest.inOrder⟩

namespace Scattered

theorem nil (le : lo ≤ hi) : Scattered P lo hi [] := (InTurn.nil le).scattered

theorem single (first : e.Between P lo hi) (le : lo ≤ hi) : Scattered P lo hi [e] := (InTurn.single first le).scattered

theorem widen (scattered : Scattered P lo hi es) (below : lo₁ ≤ lo) (above : hi ≤ hi₁) : Scattered P lo₁ hi₁ es :=
  ⟨below.trans (scattered.le.trans above), fun e inside => (scattered.each e inside).widen below above, scattered.apart⟩

theorem append {mid₁ : Nat} (first : Scattered P lo mid es) (le : mid ≤ mid₁) (rest : Scattered P mid₁ hi fs) :
    Scattered P lo hi (es ++ fs) := by
  have first := first.widen le_rfl le
  refine ⟨first.le.trans rest.le, List.forall_mem_append.mpr ⟨(first.widen le_rfl rest.le).each,
    (rest.widen first.le le_rfl).each⟩, ?_⟩
  refine List.pairwise_append.mpr ⟨first.apart, rest.apart, fun a left b right => .inl ?_⟩
  exact (first.each a left).before.trans (rest.each b right).after

theorem perm (scattered : Scattered P lo hi es) (same : es.Perm fs) : Scattered P lo hi fs :=
  ⟨scattered.le, fun e inside => scattered.each e (same.mem_iff.mpr inside), same.pairwise scattered.apart Or.symm⟩

end Scattered

/-! ## No two nodes in one place -/

/-- Every node of an expression stands where the expression does. -/
theorem Expr.Between.nodes {e node : Expr} (between : e.Between (Expr.Tidy length) lo hi) (inside : node ∈ e.nodes) :
    node.Between (Expr.Tidy length) lo hi := by
  rw [nodes_eq] at inside
  rcases List.mem_cons.mp inside with rfl | inside
  · exact between
  · obtain ⟨p, part, inside⟩ := List.mem_flatMap.mp inside
    obtain ⟨tidy, tidyParts⟩ := all_iff.mp between.all
    have ⟨after, before, _⟩ := tidy.inside p part
    exact nodes ⟨tidyParts p part, between.after.trans after, before.trans between.before⟩ inside
termination_by sizeOf e
decreasing_by exact sizeOf_parts part

/-- If the nodes of each expression have places of their own, so have all of them. -/
theorem Scattered.nodup_of (scattered : Scattered (Expr.Tidy length) lo hi es)
    (each : ∀ e ∈ es, (e.nodes.map Expr.span).Nodup) : ((es.flatMap Expr.nodes).map Expr.span).Nodup := by
  rw [List.map_flatMap]
  refine List.nodup_flatMap.mpr ⟨each, scattered.apart.imp_of_mem fun {a b} left right apart => ?_⟩
  apply List.disjoint_left.mpr
  intro span first second
  obtain ⟨n, inside, rfl⟩ := List.mem_map.mp first
  obtain ⟨m, inside', same⟩ := List.mem_map.mp second
  have here (e : Expr) (among : e ∈ es) : e.Between (Expr.Tidy length) e.span.start e.span.stop :=
    ⟨(scattered.each e among).all, le_rfl, le_rfl⟩
  have one := (here a left).nodes inside
  have other := (here b right).nodes inside'
  have forward := one.all.here.forward
  obtain ⟨_, after, before⟩ := one
  obtain ⟨_, after', before'⟩ := other
  rw [same] at after' before'
  rcases apart with earlier | earlier
  · have := before.trans (earlier.trans after')
    omega
  · have := before'.trans (earlier.trans after)
    omega

theorem Expr.All.nodup_nodes {e : Expr} (tidy : e.All (Expr.Tidy length)) : (e.nodes.map Expr.span).Nodup := by
  obtain ⟨here, parts⟩ := all_iff.mp tidy
  have between (p : Expr) (part : p ∈ e.parts) : p.Between (Expr.Tidy length) e.span.start e.span.stop :=
    ⟨parts p part, (here.inside p part).1, (here.inside p part).2.1⟩
  have scattered : Scattered (Expr.Tidy length) e.span.start e.span.stop e.parts :=
    InTurn.scattered ⟨Nat.le_of_lt here.forward, between, here.inOrder⟩
  rw [nodes_eq, List.map_cons, List.nodup_cons]
  refine ⟨fun inside => ?_, scattered.nodup_of fun p part => (parts p part).nodup_nodes⟩
  -- A node inside a part covers no more than the part does, and so less than the expression.
  obtain ⟨node, inside, same⟩ := List.mem_map.mp inside
  obtain ⟨p, part, inside⟩ := List.mem_flatMap.mp inside
  have whole : p.Between (Expr.Tidy length) p.span.start p.span.stop := ⟨parts p part, le_rfl, le_rfl⟩
  obtain ⟨_, after, before⟩ := whole.nodes inside
  rw [same] at after before
  obtain ⟨_, _, less | less⟩ := here.inside p part
  · omega
  · omega
termination_by sizeOf e
decreasing_by exact sizeOf_parts part

/-- **No two nodes in one place.** -/
theorem Scattered.nodup_nodes (scattered : Scattered (Expr.Tidy length) lo hi es) :
    ((es.flatMap Expr.nodes).map Expr.span).Nodup :=
  scattered.nodup_of fun e inside => (scattered.each e inside).all.nodup_nodes

end Places

end Quasicode
