import Quasicode.Binding.Expr
import Quasicode.Proofs.BareProgram
import Quasicode.Proofs.BoundProgram

/-!
What the names in a body can stand for. A name is looked up outwards from where it stands: it is a
variable of the body itself, or it is held by one of the scopes around the body. Whatever is bound
in the body only adds to the table, so what can be seen from it is what could be seen from around it
when it was begun. Without a diagnostic, moreover, no body uses what it has no access to: fields of
objects in static methods, fields of a class that is not set up, and the object where there is none.
-/
namespace Quasicode

open Relation Analysis
open Binding (BodyKind)

/-- The next scope outwards. -/
def Binding.Outward (t : Table) (inner outer : ScopeId) : Prop := t.parent? inner = some (some outer)

open Binding (Outward)

def VariableKind.IsField (kind : VariableKind) : Prop := kind = .instanceField ∨ kind = .staticField

/-! ## Tables while a body is bound -/

namespace Table

variable {base bound : Nat} {t t' t'' : Table} {id : SymbolId} {scope outer parent : ScopeId}
variable {name : String} {span : Span}
  {kind : SymbolKind} {var : VariableSymbol} {s : Symbol}
variable {start : Table} {top : ScopeId}

/-- What the names of variables stand for is left as it is; how far a variable has come may change. -/
structure Stays (t t' : Table) : Prop where
  vars : ∀ {id s v}, t.symbol? id = some s → s.var? = some v →
    ∃ s' v', t'.symbol? id = some s' ∧ s'.var? = some v' ∧ s'.scope = s.scope ∧ v'.kind = v.kind ∧
    v'.visibility = v.visibility
  parents : ∀ {id up}, t.parent? id = some up → t'.parent? id = some up

theorem Persists.vars (persists : Persists t t') (held : t.symbol? id = some s) (isVar : s.var? = some var) :
    ∃ s' v', t'.symbol? id = some s' ∧ s'.var? = some v' ∧ s'.scope = s.scope ∧ v'.kind = var.kind ∧
      v'.visibility = var.visibility := by
  obtain ⟨kind, held', core⟩ := persists.symbols held
  have vars := congrArg SymbolKind.var? core
  rw [SymbolKind.var_core, SymbolKind.var_core, show s.kind.var? = some var from isVar] at vars
  obtain ⟨v', isVar', same⟩ := Option.map_eq_some_iff.mp vars
  have kinds := congrArg VariableSymbol.kind same
  have visibilities := congrArg VariableSymbol.visibility same
  exact ⟨_, v', held', isVar', rfl, kinds, visibilities⟩

theorem Persists.stays (persists : Persists t t')
    (parents : ∀ {id up}, t.parent? id = some up → t'.parent? id = some up) : Stays t t' :=
  ⟨persists.vars, parents⟩

theorem Advances.stays (advances : Advances bound t t') : Stays t t' :=
  advances.persists.stays fun held => (advances.classes.parents (parent_bound held)).trans held

/-- Binding a body adds scopes and variables of the body to a table. A variable that gets no type at once lies in the
root scope or in one of the scopes from the number `base` on. -/
structure Gains (base : Nat) (t t' : Table) : Prop where
  symbols : ∀ {id s}, t.symbol? id = some s → t'.symbol? id = some s
  parents : ∀ {id up}, t.parent? id = some up → t'.parent? id = some up
  names : ∀ {scope name id}, t'.lookupLocal scope name = .ok (some id) →
    t.lookupLocal scope name = .ok (some id) ∨ t.symbols.size ≤ id.index
  added : ∀ {id s}, t'.symbol? id = some s → t.symbols.size ≤ id.index →
    ∃ v, s.var? = some v ∧ v.kind = .localVar ∧ (v.type = none → s.scope = .root ∨ base ≤ s.scope.index)

namespace Gains

theorem refl (base : Nat) (t : Table) : Gains base t t :=
  ⟨id, id, .inl, fun held new => absurd (symbol_bound held) (Nat.not_lt.mpr new)⟩

theorem size (gains : Gains base t t') : t.symbols.size ≤ t'.symbols.size := by
  apply Nat.le_of_not_lt
  intro less
  obtain ⟨s, held⟩ : ∃ s, t.symbol? ⟨t'.symbols.size⟩ = some s := symbol_exists less
  exact Nat.lt_irrefl _ (symbol_bound (gains.symbols held))

theorem scopes (gains : Gains base t t') : t.scopes.size ≤ t'.scopes.size := by
  apply Nat.le_of_not_lt
  intro less
  have held : t.parent? ⟨t'.scopes.size⟩ = some t.scopes[t'.scopes.size].parent := by simp [parent?, less]
  exact Nat.lt_irrefl _ (parent_bound (gains.parents held))

theorem trans (first : Gains base t t') (second : Gains base t' t'') : Gains base t t'' := by
  refine ⟨second.symbols ∘ first.symbols, second.parents ∘ first.parents, fun held => ?_, fun {id s} held new => ?_⟩
  · rcases second.names held with held | new
    · exact first.names held
    · exact .inr (Nat.le_trans first.size new)
  · by_cases old : id.index < t'.symbols.size
    · obtain ⟨s', held'⟩ := symbol_exists old
      cases (second.symbols held').symm.trans held
      exact first.added held' new
    · exact second.added held (Nat.not_lt.mp old)

theorem declare (adds : Adds scope name span (.variable var) t t') (isLocal : var.kind = .localVar)
    (apart : var.type = none → scope = .root ∨ base ≤ scope.index) : Gains base t t' := by
  refine ⟨fun held => ?_, fun held => (adds.parents _).trans held, fun {asked key id} held => ?_,
    fun {id s} held new => ?_⟩
  · rw [adds.declares.symbol_old (by simp [held]), held]
  · rw [adds.declares.lookup] at held
    split at held
    · cases held
      exact .inr (Nat.le_refl _)
    · exact .inl held
  · rw [adds.declares.symbol] at held
    split at held
    · cases held
      exact ⟨var, rfl, isLocal, apart⟩
    · exact absurd (symbol_bound held) (Nat.not_lt.mpr new)

theorem createScope (base : Nat) (t : Table) (parent : ScopeId) : Gains base t (t.createScope parent).2 := by
  refine ⟨id, fun {id up} held => ?_, fun {asked key id} held => ?_,
    fun held new => absurd (symbol_bound held) (Nat.not_lt.mpr new)⟩
  · rw [createScope_parent, if_neg]
    · exact held
    · rintro rfl
      exact Nat.lt_irrefl _ (parent_bound held)
  · rw [createScope_lookup] at held
    split at held
    · cases held
    · exact .inl held

/-- How far a new variable has come. -/
theorem recolor {status : Status} (gains : Gains base t t') (new : t.symbols.size ≤ id.index) :
    Gains base t (t'.edit id (·.mapVariable fun var => { var with status })) := by
  refine ⟨fun {j s} held => ?_, gains.parents, gains.names, fun {j s} held newer => ?_⟩
  · have other : j ≠ id := by
      rintro rfl
      exact absurd (symbol_bound held) (Nat.not_lt.mpr new)
    rw [edit_symbol?, gains.symbols held, Option.map_some, if_neg other]
  · rw [edit_symbol?] at held
    obtain ⟨s', held', rfl⟩ := Option.map_eq_some_iff.mp held
    obtain ⟨v, isVar, isLocal, apart⟩ := gains.added held' newer
    split
    · unfold Symbol.var? at isVar
      cases kind : s'.kind with
      | «variable» | globalVariable =>
        rw [kind] at isVar
        cases isVar
        exact ⟨{ v with status }, by rw [Symbol.var?, Symbol.mapKind, kind]; rfl, isLocal, apart⟩
      | _ => simp [kind, SymbolKind.var?] at isVar
    · exact ⟨v, isVar, isLocal, apart⟩

theorem stays (gains : Gains base t t') : Stays t t' :=
  ⟨fun held isVar => ⟨_, _, gains.symbols held, isVar, rfl, rfl, rfl⟩, gains.parents⟩

end Gains

/-- A step of the binding of a body: the table moves on, and nothing but what the body declares is added to it. -/
structure Binds (base bound : Nat) (t t' : Table) : Prop extends Advances bound t t', Gains base t t'

namespace Binds

theorem refl (intact : t.Intact bound) : Binds base bound t t := ⟨.refl intact, .refl base t⟩

theorem trans (first : Binds base bound t t') (second : Binds base bound t' t'') : Binds base bound t t'' :=
  ⟨first.toAdvances.trans second.toAdvances, first.toGains.trans second.toGains⟩

theorem createScope (intact : t.Intact bound) (inside : scope.index < t.scopes.size) :
    Binds base bound t (t.createScope scope).2 :=
  ⟨.createScope intact inside, .createScope base t scope⟩

theorem stays (binds : Binds base bound t t') : Stays t t' := binds.toGains.stays

end Binds

/-- What is found along the scopes is held by one of them. -/
theorem lookupWithin_path {key : String} {limit : Nat} (found : t.lookupWithin key limit scope = .ok (some id)) :
    ∃ at_, ReflTransGen (Outward t) scope at_ ∧ t.lookupLocal at_ key = .ok (some id) := by
  induction limit generalizing scope with
  | zero => cases found
  | succ limit ih =>
    obtain ⟨inner, held, found⟩ := bind_eq_ok.mp found
    have here : t.lookupLocal scope key = .ok (inner.lookup key) := by rw [lookupLocal, held]; rfl
    rw [scope_ok_iff] at held
    split at found
    next s isName =>
      cases found
      exact ⟨scope, .refl, here.trans (congrArg Except.ok isName)⟩
    · cases found
    next up _ above =>
      obtain ⟨at_, path, holds⟩ := ih found
      exact ⟨at_, .head (by simp [Outward, parent?, held, above]) path, holds⟩

/-! ## What can be seen -/

/-- The scope stands in a body that was begun in the table `start` under the scope `top`. -/
inductive Hangs (start t : Table) (top : ScopeId) : ScopeId → Prop where
  | top : Hangs start t top top
  | inner {scope outer : ScopeId} : start.scopes.size ≤ scope.index → t.parent? scope = some (some outer) →
    Hangs start t top outer → Hangs start t top scope

theorem Hangs.mono (hangs : Hangs start t top scope)
    (parents : ∀ {id up}, t.parent? id = some up → t'.parent? id = some up) : Hangs start t' top scope := by
  induction hangs with
  | top => exact .top
  | inner new up _ ih => exact .inner new (parents up) ih

/-- The scopes around a body that were there when it was begun stood around its outermost scope then. -/
theorem Hangs.around {at_ : ScopeId} (rooted : start.Rooted)
    (kept : ∀ {id up}, start.parent? id = some up → t.parent? id = some up)
    (hangs : Hangs start t top scope) (inside : top.index < start.scopes.size)
    (path : ReflTransGen (Outward t) scope at_)
    (old : at_.index < start.scopes.size) : ReflTransGen (Outward start) top at_ := by
  induction hangs with
  | top =>
    induction path using ReflTransGen.head_induction_on with
    | refl => exact .refl
    | @head inner around up _ ih =>
      obtain ⟨n, rises⟩ := rooted _ inside
      cases rises with
      | top isRoot => cases (kept isRoot).symm.trans up
      | step above rises =>
        cases (kept above).symm.trans up
        exact .head above (ih (rises_bounded rises))
  | inner new up _ ih =>
    rcases path.cases_head with rfl | ⟨around, above, path⟩
    · exact absurd old (Nat.not_lt.mpr new)
    · cases up.symm.trans above
      exact ih path

/-- The variable can be seen from a body under the scope `top`: if it is a field, a scope around the body holds it. -/
def InSight (t : Table) (top : ScopeId) (id : SymbolId) : Prop :=
  ∃ s v, t.symbol? id = some s ∧ s.var? = some v ∧ (v.kind.IsField → ReflTransGen (Outward t) top s.scope)

theorem InSight.ofLocal (held : t.symbol? id = some s) (isVar : s.var? = some var) (isLocal : var.kind = .localVar) :
    t.InSight top id := by
  refine ⟨s, var, held, isVar, fun isField => ?_⟩
  rcases isField with isField | isField <;> cases isLocal.symm.trans isField

/-- A field that cannot be read yet. -/
def Pending (t : Table) (id : SymbolId) : Prop := ∃ s v, t.symbol? id = some s ∧ s.var? = some v ∧ v.status = .pending

/-- The variable can be used in a body of the kind: static methods have no fields of objects. -/
def Admits (t : Table) (body : BodyKind) (id : SymbolId) : Prop :=
  ∃ s v, t.symbol? id = some s ∧ s.var? = some v ∧ (v.kind = .instanceField → body ≠ .staticMethod)

theorem Stays.outward (stays : Stays t t') (path : ReflTransGen (Outward t) top scope) :
    ReflTransGen (Outward t') top scope :=
  ReflTransGen.mono (fun _ _ up => stays.parents up) _ _ path

theorem InSight.mono (stays : Stays t t') (seen : t.InSight top id) : t'.InSight top id := by
  obtain ⟨s, v, held, isVar, way⟩ := seen
  obtain ⟨s', v', held', isVar', scope, kind, _⟩ := stays.vars held isVar
  refine ⟨s', v', held', isVar', ?_⟩
  rw [scope, kind]
  exact fun isField => stays.outward (way isField)

theorem Admits.mono {body : BodyKind} (stays : Stays t t') (admits : t.Admits body id) : t'.Admits body id := by
  obtain ⟨s, v, held, isVar, allowed⟩ := admits
  obtain ⟨s', v', held', isVar', _, kind, _⟩ := stays.vars held isVar
  exact ⟨s', v', held', isVar', kind ▸ allowed⟩

end Table

/-! ## What a body may use -/

/-- Where a body stands: the scope around it, what kind of body it is, and the fields that cannot be read there yet. -/
structure Binding.Spot where
  top : ScopeId
  body : BodyKind
  waiting : SymbolId → Prop

/-- The body of a method that runs on an object. -/
def Binding.BodyKind.HasObject (body : BodyKind) : Prop := body = .constructor ∨ body = .instanceMethod

open Binding (Spot)

/-- The names of a node stand for what can be used at the spot. -/
def Expr.Uses (t : Table) (spot : Spot) : Expr → Prop
  | .this _ _ => spot.body.HasObject
  | .var _ _ slot => ∀ id, slot = some id → t.InSight spot.top id ∧ t.Admits spot.body id ∧ ¬ spot.waiting id
  | .assignee _ _ _ slot _ => ∀ id, slot = some id → t.InSight spot.top id ∧ t.Admits spot.body id
  | .superField _ _ _ slot => spot.body ≠ .topLevel ∧ ∀ id, slot = some id → t.Admits spot.body id
  | .call _ callee _ _ _ =>
    (callee = .super → spot.body ≠ .topLevel) ∧ (callee = .superConstructor → spot.body = .constructor)
  | _ => True

/-- A node that is bound and not typed. -/
structure Expr.Bound (t : Table) (spot : Spot) (e : Expr) : Prop where
  unset : e.Unset
  uses : e.Uses t spot

/-- The nodes of statements are bound, and loops count with variables that can be seen. -/
def Checks.bound (t : Table) (spot : Spot) : Checks :=
  { Checks.nodes (Expr.Bound t spot) with counter := fun _ slot => ∀ id, slot = some id → t.InSight spot.top id }

/-- A node whose names were found and may be used where it stands. -/
structure Expr.Met (t : Table) (inherits : Prop) (spot : Spot) (e : Expr) : Prop where
  filled : e.Filled t inherits
  bound : e.Bound t spot

/-- The parts of statements have no empty slots, and they use what they may use. -/
def Checks.met (t : Table) (inherits : Prop) (spot : Spot) : Checks :=
  { Checks.nodes (Expr.Met t inherits spot) with
    counter := fun _ slot => ∃ id, slot = some id ∧ t.InSight spot.top id
    scope := fun scope => scope.isSome }

section Mono

variable {t t' : Table} {spot : Spot} (stays : t.Stays t')
include stays

theorem Expr.Uses.mono {e : Expr} (uses : e.Uses t spot) : e.Uses t' spot := by
  cases e with
  | var =>
    intro id same
    obtain ⟨seen, admits, ready⟩ := uses id same
    exact ⟨seen.mono stays, admits.mono stays, ready⟩
  | assignee =>
    intro id same
    obtain ⟨seen, admits⟩ := uses id same
    exact ⟨seen.mono stays, admits.mono stays⟩
  | superField => exact ⟨uses.1, fun id same => (uses.2 id same).mono stays⟩
  | this | call => exact uses
  | _ => trivial

theorem Expr.Bound.mono {e : Expr} (isBound : e.Bound t spot) : e.Bound t' spot :=
  ⟨isBound.unset, isBound.uses.mono stays⟩

theorem Checks.bound_mono : (Checks.bound t spot).Implies (.bound t' spot) := by
  have nodes := Checks.nodes_mono (P := Expr.Bound t spot) (Q := Expr.Bound t' spot) fun _ isBound => isBound.mono stays
  exact ⟨nodes.value, nodes.assignment, nodes.returned, fun _ _ seen id same => (seen id same).mono stays,
    nodes.scope, nodes.place⟩

end Mono

end Quasicode
