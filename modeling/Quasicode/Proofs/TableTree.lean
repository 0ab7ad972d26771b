import Quasicode.Proofs.PartitionSets
import Quasicode.Proofs.TableScopes

/-!
The scopes of a table as a tree. Going up from a scope visits no scope twice if it ends at all, so the bound on a
look-up along the scopes is never met in a table whose scopes all lead to the top.
-/
namespace Quasicode.Table

variable {t t' : Table} {id outer scope : ScopeId} {key name : String} {span : Span}
variable {kind : SymbolKind} {m n limit : Nat}

/-- The parent of a scope, if there is such a scope. -/
def parent? (t : Table) (id : ScopeId) : Option (Option ScopeId) := (t.scopes[id.index]?).map Scope.parent

/-- `Rises t id n`: going up from the scope `id` ends after `n` steps. -/
inductive Rises (t : Table) : ScopeId → Nat → Prop where
  | top {id : ScopeId} : t.parent? id = some none → Rises t id 0
  | step {id outer : ScopeId} {n : Nat} : t.parent? id = some (some outer) → Rises t outer n → Rises t id (n + 1)

/-- Every scope leads to the top. -/
def Rooted (t : Table) : Prop := ∀ id : ScopeId, id.index < t.scopes.size → ∃ n, t.Rises id n

/-! ## Ways up -/

theorem parent_bound {up : Option ScopeId} (held : t.parent? id = some up) : id.index < t.scopes.size := by
  obtain ⟨scope, found, _⟩ := Option.map_eq_some_iff.mp held
  exact (Array.getElem?_eq_some_iff.mp found).1

theorem rises_bounded (rises : t.Rises id n) : id.index < t.scopes.size := by
  cases rises with
  | top held => exact parent_bound held
  | step held _ => exact parent_bound held

theorem rises_unique (first : t.Rises id m) (second : t.Rises id n) : m = n := by
  induction first generalizing n with
  | top held =>
    cases second with
    | top _ => rfl
    | step held' _ =>
      rw [held] at held'
      cases held'
  | step held _ ih =>
    cases second with
    | top held' =>
      rw [held] at held'
      cases held'
    | step held' rest =>
      rw [held] at held'
      cases held'
      rw [ih rest]

theorem rises_smaller (rises : t.Rises id n) : ∀ i ≤ n, ∃ x, t.Rises x i := by
  induction rises with
  | top held =>
    intro i le
    obtain rfl := Nat.le_zero.mp le
    exact ⟨_, .top held⟩
  | step held rest ih =>
    intro i le
    rcases Nat.lt_or_eq_of_le le with lt | rfl
    · exact ih i (Nat.le_of_lt_succ lt)
    · exact ⟨_, .step held rest⟩

/-- A way up is shorter than there are scopes. -/
theorem rises_short (rises : t.Rises id n) : n < t.scopes.size := by
  refine levels_bound (P := fun i x => t.Rises ⟨x⟩ i) (fun i lt => ?_) fun first second => rises_unique first second
  obtain ⟨x, smaller⟩ := rises_smaller rises i (Nat.le_of_lt_succ lt)
  exact ⟨x.index, rises_bounded smaller, smaller⟩

/-! ## Looking up -/

theorem lookupLocal_total (inside : id.index < t.scopes.size) (key : String) :
    ∃ found, t.lookupLocal id key = .ok found := by
  refine ⟨t.scopes[id.index].lookup key, ?_⟩
  simp [lookupLocal, Table.scope, inside]

theorem parent_total {up : Option ScopeId} (held : t.parent? id = some up) : t.parent id = .ok up := by
  obtain ⟨scope, found, rfl⟩ := Option.map_eq_some_iff.mp held
  simp [parent, Table.scope, found]

/-- The scopes above a scope, nearest first. -/
inductive Above (t : Table) : ScopeId → List ScopeId → Prop where
  | top {id : ScopeId} : t.parent? id = some none → Above t id []
  | step {id outer : ScopeId} {above : List ScopeId} : t.parent? id = some (some outer) → Above t outer above →
    Above t id (outer :: above)

theorem Rises.above (rises : t.Rises id n) : ∃ above, t.Above id above ∧ above.length = n := by
  induction rises with
  | top held => exact ⟨[], .top held, rfl⟩
  | step held _ ih =>
    obtain ⟨above, isAbove, length⟩ := ih
    exact ⟨_ :: above, .step held isAbove, congrArg Nat.succ length⟩

namespace Above

variable {above : List ScopeId} (isAbove : t.Above id above)
include isAbove

theorem rises : t.Rises id above.length := by
  induction isAbove with
  | top held => exact .top held
  | step held _ ih => exact .step held ih

theorem mem_rises {at_ : ScopeId} (inside : at_ ∈ id :: above) : ∃ m ≤ above.length, t.Rises at_ m := by
  induction isAbove with
  | top held =>
    obtain rfl := List.mem_singleton.mp inside
    exact ⟨0, Nat.le_refl _, .top held⟩
  | @step id outer above held rest ih =>
    rcases List.mem_cons.mp inside with rfl | inside
    · exact ⟨_, Nat.le_refl _, .step held rest.rises⟩
    · obtain ⟨m, le, rises⟩ := ih inside
      exact ⟨m, Nat.le_succ_of_le le, rises⟩

theorem mem_path {at_ : ScopeId} (path : Relation.ReflTransGen (fun a b => t.parent? a = some (some b)) id at_) :
    at_ ∈ id :: above := by
  induction isAbove with
  | top held =>
    rcases path.cases_head with rfl | ⟨_, up, _⟩
    · exact List.mem_cons_self
    · cases held.symm.trans up
  | step held _ ih =>
    rcases path.cases_head with rfl | ⟨_, up, path⟩
    · exact List.mem_cons_self
    · cases held.symm.trans up
      exact List.mem_cons_of_mem _ (ih path)

/-- A look-up along the scopes ends, and finds what the nearest scope that holds the name holds. -/
theorem lookup {held : ScopeId → Option SymbolId}
    (locals : ∀ {scope}, scope.index < t.scopes.size → t.lookupLocal scope key = .ok (held scope))
    (enough : above.length < limit) :
    t.lookupWithin key limit id = .ok ((id :: above).findSome? held) := by
  have here {id : ScopeId} {up : Option ScopeId} {limit : Nat} (parent : t.parent? id = some up) :
      t.lookupWithin key (limit + 1) id =
      (held id).elim (up.elim (.ok none) (t.lookupWithin key limit)) fun found => .ok (some found) := by
    obtain ⟨scope, found, rfl⟩ := Option.map_eq_some_iff.mp parent
    have here := locals (parent_bound parent)
    simp only [lookupLocal, Table.scope, found, ok_bind, pure_eq_ok, Except.ok.injEq] at here
    simp only [lookupWithin, Table.scope, found, ok_bind, here]
    cases held id <;> cases scope.parent <;> rfl
  induction isAbove generalizing limit with
  | @top id top =>
    obtain ⟨limit, rfl⟩ := Nat.exists_eq_add_of_lt enough
    rw [here top, List.findSome?_cons]
    cases held id <;> rfl
  | @step id outer above up _ ih =>
    obtain ⟨limit, rfl⟩ := Nat.exists_eq_add_of_lt enough
    rw [here up, List.findSome?_cons]
    cases held id with
    | some s => rfl
    | none => exact ih (by rw [List.length_cons]; omega)

end Above

theorem lookupLocal_eq (key : String) (inside : id.index < t.scopes.size) :
    t.lookupLocal id key = .ok (t.scopes[id.index]?.bind (·.lookup key)) := by
  simp [lookupLocal, Table.scope, inside]

theorem lookupChain_total (rises : t.Rises id n) (key : String) : ∃ found, t.lookupChain id key = .ok found ∧
      ∀ s, found = some s → ∃ at_ m, t.Rises at_ m ∧ m ≤ n ∧ t.lookupLocal at_ key = .ok (some s) := by
  obtain ⟨above, isAbove, rfl⟩ := rises.above
  refine ⟨_, isAbove.lookup (lookupLocal_eq key) (Nat.lt_succ_of_lt (rises_short rises)), fun s found => ?_⟩
  obtain ⟨at_, inside, held⟩ := List.exists_of_findSome?_eq_some found
  obtain ⟨m, le, rises'⟩ := isAbove.mem_rises inside
  exact ⟨at_, m, rises', le, held ▸ lookupLocal_eq key (rises_bounded rises')⟩

/-- A name that a scope on the way holds is found. -/
theorem lookupChain_found (rises : t.Rises id n) {at_ : ScopeId}
    (above : Relation.ReflTransGen (fun a b => t.parent? a = some (some b)) id at_) {s : SymbolId}
    (held : t.lookupLocal at_ key = .ok (some s)) : ∃ s', t.lookupChain id key = .ok (some s') := by
  obtain ⟨scopes, isAbove, rfl⟩ := rises.above
  have here := Except.ok.inj (held.symm.trans (lookupLocal_eq key (lookup_bound held)))
  have ran := isAbove.lookup (lookupLocal_eq key) (Nat.lt_succ_of_lt (rises_short rises))
  cases found : (id :: scopes).findSome? fun scope => t.scopes[scope.index]?.bind (·.lookup key) with
  | some s' => exact ⟨s', ran.trans (congrArg _ found)⟩
  | none => cases here.trans (List.findSome?_eq_none_iff.mp found at_ (isAbove.mem_path above))

/-! ## Tables with the same scopes -/

section SameScopes

variable (scopes : t'.scopes = t.scopes)
include scopes

theorem scope_congr : t'.scope scope = t.scope scope := by
  unfold Table.scope
  rw [scopes]

theorem lookupLocal_congr : t'.lookupLocal scope name = t.lookupLocal scope name := by
  unfold Table.lookupLocal
  rw [scope_congr scopes]

theorem lookupChain_congr : t'.lookupChain scope name = t.lookupChain scope name := by
  have within (limit : Nat) (scope : ScopeId) : t'.lookupWithin name limit scope = t.lookupWithin name limit scope := by
    induction limit generalizing scope with
    | zero => rfl
    | succ limit ih => simp only [Table.lookupWithin, scope_congr scopes, ih]
  unfold Table.lookupChain
  rw [within, scopes]

theorem parent?_congr : t'.parent? scope = t.parent? scope := by
  unfold parent?
  rw [scopes]

/-- The functions of a name do not hang on variables. -/
theorem overloads_congr
    (symbols : ∀ id, ∃ f, t'.symbol? id = (t.symbol? id).map (Symbol.mapKind (SymbolKind.mapVariable f))) :
    t'.overloads scope name = t.overloads scope name := by
  have get (id : SymbolId) : ∃ f, t'.get id = (t.get id).map (Symbol.mapKind (SymbolKind.mapVariable f)) := by
    obtain ⟨f, same⟩ := symbols id
    refine ⟨f, ?_⟩
    unfold symbol? at same
    unfold Table.get
    rw [same]
    cases t.symbols[id.index]? <;> rfl
  have parent (scope : ScopeId) : t'.parent scope = t.parent scope := by
    unfold Table.parent
    rw [scope_congr scopes]
  have within (limit : Nat) (found : Bool) (scope : ScopeId) :
      t'.overloadsWithin (overloadKey name) limit found scope = t.overloadsWithin
        (overloadKey name) limit found scope := by
    induction limit generalizing found scope with
    | zero => rfl
    | succ limit ih =>
      simp only [Table.overloadsWithin, lookupChain_congr scopes, parent, ih]
      refine bind_congr fun held => ?_
      cases held with
      | none => rfl
      | some id =>
        obtain ⟨f, same⟩ := get id
        dsimp only
        rw [same]
        cases t.get id with
        | error => rfl
        | ok s =>
          simp only [Except.map, ok_bind]
          cases kind : s.kind <;> simp [Symbol.mapKind, kind, SymbolKind.mapVariable]
  unfold Table.overloads
  rw [within, scopes]

end SameScopes

/-! ## Steps -/

/-- What the declaration of a symbol does to a table, its size and its scopes included. -/
structure Adds (scope : ScopeId) (name : String) (span : Span) (kind : SymbolKind) (t t' : Table) : Prop where
  ran : t.declare scope name span kind = .ok (⟨t.symbols.size⟩, t')
  declares : Declares scope name span kind ⟨t.symbols.size⟩ t t'
  size : t'.symbols.size = t.symbols.size + 1
  parents : ∀ id, t'.parent? id = t.parent? id

theorem Adds.held (adds : Adds scope name span kind t t') : t'.symbol? ⟨t.symbols.size⟩ =
    some ⟨⟨t.symbols.size⟩, name, span, scope, kind.mapClass fun c => { c with runtimeId := t'.classCount }⟩ :=
  (adds.declares.symbol _).trans (if_pos rfl)

theorem declare_total (inside : scope.index < t.scopes.size) (name : String) (span : Span) (kind : SymbolKind) :
    ∃ t', t.declare scope name span kind = .ok (⟨t.symbols.size⟩, t') ∧ Adds scope name span kind t t' := by
  have held : (t.count kind).scope scope = .ok t.scopes[scope.index] := by
    rw [scope_ok_iff, count_scopes]
    simp [inside]
  have ran : t.declare scope name span kind = .ok (⟨t.symbols.size⟩, { t.count kind with
      scopes := t.scopes.setIfInBounds scope.index (t.scopes[scope.index].bind name ⟨t.symbols.size⟩)
      symbols := t.symbols.push ⟨⟨t.symbols.size⟩, name, span, scope,
        kind.mapClass fun c => { c with runtimeId := (t.count kind).classCount }⟩ }) := by
    simp only [declare_eq, place, held, ok_bind, pure_eq_ok, count_scopes, count_symbols]
  refine ⟨_, ran, ran, declare_declares ran, by simp, fun id => ?_⟩
  simp only [parent?, Array.getElem?_setIfInBounds]
  by_cases same : scope.index = id.index
  · simp [← same, inside, Scope.bind]
  · simp [same]

theorem createScope_parent (t : Table) (parent id : ScopeId) :
    (t.createScope parent).2.parent? id = if id = (t.createScope parent).1 then some
      (some parent) else t.parent? id := by
  simp only [parent?, createScope, Array.getElem?_push]
  by_cases same : id.index = t.scopes.size
  · simp [ScopeId.ext_iff, same]
  · simp [ScopeId.ext_iff, same]

end Quasicode.Table
