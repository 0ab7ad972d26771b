import Quasicode.Proofs.TableSymbols

/-!
Declaring symbols and looking them up. A declaration adds one symbol and binds one name in one scope. As long as
names are declared only where they are free, scopes and symbols mirror each other: a scope holds under a name
exactly the symbol declared there under it.
-/
namespace Quasicode

@[ext] theorem ScopeId.ext {a b : ScopeId} (same : a.index = b.index) : a = b := by
  cases a
  cases b
  exact congrArg ScopeId.mk same

theorem Scope.lookup_bind (scope : Scope) (name asked : String) (id : SymbolId) :
    (scope.bind name id).lookup asked = if asked = name then some id else scope.lookup asked := by
  have others (names : List (String × SymbolId)) (different : asked ≠ name) :
      (names.filter fun entry => entry.1 != name).lookup asked = names.lookup asked := by
    induction names with
    | nil => rfl
    | cons entry names ih =>
      obtain ⟨held, id⟩ := entry
      rw [lookup_cons_if, List.filter_cons]
      by_cases same : held = name
      · simp [same, different, ih]
      · simp only [bne_iff_ne, ne_eq, same, not_false_eq_true, if_true, lookup_cons_if, ih]
  unfold Scope.lookup Scope.bind
  rw [lookup_cons_if]
  split
  · rfl
  next different => exact others _ different

namespace Table

variable {t t' : Table} {id j : SymbolId} {scope asked : ScopeId} {name key : String} {span : Span}
  {kind : SymbolKind}

theorem scope_ok_iff {held : Scope} : t.scope scope = .ok held ↔ t.scopes[scope.index]? = some held := by
  unfold Table.scope
  split <;> simp_all

/-! ## Declarations -/

/-- What the declaration of `id` under a name does to a table. -/
structure Declares (scope : ScopeId) (name : String) (span : Span) (kind : SymbolKind) (id : SymbolId)
    (t t' : Table) : Prop where
  next : id.index = t.symbols.size
  symbol : ∀ j, t'.symbol? j = if j = id then
      some ⟨id, name, span, scope, kind.mapClass fun c => { c with runtimeId := t'.classCount }⟩
    else t.symbol? j
  classCount : t'.classCount = if kind.class?.isSome then t.classCount + 1 else t.classCount
  scopes : t'.scopes.size = t.scopes.size
  lookup : ∀ asked key, t'.lookupLocal asked key =
    if asked = scope ∧ key = name then .ok (some id) else t.lookupLocal asked key

theorem count_classCount :
    (t.count kind).classCount = if kind.class?.isSome then t.classCount + 1 else t.classCount := by
  unfold count
  split <;> rfl

theorem count_scopes : (t.count kind).scopes = t.scopes := by
  unfold count
  split <;> rfl

theorem count_symbols : (t.count kind).symbols = t.symbols := by
  unfold count
  split <;> rfl

theorem declare_declares (ran : t.declare scope name span kind = .ok (id, t')) :
    Declares scope name span kind id t t' := by
  obtain ⟨target, held, placed⟩ := bind_eq_ok.mp ((declare_eq ..).symm.trans ran)
  rw [scope_ok_iff, count_scopes] at held
  obtain ⟨bound, _⟩ := Array.getElem?_eq_some_iff.mp held
  cases placed
  refine ⟨by simp [count_symbols], fun j => ?_, count_classCount, by simp [count_scopes],
    fun asked key => ?_⟩
  · simp only [symbol?, count_symbols, Array.getElem?_push]
    by_cases same : j.index = t.symbols.size
    · simp [SymbolId.ext_iff, same]
    · simp [SymbolId.ext_iff, same]
  · simp only [lookupLocal, Table.scope, count_scopes, Array.getElem?_setIfInBounds]
    by_cases same : asked = scope
    · subst same
      simp only [bound, if_true, ok_bind, pure_eq_ok, Scope.lookup_bind, held, true_and]
      split <;> rfl
    · have elsewhere : scope.index ≠ asked.index := fun eq => same (ScopeId.ext eq.symm)
      simp [same, elsewhere]

namespace Declares

variable (declares : Declares scope name span kind id t t')
include declares

theorem fresh : t.symbol? id = none := by
  unfold symbol?
  rw [declares.next]
  simp

theorem symbol_old (held : (t.symbol? j).isSome) : t'.symbol? j = t.symbol? j := by
  rw [declares.symbol, if_neg]
  rintro rfl
  rw [declares.fresh] at held
  cases held

end Declares

theorem createScope_lookup (t : Table) (parent asked : ScopeId) (key : String) :
    (t.createScope parent).2.lookupLocal asked key =
      if asked = (t.createScope parent).1 then .ok none else t.lookupLocal asked key := by
  simp only [lookupLocal, Table.scope, createScope, Array.getElem?_push]
  by_cases same : asked.index = t.scopes.size
  · simp [ScopeId.ext_iff, same, Scope.lookup]
  · simp [ScopeId.ext_iff, same]

theorem lookup_bound {found : Option SymbolId} (held : t.lookupLocal scope name = .ok found) :
    scope.index < t.scopes.size := by
  obtain ⟨target, held, _⟩ := bind_eq_ok.mp held
  exact (Array.getElem?_eq_some_iff.mp (scope_ok_iff.mp held)).1

theorem edit_lookup (f : SymbolKind → SymbolKind) : (t.edit id f).lookupLocal asked key = t.lookupLocal asked key := rfl

theorem lookupRoot_eq (held : 0 < t.scopes.size) : t.lookupLocal .root key = .ok (t.lookupRoot key) := by
  simp [lookupLocal, Table.scope, lookupRoot, ScopeId.root, held]

/-! ## Scopes and symbols that mirror each other -/

/-- Every symbol is held by its scope under its name, and every name of a scope stands for such a symbol. -/
structure WellScoped (t : Table) : Prop where
  numbered : ∀ {id s}, t.symbol? id = some s → s.id = id
  bound : ∀ {id s}, t.symbol? id = some s → t.lookupLocal s.scope s.name = .ok (some id)
  named : ∀ {scope name id}, t.lookupLocal scope name = .ok (some id) →
    ∃ s, t.symbol? id = some s ∧ s.scope = scope ∧ s.name = name

namespace WellScoped

/-- Two symbols of one name in one scope are the same. -/
theorem unique (well : t.WellScoped) {s s' : Symbol} (first : t.symbol? id = some s)
    (second : t.symbol? j = some s') (scopes : s.scope = s'.scope) (names : s.name = s'.name) : id = j := by
  have here := well.bound first
  rw [scopes, names, well.bound second] at here
  simpa using here.symm

theorem mem_symbols (well : t.WellScoped) {s : Symbol} : s ∈ t.symbols.toList ↔ t.symbol? s.id = some s := by
  rw [Array.mem_toList_iff, Array.mem_iff_getElem?]
  constructor
  · rintro ⟨i, held⟩
    have numbered : s.id = ⟨i⟩ := well.numbered held
    rw [numbered]
    exact held
  · exact fun held => ⟨s.id.index, held⟩

theorem ids_nodup (well : t.WellScoped) : (t.symbols.toList.map Symbol.id).Nodup := by
  have ids : t.symbols.toList.map Symbol.id = (List.range t.symbols.size).map SymbolId.mk := by
    refine List.ext_getElem (by simp) fun i bound _ => ?_
    simp only [List.length_map, Array.length_toList] at bound
    have held : t.symbol? ⟨i⟩ = some t.symbols[i] := by simp [symbol?, bound]
    simpa using well.numbered held
  rw [ids]
  exact List.Pairwise.map _ (fun i j differ same => differ (congrArg SymbolId.index same)) List.nodup_range

/-- A name is declared where it is free. -/
theorem declare (well : t.WellScoped) (declares : Declares scope name span kind id t t')
    (free : t.lookupLocal scope name = .ok none) : t'.WellScoped := by
  refine ⟨fun {j s} held => ?_, fun {j s} held => ?_, fun {asked key j} found => ?_⟩
  · rw [declares.symbol] at held
    split at held
    next same =>
      cases held
      exact same.symm
    next => exact well.numbered held
  · rw [declares.symbol] at held
    rw [declares.lookup]
    split at held
    next same =>
      cases held
      simp [same]
    next =>
      have old := well.bound held
      rw [if_neg]
      · exact old
      · rintro ⟨scopes, names⟩
        rw [scopes, names, free] at old
        cases old
  · rw [declares.lookup] at found
    split at found
    next here =>
      cases found
      exact ⟨_, by rw [declares.symbol, if_pos rfl], here.1.symm, here.2.symm⟩
    next =>
      obtain ⟨s, held, rest⟩ := well.named found
      exact ⟨s, by rw [declares.symbol_old (by simp [held]), held], rest⟩

theorem createScope (well : t.WellScoped) (parent : ScopeId) : (t.createScope parent).2.WellScoped := by
  have old {scope : ScopeId} {name : String} {found : Option SymbolId} (held : t.lookupLocal scope name = .ok found) :
      scope ≠ (t.createScope parent).1 := by
    rintro rfl
    exact Nat.lt_irrefl _ (lookup_bound held)
  refine ⟨well.numbered, fun {j s} held => ?_, fun {asked key j} found => ?_⟩
  · have bound := well.bound held
    rw [createScope_lookup, if_neg (old bound), bound]
  · rw [createScope_lookup] at found
    split at found
    · cases found
    · exact well.named found

theorem edit (well : t.WellScoped) (f : SymbolKind → SymbolKind) : (t.edit id f).WellScoped := by
  have symbols {j : SymbolId} {s : Symbol} (held : (t.edit id f).symbol? j = some s) :
      ∃ s', t.symbol? j = some s' ∧ s'.id = s.id ∧ s'.scope = s.scope ∧ s'.name = s.name := by
    rw [edit_symbol?] at held
    obtain ⟨s', found, rfl⟩ := Option.map_eq_some_iff.mp held
    exact ⟨s', found, by split <;> exact ⟨rfl, rfl, rfl⟩⟩
  refine ⟨fun {j s} held => ?_, fun {j s} held => ?_, fun {asked key j} found => ?_⟩
  · obtain ⟨s', held, same, _⟩ := symbols held
    exact same.symm.trans (well.numbered held)
  · obtain ⟨s', held, _, scopes, names⟩ := symbols held
    rw [edit_lookup, ← scopes, ← names]
    exact well.bound held
  · obtain ⟨s, held, scopes, names⟩ := well.named found
    refine ⟨_, by rw [edit_symbol?, held]; rfl, ?_⟩
    split <;> exact ⟨scopes, names⟩

end WellScoped

end Table

end Quasicode
