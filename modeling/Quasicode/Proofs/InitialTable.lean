import Quasicode.Proofs.BuiltinTable
import Quasicode.Proofs.DeclarePhase
import Quasicode.Proofs.GlobalOrder

/-!
The table with which the analysis of the first program begins is there, and it is intact: the builtin class and its
methods are declared by the same steps as those of a program. It holds no variables.
-/
namespace Quasicode

open Analysis
open Table (Persists Lays)

theorem Span.none_within (bound : Nat) : Span.none.Within bound := ⟨Nat.zero_le _, Nat.zero_le _⟩

theorem Table.intact_empty (bound : Nat) : Table.empty.Intact bound := by
  have noSymbol {id : SymbolId} {s : Symbol} : Table.empty.symbol? id ≠ some s := nofun
  have noClass {id : SymbolId} {c : ClassSymbol} : Table.empty.class? id ≠ some c := nofun
  have noName {scope : ScopeId} {name : String} {id : SymbolId} : Table.empty.lookupLocal
      scope name ≠ .ok (some id) := by
    intro found
    obtain ⟨s, held, _⟩ := Table.declared_empty.well.named found
    exact noSymbol held
  have noUpper {c d : SymbolId} : ¬ Table.empty.Under c d := fun ⟨_, held, _⟩ => noClass held
  have onlyRoot {scope : ScopeId} {up : Option ScopeId}
      (above : Table.empty.parent? scope = some up) : scope = .root := by
    have inside := Table.parent_bound above
    obtain ⟨index⟩ := scope
    obtain rfl : index = 0 := Nat.lt_one_iff.mp inside
    rfl
  refine ⟨⟨rfl, fun held => absurd held noSymbol, fun held => absurd held noSymbol, fun held => absurd held noSymbol,
    fun found => absurd found noName, fun held => absurd held noSymbol, fun held => absurd held noSymbol⟩,
    ⟨⟨fun up => absurd up noUpper, fun c cycle => ?_, fun held => absurd held noClass, fun held => absurd held noClass⟩,
    fun held => absurd held noClass,
    fun held => absurd held noClass, fun held => absurd held noClass, fun held => absurd held noClass,
    fun inner above => absurd (onlyRoot above) inner, fun held => absurd held noClass⟩,
    ⟨fun held => absurd held noClass⟩⟩
  obtain ⟨d, up, _⟩ := Relation.TransGen.head'_iff.mp cycle
  exact noUpper up

/-- It does not matter which scope is current. -/
theorem Table.Intact.reset {bound : Nat} {t : Table} (intact : t.Intact bound) : t.resetToRoot.Intact bound := by
  obtain ⟨⟨root, numbered, placed, located, named, kinds, keyed⟩,
    ⟨⟨closed, acyclic, children, distinct⟩, classNumbers, apart, inner, scopes, upward, hung⟩, ⟨above⟩⟩ := intact
  exact ⟨⟨root, numbered, placed, located, named, kinds, keyed⟩,
    ⟨⟨closed, acyclic, children, distinct⟩, classNumbers, apart, inner, scopes, upward, hung⟩, ⟨above⟩⟩

namespace Builtin

variable {bound : Nat} {cls : SymbolId} {t : Table} {k : ClassSymbol}

theorem toTy_below {count : Nat} (below : cls.index < count) (ty : BuiltinTy) :
    (ty.toTy (.ofClass stringName cls)).Below count := by
  cases ty with
  | string => exact below
  | _ => trivial

theorem toTy_proper (ty : BuiltinTy) : (ty.toTy (.ofClass stringName cls)).Proper := by
  cases ty <;> trivial

/-- A change that goes through as a step of an analysis goes through on the table. -/
theorem modified {id : SymbolId} {f : SymbolKind → SymbolKind} {A B : Unit → Table → Prop}
    (goes : Goes (Watch.only fun _ => False) t (modifySymbol id f) A B) : ∃ t', t.modify id f = .ok t' ∧ A () t' := by
  obtain ⟨_, t', _, ran, _, holds, _⟩ := goes.run []
  obtain ⟨_, changed, same⟩ := run_modifySymbol_ok.mp ran
  cases same
  exact ⟨t', changed, holds⟩

/-- A builtin method is declared, and only its class gains it. -/
theorem declareMethod_lays {method : BuiltinMethod} (intact : t.Intact bound) (proper : t.Proper)
    (isClass : t.class? cls = some k)
    (isName : IsName method.name) : ∃ t', declareMethod cls k.scope t method = .ok t' ∧
    Lays bound t t' ∧ t'.Proper := by
  have inside := (intact.sound.class_sound isClass).scope
  have below : cls.index < t.symbols.size := Table.class_bound (by simp [isClass])
  unfold declareMethod
  extract_lets string params symbol
  have sound : (SymbolKind.method symbol).Sound bound (t.symbols.size + 1) t.scopes.size := by
    refine ⟨⟨toTy_below (Nat.lt_succ_of_lt below) _, ?_, rfl⟩, Nat.lt_succ_of_lt below, nofun,
      Span.none_within bound, nofun, nofun⟩
    exact List.forall_mem_map.mpr fun ty _ => toTy_below (Nat.lt_succ_of_lt below) ty
  have suits : (SymbolKind.method symbol).Suits (functionKey method.name params) :=
    SymbolKind.suits_functionKey isName _ _
  have signature : symbol.function.Proper := ⟨List.forall_mem_map.mpr fun ty _ => toTy_proper ty, .inr (toTy_proper _)⟩
  obtain ⟨t₁, made, adds⟩ := Table.declare_total (t := t) inside (functionKey method.name params) .none (.method symbol)
  have lays₁ : Lays bound t t₁ :=
    .declare intact adds ⟨inside, Span.none_within bound, sound, suits, rfl⟩ rfl (by rintro _ ⟨⟩)
  have proper₁ : t₁.Proper := proper.declare adds ⟨nofun, fun same => Option.some.inj same ▸ signature⟩
  obtain ⟨set, t₂, s, functions, found, advances₂, lays₂, _, held, _⟩ := Binding.overloadSet_total lays₁.intact
    (lays₁.persists.inside inside) isName (Span.none_within bound) true
  have there : (⟨t.symbols.size⟩ : SymbolId).index < t₂.symbols.size := by
    apply lays₂.persists.below
    rw [adds.size]
    exact Nat.lt_succ_self _
  obtain ⟨t₃, added, advances₃, lays₃, _⟩ := modified (addFunction_goes lays₂.intact (Table.symbol_bound held) there)
  have persists₃ := (lays₁.persists.trans lays₂.persists).trans lays₃.persists
  obtain ⟨t₄, listed, advances₄, lays₄, _⟩ :=
    modified (modifyMembers_goes (f := fun c => { c with methods := c.methods ++ [⟨t.symbols.size⟩] })
    lays₃.intact (persists₃.below below) (fun sound => ⟨sound.scope, List.forall_mem_append.mpr ⟨sound.methods,
      List.forall_mem_singleton.mpr (lays₃.persists.below there)⟩, sound.fields⟩) (fun c => rfl) fun _ _ _ => .inl)
  refine ⟨t₄, ?_, lays₁.trans (lays₂.trans (lays₃.trans lays₄)),
    advances₄.proper (advances₃.proper (advances₂.proper proper₁))⟩
  rw [made, ok_bind]
  simp only
  rw [found, ok_bind]
  simp only
  rw [added, ok_bind, listed]

theorem declareMethods_lays : ∀ {methods : List BuiltinMethod} {t : Table} {k : ClassSymbol},
    t.Intact bound → t.Proper → t.class? cls = some k → (∀ method ∈ methods, IsName method.name) →
    ∃ t', methods.foldlM (declareMethod cls k.scope) t = .ok t' ∧ Lays bound t t' ∧ t'.Proper
  | [], t, k, intact, proper, _, _ => ⟨t, rfl, .refl intact, proper⟩
  | method :: methods, t, k, intact, proper, isClass, named => by
    obtain ⟨isName, named⟩ := List.forall_mem_cons.mp named
    obtain ⟨t₁, ran, lays, proper₁⟩ := declareMethod_lays intact proper isClass isName
    obtain ⟨k₁, isClass₁, same, _⟩ := lays.persists.cls isClass
    obtain ⟨t', ran', lays', proper'⟩ := declareMethods_lays lays.intact proper₁ isClass₁ named
    refine ⟨t', ?_, lays.trans lays', proper'⟩
    rw [List.foldlM_cons, ran, ok_bind, ← same]
    exact ran'

/-- **The builtin classes are declared.** -/
theorem declare_lays (bound : Nat) : ∃ cls t, declare .empty = .ok (cls, t) ∧ Lays bound .empty t ∧ t.Proper := by
  have intact := Table.intact_empty bound
  obtain ⟨isName, names, _⟩ := stringMethods_named
  have within := Span.none_within bound
  obtain ⟨t₁, named, adds₁⟩ :=
    Table.declare_total (t := .empty) intact.sound.rootInside stringName .none (.className true)
  have lays₁ : Lays bound .empty t₁ :=
    .declare intact adds₁ ⟨intact.sound.rootInside, within, trivial, SymbolKind.suits_name isName _,
      rfl⟩ rfl (by rintro _ ⟨⟩)
  have proper₁ : t₁.Proper := Table.Proper.declare (by rintro _ _ ⟨⟩) adds₁ ⟨nofun, nofun⟩
  have free : t₁.lookupRoot (classKey stringName) = none := by
    have found := adds₁.declares.lookup .root (classKey stringName)
    rw [if_neg fun same => classKey_ne _ same.2, Table.lookupRoot_eq lays₁.intact.sound.rootInside] at found
    exact Except.ok.inj found
  have opened := (Table.Advances.createScope lays₁.intact lays₁.intact.sound.rootInside)
  obtain ⟨t₂, made, adds₂⟩ :=
    Table.declare_total (t := (t₁.createScope .root).2) opened.intact.sound.rootInside (classKey stringName)
    .none (.cls {
      displayName := stringName, plainName := stringName, builtin := true, scope := (t₁.createScope .root).1 })
  have lays₂ : Lays bound t₁ t₂ :=
    .declare_class lays₁.intact adds₂ ⟨within, SymbolKind.suits_classKey isName _, free, rfl, rfl, rfl, rfl, rfl, rfl⟩
  have isClass : ∃ k, t₂.class? ⟨(t₁.createScope .root).2.symbols.size⟩ = some k ∧
      k.scope = (t₁.createScope .root).1 := by
    rw [adds₂.declares.class_eq]
    exact ⟨_, if_pos rfl, rfl⟩
  obtain ⟨k, isClass, own⟩ := isClass
  have proper₂ : t₂.Proper := (opened.proper proper₁).declare adds₂ ⟨nofun, nofun⟩
  obtain ⟨t₃, filled, lays₃, proper₃⟩ := declareMethods_lays lays₂.intact proper₂ isClass names
  refine ⟨⟨(t₁.createScope .root).2.symbols.size⟩, t₃, ?_, lays₁.trans (lays₂.trans lays₃), proper₃⟩
  unfold declare
  rw [named, ok_bind]
  simp only
  rw [made, ok_bind]
  simp only
  rw [← own, filled]
  rfl

end Builtin

/-- **The first table** is intact, and it holds no globals. -/
theorem Table.initial_intact (bound : Nat) :
    ∃ t, Table.initial = .ok t ∧ t.resetToRoot.Intact bound ∧ t.resetToRoot.Proper ∧
    t.resetToRoot.Typed 0 t.symbols.size ∧ ∀ id, ¬ t.resetToRoot.IsGlobal id := by
  obtain ⟨cls, t, ran, lays, proper⟩ := Builtin.declare_lays bound
  refine ⟨t, ?_, ?_, proper, lays.typed, ?_⟩
  · rw [Table.initial, ran]
    rfl
  · exact lays.intact.reset
  · rintro id ⟨s, held, isGlobal⟩
    exact absurd (lays.globals held isGlobal) (Nat.not_lt_zero _)

end Quasicode
