import Quasicode.Analysis
import Quasicode.Proofs.DeclaredTable

/-!
The table with which the analysis of the first program begins. The builtin class is declared as a class of a program
would be, and so are its methods: their keys are all different, so each is free when its turn comes.
-/
namespace Quasicode

open Table

theorem Table.declared_empty : Declared none .empty := by
  have noSymbol (id : SymbolId) : Table.empty.symbol? id = none := rfl
  have noName {scope : ScopeId} {name : String} {id : SymbolId} : Table.empty.lookupLocal
      scope name ≠ .ok (some id) := by
    intro found
    obtain ⟨held, isScope, found⟩ := bind_eq_ok.mp found
    obtain ⟨bound, rfl⟩ := Array.getElem?_eq_some_iff.mp (scope_ok_iff.mp isScope)
    simp [empty, Scope.lookup] at found
  exact {
    well := ⟨by simp [noSymbol], by simp [noSymbol], fun found => absurd found noName⟩
    rooted := by decide
    classes := by simp [noSymbol]
    methods := by simp [noSymbol]
    distinct := by simp [class?, noSymbol]
    listed := by simp [method?, noSymbol] }

namespace Builtin

variable {cls : SymbolId} {t t' : Table} {k : ClassSymbol}

def BuiltinMethod.key (cls : SymbolId) (method : BuiltinMethod) : String :=
  functionKey method.name (method.params.map (BuiltinTy.toTy (.ofClass stringName cls)))

theorem overloadSet_lookup {scope asked : ScopeId} {name key : String} {span : Span}
    {forMethods : Bool} {set : SymbolId}
    (found : t.overloadSet scope name span forMethods = .ok (set, t')) (other : key ≠ overloadKey name) :
    t'.lookupLocal asked key = t.lookupLocal asked key := by
  obtain ⟨known, looked, found⟩ := bind_eq_ok.mp found
  cases known with
  | some old =>
    cases found
    rfl
  | none => rw [(declare_declares found).lookup, if_neg fun same => other same.2]

theorem toTy_spelled (known : t.Known stringName cls) (ty : BuiltinTy) :
    (ty.toTy (.ofClass stringName cls)).Spelled t.Known := by
  cases ty with
  | string => exact known
  | _ => trivial

/-- A builtin method is declared under its key, and leaves the keys of other methods as they are. -/
theorem declareMethod_declared {method : BuiltinMethod} (declared : Declared none t) (isClass : t.class? cls = some k)
    (isString : k.displayName = stringName) (isName : IsName method.name)
    (free : t.lookupLocal k.scope (method.key cls) = .ok none) (ran : declareMethod cls k.scope t method = .ok t') :
    Declared none t' ∧ SameCore t t' ∧ ∀ key, key ≠ method.key cls → key ≠ overloadKey method.name →
      t'.lookupLocal k.scope key = t.lookupLocal k.scope key := by
  obtain ⟨⟨id, t₁⟩, made, ran₁⟩ := bind_eq_ok.mp ran
  obtain ⟨⟨set, t₂⟩, found, ran₂⟩ := bind_eq_ok.mp ran₁
  obtain ⟨t₃, added, listed⟩ := bind_eq_ok.mp ran₂
  have spelled := toTy_spelled ⟨k, isClass, isString⟩
  obtain ⟨declared, same⟩ := declared.add_method made found added listed isClass free
    ⟨rfl, ⟨method.name, isName, rfl⟩, List.forall_mem_map.mpr fun ty _ => spelled ty, spelled method.returns⟩
  refine ⟨declared, same, fun key other otherSet => ?_⟩
  obtain ⟨_, rfl⟩ := modify_ok_iff.mp added
  obtain ⟨_, rfl⟩ := modify_ok_iff.mp listed
  rw [edit_lookup, edit_lookup, overloadSet_lookup found otherSet, (declare_declares made).lookup,
    if_neg fun same => other same.2]

theorem declareMethods_declared {methods : List BuiltinMethod} (declared : Declared none t)
    (isClass : t.class? cls = some k) (isString : k.displayName = stringName)
    (named : ∀ method ∈ methods, IsName method.name) (different : (methods.map (·.key cls)).Nodup)
    (free : ∀ method ∈ methods, t.lookupLocal k.scope (method.key cls) = .ok none)
    (ran : methods.foldlM (declareMethod cls k.scope) t = .ok t') : Declared none t' := by
  induction methods generalizing t k with
  | nil =>
    cases ran
    exact declared
  | cons method methods ih =>
    rw [List.foldlM_cons] at ran
    obtain ⟨next, step, ran⟩ := bind_eq_ok.mp ran
    obtain ⟨isName, named⟩ := List.forall_mem_cons.mp named
    obtain ⟨here, free⟩ := List.forall_mem_cons.mp free
    obtain ⟨apart, different⟩ := List.nodup_cons.mp different
    obtain ⟨declared, same, others⟩ := declareMethod_declared declared isClass isString isName here step
    obtain ⟨listed, fields, isClass'⟩ := same.class_core isClass
    refine ih (k := { k with methods := listed, fields }) declared isClass' isString named different
      (fun other inside => ?_) ran
    have otherKey : other.key cls ≠ method.key cls := fun same => apart (List.mem_map.mpr ⟨other, inside, same⟩)
    rw [others _ otherKey (overloadKey_ne (named other inside) _).symm]
    exact free other inside

/-- The builtin class and its methods have names, and no two methods have one key. -/
theorem stringMethods_named : IsName stringName ∧ (∀ method ∈ stringMethods, IsName method.name) ∧
    (stringMethods.map (·.key ⟨0⟩)).Nodup := by decide +kernel

theorem declare_declared (ran : declare .empty = .ok (cls, t)) : Declared none t := by
  obtain ⟨⟨_, t₁⟩, first, ran₁⟩ := bind_eq_ok.mp ran
  obtain ⟨⟨cls', t₂⟩, made, ran₂⟩ := bind_eq_ok.mp ran₁
  obtain ⟨t₃, filled, answer⟩ := bind_eq_ok.mp ran₂
  cases answer
  have nameDeclares := declare_declares first
  have free : t₁.lookupLocal .root (classKey stringName) = .ok none := by
    rw [nameDeclares.lookup, if_neg fun same => classKey_ne _ same.2]
    rfl
  obtain ⟨isName, named, different⟩ := stringMethods_named
  have declared := declared_empty.declare_other nameDeclares rfl rfl rfl
  obtain ⟨declared, _, ⟨number, held⟩, fresh⟩ := declared.open_class made rfl free isName ⟨rfl, rfl, rfl⟩ rfl rfl
  exact declareMethods_declared declared held rfl named different
    (fun method _ => fresh _) filled

end Builtin

theorem Table.initial_declared {t : Table} (fresh : Table.initial = .ok t) : Declared none t := by
  obtain ⟨⟨cls, t'⟩, ran, answer⟩ := bind_eq_ok.mp fresh
  cases answer
  exact Builtin.declare_declared ran

end Quasicode
