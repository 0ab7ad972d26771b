import Quasicode.Proofs.OverrideSets
import Quasicode.Typing.Overload

/-!
What a call of a method records, and what it chooses for the objects of a class. The methods by class of an
overridden method hold one entry for every class at or below its own that declares the signature, so going up from
any of those classes the first entry is the first declaration.
-/
namespace Quasicode

open Relation Hierarchy

namespace Table

variable {t t' : Table} {c d m x : SymbolId} {key : String} {limit n : Nat} {method : MethodSymbol}
  {ids : List SymbolId} {methods : List (SymbolId × SymbolId)}

/-! ## Methods by class -/

def owner? (t : Table) (id : SymbolId) : Option SymbolId := (t.method? id).map MethodSymbol.owner

/-- Adds methods under the classes that own them. -/
def insertOwned (t : Table) (ids : List SymbolId) (methods : List (SymbolId × SymbolId)) :
    List (SymbolId × SymbolId) :=
  ids.foldl (fun methods id => (t.owner? id).elim methods fun c => Typing.insertByClass c id methods) methods

theorem lookup_insertByClass :
    (Typing.insertByClass c m methods).lookup d = if d = c then some m else methods.lookup d := by
  induction methods with
  | nil => exact lookup_cons_if
  | cons head rest ih =>
    obtain ⟨c', m'⟩ := head
    simp only [Typing.insertByClass]
    split
    · exact lookup_cons_if
    split
    next same =>
      subst same
      rw [lookup_cons_if, lookup_cons_if]
      by_cases asked : d = c <;> simp [asked]
    next different =>
      rw [lookup_cons_if, lookup_cons_if, ih]
      by_cases asked : d = c'
      · simp [asked, Ne.symm different]
      · simp [asked]

theorem mem_insertByClass {entry : SymbolId × SymbolId} (inside : entry ∈ Typing.insertByClass c m methods) :
    entry = (c, m) ∨ entry ∈ methods := by
  induction methods with
  | nil => exact .inl (List.mem_singleton.mp inside)
  | cons head rest ih =>
    obtain ⟨c', m'⟩ := head
    simp only [Typing.insertByClass] at inside
    split at inside
    · exact List.mem_cons.mp inside
    split at inside
    · rcases List.mem_cons.mp inside with same | old
      · exact .inl same
      · exact .inr (List.mem_cons_of_mem _ old)
    · rcases List.mem_cons.mp inside with same | old
      · exact .inr (List.mem_cons.mpr (.inl same))
      · exact (ih old).imp_right (List.mem_cons_of_mem _)

/-- Of several methods of one class the last one is found. -/
theorem lookup_insertOwned : (t.insertOwned ids methods).lookup c =
    (ids.reverse.find? fun x => t.owner? x = some c).or (methods.lookup c) := by
  induction ids generalizing methods with
  | nil => rfl
  | cons id ids ih =>
    rw [insertOwned, List.foldl_cons, ← insertOwned, ih, List.reverse_cons, List.find?_append, Option.or_assoc]
    congr 1
    cases owner : t.owner? id with
    | none => simp [owner]
    | some c' =>
      rw [Option.elim_some, lookup_insertByClass]
      by_cases same : c = c' <;> simp [owner, same, eq_comm]

theorem mem_insertOwned {entry : SymbolId × SymbolId} (inside : entry ∈ t.insertOwned ids methods) :
    (entry.2 ∈ ids ∧ t.owner? entry.2 = some entry.1) ∨ entry ∈ methods := by
  induction ids generalizing methods with
  | nil => exact .inr inside
  | cons id ids ih =>
    rcases ih inside with ⟨later, owner⟩ | here
    · exact .inl ⟨List.mem_cons_of_mem _ later, owner⟩
    · cases owner : t.owner? id with
      | none => exact .inr (by simpa [owner] using here)
      | some c =>
        simp only [owner, Option.elim_some] at here
        rcases mem_insertByClass here with rfl | old
        · exact .inl ⟨List.mem_cons_self, owner⟩
        · exact .inr old

/-! ## Going up from a class -/

theorem ancestry_ok (depth : t.DepthOf c n) (enough : n ≤ limit) :
    ∃ k rest, t.ancestryWithin limit c = .ok ((c, k) :: rest) := by
  induction depth generalizing limit with
  | @root c k held top =>
    obtain ⟨limit, rfl⟩ := Nat.exists_eq_add_of_le' enough
    obtain ⟨sym, found, isClass⟩ := class_symbol held
    exact ⟨k, [], by simp [ancestryWithin, get_symbol found, isClass, top]⟩
  | @step c d n under rest ih =>
    obtain ⟨limit, rfl⟩ := Nat.exists_eq_add_of_le' (Nat.le_trans (Nat.le_add_left 1 n) enough)
    obtain ⟨k, held, upper⟩ := under
    obtain ⟨sym, found, isClass⟩ := class_symbol held
    obtain ⟨k', more, above⟩ := @ih limit (by omega)
    exact ⟨k, (d, k') :: more, by simp [ancestryWithin, get_symbol found, isClass, upper, above]⟩

/-- Two searches that agree up to a class where both find something find the same. -/
theorem search_ancestry {f g : SymbolId → Option SymbolId} {top : SymbolId}
    (same : ∀ c, ReflTransGen t.Under c top → f c = g c) (found : f top = some x)
    (path : ReflTransGen t.Under d top) (depth : t.DepthOf d n) (enough : n ≤ limit) :
    ∃ chain y, t.ancestryWithin limit d = .ok chain ∧ (chain.findSome? fun c => f c.1) = some y ∧
      (chain.findSome? fun c => g c.1) = some y := by
  induction path using ReflTransGen.head_induction_on generalizing n limit with
  | refl =>
    obtain ⟨k, rest, up⟩ := ancestry_ok depth enough
    exact ⟨_, x, up, by simp [found], by simp [← same top .refl, found]⟩
  | @head c d under path ih =>
    obtain ⟨k, held, upper⟩ := under
    obtain ⟨m, above, rfl⟩ := (depth_upper held depth).2 d upper
    obtain ⟨limit, rfl⟩ := Nat.exists_eq_add_of_le' (Nat.le_trans (Nat.le_add_left 1 m) enough)
    obtain ⟨chain, y, up, first, second⟩ := @ih limit m above (by omega)
    obtain ⟨sym, found, isClass⟩ := class_symbol held
    have up' : t.ancestryWithin (limit + 1) c = .ok ((c, k) :: chain) := by
      simp [ancestryWithin, get_symbol found, isClass, upper, up]
    have here := same c (path.head ⟨k, held, upper⟩)
    cases entry : f c with
    | none => exact ⟨_, y, up', by simp [entry, first], by simp [← here, entry, second]⟩
    | some z => exact ⟨_, z, up', by simp [entry], by simp [← here, entry]⟩

/-- The entry that the nearest class of a chain has. -/
def nearestEntry (methods : List (SymbolId × SymbolId)) (chain : List (SymbolId × ClassSymbol)) : Option SymbolId :=
  chain.findSome? fun c => methods.lookup c.1

/-- The method that the nearest class of a chain declares under a signature. -/
def nearestDeclared (t : Table) (key : String) (chain : List (SymbolId × ClassSymbol)) : Option SymbolId :=
  chain.findSome? fun c => (t.declares key c.1).head?

/-! ## Targets -/

/-- What a call records that has selected a function. -/
def targetOf (t : Table) (id : SymbolId) : CallTarget :=
  match t.method? id with
  | none => .unique id
  | some m =>
    if m.isStatic || m.isConstructor || m.overriders.isEmpty then .unique id
    else .byClass (t.insertOwned m.overriders [(m.owner, id)])

/-- Methods of one signature have the same parameters, and equal result types are one type. -/
structure TypedBySignature (t : Table) : Prop where
  params : ∀ {m m' a b key}, t.signature? m = some key → t.signature? m' = some key →
    t.method? m = some a → t.method? m' = some b → a.function.params = b.function.params
  returns : ∀ {m m' a b}, t.method? m = some a → t.method? m' = some b →
    a.function.returns == b.function.returns → a.function.returns = b.function.returns

theorem SameMethods.typedBySignature (same : SameMethods t t') (typed : t.TypedBySignature) : t'.TypedBySignature := by
  have old {m : SymbolId} {method : MethodSymbol} (held : t'.method? m = some method) :
      ∃ method', t.method? m = some method' ∧ method'.function = method.function := by
    obtain ⟨method', held', eq⟩ := same.symm.method_held held
    exact ⟨method', held', (congrArg MethodSymbol.function eq :)⟩
  refine ⟨fun {m m' a b key} signed signed' held held' => ?_, fun {m m' a b} held held' returns => ?_⟩
  · obtain ⟨a', held, eq⟩ := old held
    obtain ⟨b', held', eq'⟩ := old held'
    rw [same.signature] at signed signed'
    rw [← eq, ← eq']
    exact typed.params signed signed' held held'
  · obtain ⟨a', held, eq⟩ := old held
    obtain ⟨b', held', eq'⟩ := old held'
    rw [← eq, ← eq'] at returns ⊢
    exact typed.returns held held' returns

theorem signature_of_method (held : t.method? m = some method) (plain : method.isConstructor = false) :
    ∃ key, t.signature? m = some key := by
  obtain ⟨sym, found, isMethod⟩ := method_symbol held
  exact ⟨sym.name, by simp [signature?, found, isMethod, plain]⟩

theorem owner_of_declares (owned : t.OwnedMethods) (declared : x ∈ t.declares key d) :
    ∃ other, t.method? x = some other ∧ t.owner? x = some d := by
  obtain ⟨other, theirs, owner⟩ := owned.owner (mem_declares.mp declared).1
  exact ⟨other, theirs, by simp [owner?, theirs, owner]⟩

/-- Up to the class of a method, the methods by class that it records are what the classes declare. -/
theorem lookup_overriders (settled : Settled t) (held : t.method? m = some method)
    (signed : t.signature? m = some key) (path : ReflTransGen t.Under c method.owner) :
    (t.insertOwned method.overriders [(method.owner, m)]).lookup c = (t.declares key c).head? := by
  rw [lookup_insertOwned]
  cases entry : method.overriders.reverse.find? fun x => t.owner? x = some c with
  | some x =>
    have inside := List.mem_reverse.mp (List.mem_of_find?_eq_some entry)
    have owner : t.owner? x = some c := by simpa using List.find?_some entry
    obtain ⟨d, _, declared⟩ := (settled.overriders held signed x).mp inside
    obtain ⟨_, _, owner'⟩ := owner_of_declares settled.owned declared
    obtain rfl := Option.some.inj (owner'.symm.trans owner)
    rw [Option.some_or, settled.owned.head_iff.mpr declared]
  | none =>
    rw [Option.none_or]
    rcases reflTransGen_iff_eq_or_transGen.mp path with same | strict
    · rw [← same, settled.owned.head_iff.mpr (settled.owned.owner_declares held signed)]
      simp
    · have different : c ≠ method.owner := fun same => settled.forest.acyclic c (by rwa [← same] at strict)
      have undeclared : t.declares key c = [] := by
        refine List.eq_nil_iff_forall_not_mem.mpr fun x declared => ?_
        have inside := (settled.overriders held signed x).mpr ⟨c, strict, declared⟩
        obtain ⟨_, _, owner⟩ := owner_of_declares settled.owned declared
        exact absurd owner (by simpa using List.find?_eq_none.mp entry x (List.mem_reverse.mpr inside))
      simp [undeclared, lookup_cons_if, different]

/-- What the methods by class do that a call of the instance method `m` records: they hold methods of the class of
`m` and of those below it, all of them instance methods of the same types, and choose for every such class what it
has under the signature of `m`. -/
structure Dispatches (t : Table) (m : SymbolId) (method : MethodSymbol) (key : String)
    (methods : List (SymbolId × SymbolId)) : Prop where
  held : t.method? m = some method
  signed : t.signature? m = some key
  ofObjects : method.isStatic = false
  selected : (method.owner, m) ∈ methods
  alike : ∀ entry ∈ methods, ReflTransGen t.Under entry.1 method.owner ∧ ∃ other,
    t.method? entry.2 = some other ∧ other.isStatic = false ∧
      other.function.params = method.function.params ∧ other.function.returns = method.function.returns
  chosen : ∀ d, ReflTransGen t.Under d method.owner → ∃ chain found, t.ancestry d = .ok chain ∧
    nearestEntry methods chain = some found ∧ t.nearestDeclared key chain = some found

theorem dispatches_insertOwned (settled : Settled t) (typed : t.TypedBySignature) (held : t.method? m = some method)
    (signed : t.signature? m = some key) (ofObjects : method.isStatic = false) :
    t.Dispatches m method key (t.insertOwned method.overriders [(method.owner, m)]) := by
  have mine := settled.owned.owner_declares held signed
  have here : (t.insertOwned method.overriders [(method.owner, m)]).lookup method.owner = some m :=
    (lookup_overriders settled held signed .refl).trans (settled.owned.head_iff.mpr mine)
  refine ⟨held, signed, ofObjects, ?_, fun entry inside => ?_, fun d path => ?_⟩
  · obtain ⟨before, after, split, _⟩ := List.lookup_eq_some_iff.mp here
    simp [split]
  · rcases mem_insertOwned inside with ⟨overrides, owner⟩ | itself
    · obtain ⟨d, strict, declared⟩ := (settled.overriders held signed entry.2).mp overrides
      obtain ⟨other, theirs, owner'⟩ := owner_of_declares settled.owned declared
      obtain rfl := Option.some.inj (owner'.symm.trans owner)
      have agree := settled.agree strict mine declared held theirs
      exact ⟨strict.to_reflTransGen, other, theirs, agree.1.symm.trans ofObjects,
        typed.params (mem_declares.mp declared).2 signed theirs held, typed.returns theirs held agree.symm.2⟩
    · rw [List.mem_singleton.mp itself]
      exact ⟨.refl, method, held, ofObjects, rfl, rfl⟩
  · have isClass : (t.class? d).isSome := by
      rcases path.cases_head with rfl | ⟨_, ⟨k, isClass, _⟩, _⟩
      · have listed := settled.owned.listed held
        unfold methodsOf at listed
        cases found : t.class? method.owner with
        | none => simp [found] at listed
        | some k => rfl
      · simp [isClass]
    obtain ⟨n, depth⟩ := settled.forest.depth_exists isClass
    have enough := Nat.le_succ_of_le (depth_bound depth)
    exact search_ancestry (fun c up => lookup_overriders settled held signed up) here path depth enough

/-- What a recorded target must be for a call to run what the class of the object has: methods by class that
dispatch, or a method that no class below its own overrides. -/
def DispatchSound (t : Table) : CallTarget → Prop
  | .unique m => ∀ method, t.method? m = some method → method.isStatic = false →
      ∃ key, t.signature? m = some key ∧ ∀ d, TransGen t.Under d method.owner → t.declares key d = []
  | .byClass methods => ∃ m method key, t.Dispatches m method key methods

/-- The target of every function that is no constructor is sound. -/
theorem dispatchSound_targetOf (settled : Settled t) (typed : t.TypedBySignature)
    (plain : ∀ method, t.method? m = some method → method.isConstructor = false) :
    t.DispatchSound (t.targetOf m) := by
  unfold targetOf
  cases held : t.method? m with
  | none =>
    intro method held'
    rw [held] at held'
    cases held'
  | some method =>
    have notConstructor := plain method held
    obtain ⟨key, signed⟩ := signature_of_method held notConstructor
    simp only [notConstructor, Bool.or_false]
    split
    next alone =>
      intro method' held' ofObjects
      obtain rfl := Option.some.inj (held.symm.trans held')
      simp only [ofObjects, Bool.false_or, List.isEmpty_iff] at alone
      refine ⟨key, signed, fun d strict => List.eq_nil_iff_forall_not_mem.mpr fun x declared => ?_⟩
      have overrides := (settled.overriders held signed x).mpr ⟨d, strict, declared⟩
      simp [alone] at overrides
    next overridden =>
      rw [Bool.not_eq_true, Bool.or_eq_false_iff] at overridden
      exact ⟨m, method, key, dispatches_insertOwned settled typed held signed overridden.1⟩

/-- A function that a call can name: anything but a constructor. -/
def Callable (t : Table) (m : SymbolId) : Prop :=
  ∀ method, t.method? m = some method → method.isConstructor = false

/-- The target of a function of the table that is no constructor. -/
def Targets (t : Table) (target : CallTarget) : Prop := ∃ m, t.Callable m ∧ target = t.targetOf m

end Table

end Quasicode
