import Quasicode.Proofs.HierarchyBuilt
import Quasicode.Proofs.TypeJoin

/-!
Which method overrides which, once the hierarchy is built. Where every method belongs to one class and no class
declares a signature twice, the overriders of a method are the methods of its signature in the classes strictly
below its own, and as long as nothing is reported all of them agree with it.
-/
namespace Quasicode

open Relation

/-- The cause is that a method overrides another one wrongly. -/
def Cause.ofOverriding : Cause → Bool
  | .overrideStaticMismatch | .overrideReturnMismatch => true
  | _ => false

/-- A method without what is filled in after its declaration. -/
def MethodSymbol.declaration (m : MethodSymbol) : MethodSymbol := { m with overriders := [], ready := true }

theorem flatMap_eq_of_unique {α β : Type} {l : List α} {f : α → List β} {a : α} (nodup : l.Nodup) (inside : a ∈ l)
    (others : ∀ b ∈ l, b ≠ a → f b = []) : l.flatMap f = f a := by
  obtain ⟨front, back, rfl⟩ := List.append_of_mem inside
  obtain ⟨_, tail, apart⟩ := List.nodup_append.mp nodup
  have before : front.flatMap f = [] := List.flatMap_eq_nil_iff.mpr fun b here =>
    others b (by simp [here]) (apart b here a List.mem_cons_self)
  have after : back.flatMap f = [] := List.flatMap_eq_nil_iff.mpr fun b here =>
    others b (by simp [here]) fun same => (List.nodup_cons.mp tail).1 (same ▸ here)
  rw [List.flatMap_append, List.flatMap_cons, before, after, List.nil_append, List.append_nil]

namespace Table

variable {t t' : Table} {c d id m m' x : SymbolId} {key : String} {limit n : Nat}

/-! ## Declared methods -/

theorem mem_declares : m ∈ t.declares key c ↔ m ∈ t.methodsOf c ∧ t.signature? m = some key := by
  simp [declares, withSignature]

theorem class_of_declares (mine : m ∈ t.declares key c) : (t.class? c).isSome := by
  cases known : t.class? c with
  | none => simp [mem_declares, methodsOf, known] at mine
  | some k => rfl

theorem Forest.mem_childrenOf (forest : t.Forest) : c ∈ t.childrenOf d ↔ t.Under c d := by
  unfold childrenOf
  cases held : t.class? d with
  | none =>
    refine ⟨fun inside => by simp at inside, fun under => ?_⟩
    have isClass := forest.closed under
    simp [held] at isClass
  | some u => simpa using forest.children held

/-- A class and those below it, each class before those below it. -/
def classesFrom (t : Table) : Nat → SymbolId → List SymbolId
  | 0, _ => []
  | limit + 1, id => id :: (t.childrenOf id).flatMap (t.classesFrom limit)

theorem declaredFrom_classes :
    t.declaredFrom key limit = fun id => (t.classesFrom limit id).flatMap (t.declares key) := by
  induction limit with
  | zero => rfl
  | succ limit ih =>
    funext id
    simp [declaredFrom, classesFrom, ih, List.flatMap_assoc]

/-- A class at its depth leaves levels enough for the classes below it. -/
theorem Forest.mem_classesFrom (forest : t.Forest) (depth : t.DepthOf id n) (enough : t.symbols.size + 1 < limit + n) :
    d ∈ t.classesFrom limit id ↔ ReflTransGen t.Under d id := by
  induction limit generalizing id n with
  | zero =>
    have bound := depth_bound depth
    omega
  | succ limit ih =>
    have below {child : SymbolId} (under : t.Under child id) := ih (.step under depth) (by omega)
    rw [classesFrom, List.mem_cons, List.mem_flatMap]
    constructor
    · rintro (rfl | ⟨child, inside, found⟩)
      · exact .refl
      · have under := forest.mem_childrenOf.mp inside
        exact ((below under).mp found).tail under
    · intro path
      rcases path.cases_tail with same | ⟨child, path, under⟩
      · exact .inl same.symm
      · exact .inr ⟨child, forest.mem_childrenOf.mpr under, (below under).mpr path⟩

/-- More levels than there are change nothing. -/
theorem Forest.classesFrom_enough {limit' : Nat} (forest : t.Forest) (depth : t.DepthOf id n)
    (enough : t.symbols.size + 1 < limit + n) (enough' : t.symbols.size + 1 < limit' + n) :
    t.classesFrom limit id = t.classesFrom limit' id := by
  have bound := depth_bound depth
  induction limit generalizing limit' id n with
  | zero => omega
  | succ limit ih =>
    cases limit' with
    | zero => omega
    | succ limit' =>
      rw [classesFrom, classesFrom, List.cons.injEq]
      refine ⟨rfl, List.flatMap_congr fun child inside => ?_⟩
      have depth := DepthOf.step (forest.mem_childrenOf.mp inside) depth
      exact ih depth (by omega) (by omega) (depth_bound depth)

/-- The walks from the classes right below a class meet the methods of a signature in the classes strictly below it. -/
theorem Forest.mem_declared_below (forest : t.Forest) (isClass : (t.class? c).isSome) :
    x ∈ (t.childrenOf c).flatMap (t.declaredFrom key (t.symbols.size + 1)) ↔ ∃ d, TransGen t.Under d c ∧
      x ∈ t.declares key d := by
  obtain ⟨n, depth⟩ := forest.depth_exists isClass
  have below {child : SymbolId} (under : t.Under child c) :
      x ∈ t.declaredFrom key (t.symbols.size + 1) child ↔ ∃ d, ReflTransGen t.Under d child ∧ x ∈ t.declares key d := by
    have enough : t.symbols.size + 1 < t.symbols.size + 1 + (n + 1) := by omega
    simp only [declaredFrom_classes, List.mem_flatMap, forest.mem_classesFrom (.step under depth) enough]
  simp only [List.mem_flatMap, TransGen.tail'_iff, forest.mem_childrenOf]
  constructor
  · rintro ⟨child, under, met⟩
    obtain ⟨d, path, found⟩ := (below under).mp met
    exact ⟨d, ⟨child, path, under⟩, found⟩
  · rintro ⟨d, ⟨child, path, under⟩, found⟩
    exact ⟨child, under, (below under).mpr ⟨d, path, found⟩⟩

theorem depth_le (path : ReflTransGen t.Under c d) (lower : t.DepthOf c n) (upper : t.DepthOf d limit) : limit ≤ n := by
  induction path generalizing limit with
  | refl => exact Nat.le_of_eq (depth_unique upper lower)
  | tail _ under ih => exact Nat.le_of_succ_le (ih (.step under upper))

/-- A class lies below one class of each depth. -/
theorem same_level (depth : t.DepthOf c n) (depth' : t.DepthOf d n) (first : ReflTransGen t.Under x c)
    (second : ReflTransGen t.Under x d) : c = d := by
  have same {c d : SymbolId} (depth : t.DepthOf c n) (depth' : t.DepthOf d n)
      (path : ReflTransGen t.Under c d) : c = d := by
    rcases path.cases_tail with same | ⟨b, path, under⟩
    · exact same.symm
    · exact absurd (depth_le path depth (.step under depth')) (Nat.not_succ_le_self n)
  have unique : Relator.RightUnique t.Under := fun _ _ _ => under_unique
  rcases ReflTransGen.total_of_right_unique unique first second with path | path
  · exact same depth depth' path
  · exact (same depth' depth path).symm

theorem Forest.nodup_childrenOf (forest : t.Forest) : (t.childrenOf c).Nodup := by
  unfold childrenOf
  cases held : t.class? c with
  | none => exact List.nodup_nil
  | some k => exact forest.distinct held

/-- Every method is among the methods of the class that owns it, and of no other, and no class declares a
signature twice. -/
structure OwnedMethods (t : Table) : Prop where
  listed : ∀ {m method}, t.method? m = some method → m ∈ t.methodsOf method.owner
  owner : ∀ {c m}, m ∈ t.methodsOf c → ∃ method, t.method? m = some method ∧ method.owner = c
  once : ∀ {key c m m'}, m ∈ t.declares key c → m' ∈ t.declares key c → m = m'

namespace OwnedMethods

variable (owned : t.OwnedMethods)
include owned

theorem latest_iff : t.latest key c = some m ↔ m ∈ t.declares key c := by
  constructor
  · exact List.mem_of_getLast?
  · intro inside
    obtain ⟨last, held⟩ := Option.isSome_iff_exists.mp
      (List.getLast?_isSome.mpr (List.ne_nil_of_mem inside))
    rw [latest, held, owned.once (List.mem_of_getLast? held) inside]

theorem head_iff : (t.declares key c).head? = some m ↔ m ∈ t.declares key c := by
  constructor
  · exact List.mem_of_mem_head?
  · intro inside
    obtain ⟨first, held⟩ := Option.isSome_iff_exists.mp
      (List.isSome_head?.mpr (List.ne_nil_of_mem inside))
    rw [held, owned.once (List.mem_of_mem_head? held) inside]

/-- The class that declares a method is the one that owns it. -/
theorem declares_owner {method : MethodSymbol} (inside : m ∈ t.declares key c) (held : t.method? m = some method) :
    method.owner = c := by
  obtain ⟨method', held', ours⟩ := owned.owner (mem_declares.mp inside).1
  rw [held] at held'
  cases held'
  exact ours

theorem owner_declares {method : MethodSymbol} (held : t.method? m = some method)
    (signed : t.signature? m = some key) : m ∈ t.declares key method.owner :=
  mem_declares.mpr ⟨owned.listed held, signed⟩

end OwnedMethods

/-! ## Tables with the same methods -/

/-- The classes of both tables declare the same methods. -/
structure SameMethods (t t' : Table) : Prop where
  methodsOf : ∀ c, t'.methodsOf c = t.methodsOf c
  signature : ∀ m, t'.signature? m = t.signature? m
  method : ∀ m, (t'.method? m).map MethodSymbol.declaration = (t.method? m).map MethodSymbol.declaration

namespace SameMethods

theorem trans {t'' : Table} (first : SameMethods t t') (second : SameMethods t' t'') : SameMethods t t'' :=
  ⟨fun c => (second.methodsOf c).trans (first.methodsOf c), fun m => (second.signature m).trans (first.signature m),
    fun m => (second.method m).trans (first.method m)⟩

theorem symm (same : SameMethods t t') : SameMethods t' t :=
  ⟨fun c => (same.methodsOf c).symm, fun m => (same.signature m).symm, fun m => (same.method m).symm⟩

theorem declares (same : SameMethods t t') : t'.declares key c = t.declares key c := by
  simp only [Table.declares, withSignature, same.methodsOf, same.signature]

theorem method_held (same : SameMethods t t') {method : MethodSymbol} (held : t.method? m = some method) :
    ∃ method', t'.method? m = some method' ∧ method'.declaration = method.declaration := by
  have declared := same.method m
  rw [held] at declared
  obtain ⟨method', held', eq⟩ := Option.map_eq_some_iff.mp declared
  exact ⟨method', held', eq⟩

theorem owned (same : SameMethods t t') (owned : t.OwnedMethods) : t'.OwnedMethods := by
  refine ⟨fun {m method} held => ?_, fun {c m} inside => ?_, fun {key c m m'} first second => ?_⟩
  · obtain ⟨method', held', eq⟩ := same.symm.method_held held
    have listed := owned.listed held'
    rw [same.methodsOf]
    exact (congrArg MethodSymbol.owner eq :) ▸ listed
  · rw [same.methodsOf] at inside
    obtain ⟨method, held, ours⟩ := owned.owner inside
    obtain ⟨method', held', eq⟩ := same.method_held held
    exact ⟨method', held', (congrArg MethodSymbol.owner eq).trans ours⟩
  · rw [same.declares] at first second
    exact owned.once first second

end SameMethods

/-- Changes to classes that leave their methods alone leave all methods alone. -/
theorem Edited.sameMethods {h : SymbolId → ClassSymbol → ClassSymbol}
    (edited : Edited (fun id => SymbolKind.mapClass (h id)) t t') (kept : ∀ id k, (h id k).methods = k.methods) :
    SameMethods t t' := by
  refine ⟨fun c => ?_, fun m => ?_, fun m => by rw [edited.method_of_class_mapped]⟩
  · simp only [methodsOf, edited.class_mapped, Option.map_map]
    cases t.class? c with
    | none => rfl
    | some k => exact kept c k
  · simp only [signature?, edited.symbols]
    cases t.symbol? m with
    | none => rfl
    | some sym =>
      cases kind : sym.kind <;>
        simp [Symbol.method?, Symbol.mapKind, kind, SymbolKind.mapClass, SymbolKind.method?]

end Table

namespace Hierarchy

open Analysis Table

variable {t t' : Table} {c d id m m' x : SymbolId} {key : String} {limit n : Nat} {top : String → Option SymbolId}
variable {a b : MethodSymbol} {ancestor : SymbolId}

/-! ## The methods that a method gains -/

section

variable (alone : ∀ d, m ∈ t.methodsOf d → d = c) (latest : t.latest key c = some m)
include alone latest

theorem gainFrom_nil (aside : ¬ ReflTransGen t.Under c id) (forest : t.Forest) : gainFrom t limit id m = [] := by
  induction limit generalizing id with
  | zero => rfl
  | succ limit ih =>
    refine List.flatMap_eq_nil_iff.mpr fun child inside => ?_
    rw [ih fun path => aside (path.tail (forest.mem_childrenOf.mp inside))]
    simp only [gainBelow, latest_signature latest, List.nil_append]
    refine if_neg fun held => aside ?_
    rw [alone id (mem_declares.mp (List.mem_of_getLast? held)).1]

/-- The run from a class above gives a method what the walks from the classes right below its own meet. -/
theorem gainFrom_eq (forest : t.Forest) (depth : t.DepthOf id n) (enough : t.symbols.size + 1 < limit + n)
    (path : ReflTransGen t.Under c id) :
    gainFrom t limit id m = (t.childrenOf c).flatMap (t.declaredFrom key (t.symbols.size + 1)) := by
  have signed := latest_signature latest
  induction limit generalizing id n with
  | zero =>
    have bound := depth_bound depth
    omega
  | succ limit ih =>
    have below {child : SymbolId} (inside : child ∈ t.childrenOf id) : t.DepthOf child (n + 1) :=
      .step (forest.mem_childrenOf.mp inside) depth
    rcases path.cases_tail with rfl | ⟨child, path, under⟩
    · refine List.flatMap_congr fun child inside => ?_
      have aside : ¬ ReflTransGen t.Under id child :=
        fun path => forest.acyclic id (.tail' path (forest.mem_childrenOf.mp inside))
      rw [gainFrom_nil alone latest aside forest, List.nil_append]
      simp only [gainBelow, signed, latest, if_pos, declaredFrom_classes]
      exact congrArg (List.flatMap _) (forest.classesFrom_enough (below inside) (by omega) (by omega))
    · have other (child : SymbolId) : gainBelow t limit id child m = [] := by
        simp only [gainBelow, signed]
        refine if_neg fun held => forest.acyclic id ?_
        obtain rfl := alone id (mem_declares.mp (List.mem_of_getLast? held)).1
        exact .tail' path under
      simp only [gainFrom, other, List.append_nil]
      have inside := forest.mem_childrenOf.mpr under
      rw [← ih (below inside) (by omega) path]
      refine flatMap_eq_of_unique forest.nodup_childrenOf inside fun child' inside' different => ?_
      refine gainFrom_nil alone latest (fun path' => different ?_) forest
      exact same_level (below inside') (below inside) path' path

/-- All runs together give a method those of its signature that classes strictly below its own declare. -/
theorem gain_eq {roots : List SymbolId} (forest : t.Forest) (nodup : roots.Nodup)
    (tops : ∀ root, root ∈ roots ↔ t.DepthOf root 1) (isClass : (t.class? c).isSome) (enough : t.symbols.size < limit) :
    (roots.flatMap fun root => gainFrom t limit root m) = (t.childrenOf c).flatMap
      (t.declaredFrom key (t.symbols.size + 1)) := by
  obtain ⟨root, path, top⟩ := forest.root_above isClass
  refine (flatMap_eq_of_unique nodup ((tops root).mpr top) fun root' inside different => ?_).trans
    (gainFrom_eq alone latest forest top (by omega) path)
  exact gainFrom_nil alone latest (fun path' => different (same_level ((tops root').mp inside) top path' path)) forest

end

/-! ## Methods that agree -/

/-- Neither of two methods of one signature is reported for overriding the other. -/
def Agree (a b : MethodSymbol) : Prop := a.isStatic = b.isStatic ∧ a.function.returns == b.function.returns

theorem Agree.symm (agree : Agree a b) : Agree b a :=
  ⟨agree.1.symm, Ty.same_symm agree.2⟩

theorem Agree.trans {c : MethodSymbol} (first : Agree a b) (second : Agree b c) : Agree a c :=
  ⟨first.1.trans second.1, Ty.same_trans first.2 second.2⟩

theorem overrideReports_nil (nothing : overrideReports a b = []) : Agree a b := by
  obtain ⟨static, returns⟩ := List.append_eq_nil_iff.mp nothing
  constructor
  · by_contra different
    simp [different] at static
  · by_contra different
    simp [bne, different] at returns

theorem methodReports_nil (nothing : methodReports t top m = [])
    (signed : t.signature? m = some key) (found : top key = some ancestor) (theirs : t.method? ancestor = some a)
    (held : t.method? m = some b) : Agree a b := by
  rw [methodReports_eq signed held, found] at nothing
  exact overrideReports_nil (by simpa [theirs] using nothing)

/-- Where a run reports nothing, its own class has nothing to report and the runs below report nothing. -/
theorem reportsFrom_nil (forest : t.Forest) (nothing : reportsFrom t (limit + 1) top id = []) :
    (∀ m ∈ t.methodsOf id, methodReports t top m = []) ∧
      ∀ child, t.Under child id → reportsFrom t limit (topBelow t top id) child = [] := by
  obtain ⟨own, below⟩ := List.append_eq_nil_iff.mp nothing
  rw [List.flatMap_eq_nil_iff] at own below
  exact ⟨own, fun child under => below child (forest.mem_childrenOf.mpr under)⟩

/-- The methods that a silent run meets agree with the topmost method of their signature. -/
theorem agree_top (forest : t.Forest) (depth : t.DepthOf id n)
    (enough : t.symbols.size + 1 < limit + n) (nothing : reportsFrom t limit top id = [])
    (found : top key = some ancestor) (theirs : t.method? ancestor = some a) (path : ReflTransGen t.Under d id)
    (declared : m ∈ t.declares key d) (held : t.method? m = some b) : Agree a b := by
  induction limit generalizing id n top with
  | zero =>
    have bound := depth_bound depth
    omega
  | succ limit ih =>
    obtain ⟨own, below⟩ := reportsFrom_nil forest nothing
    rcases path.cases_tail with rfl | ⟨child, path, under⟩
    · obtain ⟨inside, signed⟩ := mem_declares.mp declared
      exact methodReports_nil (own m inside) signed found theirs held
    · exact ih (.step under depth) (by omega) (below child under) (by simp [topBelow, found]) path

/-- Of two methods of one signature that a silent run meets, one below the other, each agrees with the other:
both agree with the topmost one. -/
theorem agree_below (forest : t.Forest) (owned : t.OwnedMethods) (depth : t.DepthOf id n)
    (enough : t.symbols.size + 1 < limit + n)
    (above : ∀ {ancestor}, top key = some ancestor → (t.method? ancestor).isSome)
    (nothing : reportsFrom t limit top id = []) (path : ReflTransGen t.Under c id) (strict : TransGen t.Under d c)
    (upper : m ∈ t.declares key c) (lower : m' ∈ t.declares key d) (upperHeld : t.method? m = some a)
    (lowerHeld : t.method? m' = some b) : Agree a b := by
  induction limit generalizing id n top with
  | zero =>
    have bound := depth_bound depth
    omega
  | succ limit ih =>
    obtain ⟨own, below⟩ := reportsFrom_nil forest nothing
    rcases path.cases_tail with rfl | ⟨child, path, under⟩
    · obtain ⟨child, path, under⟩ := TransGen.tail'_iff.mp strict
      have beneath {ancestor : SymbolId} {method : MethodSymbol}
          (found : topBelow t top id key = some ancestor) (theirs : t.method? ancestor = some method) :
          Agree method b :=
        agree_top forest (.step under depth) (by omega) (below child under) found theirs path lower lowerHeld
      cases found : top key with
      | none => exact beneath (by simp [topBelow, found, owned.latest_iff.mpr upper]) upperHeld
      | some ancestor =>
        obtain ⟨method, theirs⟩ := Option.isSome_iff_exists.mp (above found)
        obtain ⟨inside, signed⟩ := mem_declares.mp upper
        have first : Agree method a := methodReports_nil (own m inside) signed found theirs upperHeld
        exact first.symm.trans (beneath (by simp [topBelow, found]) theirs)
    · refine ih (.step under depth) (by omega) (fun {ancestor} found => ?_) (below child under) path
      rcases Option.or_eq_some_iff.mp found with old | ⟨_, latest⟩
      · exact above old
      · obtain ⟨method, theirs, _⟩ := owned.owner (mem_declares.mp (owned.latest_iff.mp latest)).1
        simp [theirs]

/-! ## The built table -/

theorem Overridden.sameMethods {gain : SymbolId → List SymbolId} (gained : Overridden gain t t') :
    Table.SameMethods t t' := by
  refine ⟨fun c => by simp only [methodsOf, gained.class_same], fun m => ?_, fun m => ?_⟩
  · simp only [signature?, gained.edited.symbols]
    cases t.symbol? m with
    | none => rfl
    | some sym =>
      cases kind : sym.kind <;>
        simp [Symbol.method?, Symbol.mapKind, kind, addOverriders, SymbolKind.mapMethod, SymbolKind.method?]
  · rw [gained.method, Option.map_map]
    rfl

theorem reportsFrom_ofOverriding {p : Diagnostic} (reported : p ∈ reportsFrom t limit top id) :
    p.cause.ofOverriding := by
  rcases reportsFrom_cause reported with same | same <;> rw [same] <;> rfl

theorem attaches_nodup {kept kept' dropped edges : List Edge} {roots : List SymbolId}
    (attaches : Attaches kept edges kept' dropped roots) :
    roots.Sublist (edges.map Edge.cls) := by
  induction attaches with
  | done => exact .refl _
  | root _ _ ih => exact ih.cons_cons _
  | keep _ _ _ ih => exact ih.cons _
  | drop _ _ _ ih => exact ih.cons_cons _

/-- What the methods of a built hierarchy know about each other. -/
structure Overriding (t : Table) : Prop where
  forest : t.Forest
  owned : t.OwnedMethods
  /-- The overriders of a method are the methods of its signature that classes strictly below its own declare. -/
  overriders : ∀ {m method key}, t.method? m = some method → t.signature? m = some key →
    ∀ x, x ∈ method.overriders ↔ ∃ d, TransGen t.Under d method.owner ∧ x ∈ t.declares key d

/-- Moreover all of them agree. -/
structure Settled (t : Table) : Prop extends Overriding t where
  agree : ∀ {c d m m' a b key}, TransGen t.Under d c → m ∈ t.declares key c → m' ∈ t.declares key d →
    t.method? m = some a → t.method? m' = some b → Agree a b

/-- **Overriding is settled.** A build over freshly declared classes goes through and leaves their methods as they are
declared. Every method knows its overriders, and unless one that overrides wrongly is reported it agrees with them. -/
theorem build_settled {edges : List Edge} {s : AnalysisState} (fresh : FreshClasses s.table)
    (oneEach : OneEdgeEach s.table edges) (owned : s.table.OwnedMethods)
    (bare : ∀ {m method}, s.table.method? m = some method → method.overriders = []) :
    ∃ t' problems, (build edges).run s = .ok ((), ⟨t', s.problems ++ problems⟩) ∧ Table.SameMethods s.table t' ∧
      Overriding t' ∧ ((∀ d ∈ problems, d.cause.ofOverriding = false) → Settled t') := by
  obtain ⟨kept, dropped, roots, depths, linkedTable, deepTable, t', attaches, linked,
    linkedForest, deep, _, gained, ran⟩ :=
    build_run fresh oneEach
  obtain ⟨_, rfl, sub⟩ := attaches_kept attaches
  have linkedMethods : Table.SameMethods s.table linkedTable := linked.edited.sameMethods fun _ _ => rfl
  have deepMethods : Table.SameMethods s.table deepTable :=
    linkedMethods.trans (deep.edited.sameMethods fun _ _ => rfl)
  have tops (root : SymbolId) : root ∈ roots ↔ deepTable.DepthOf root 1 :=
    (roots_top oneEach attaches sub linked).trans ⟨deep.sameLinks.depthOf, deep.sameLinks.symm.depthOf⟩
  have nodup : roots.Nodup := (attaches_nodup attaches).nodup oneEach.once
  have forest := deep.sameLinks.forest linkedForest
  have deepOwned := deepMethods.owned owned
  have enough : deepTable.symbols.size < s.table.symbols.size + 1 := by
    rw [deep.edited.size, linked.edited.size]
    exact Nat.lt_succ_self _
  have under : t'.Under = deepTable.Under := funext fun c => funext fun d => propext gained.sameLinks.under_iff
  have overriding : Overriding t' := by
    refine ⟨gained.sameLinks.forest forest, gained.sameMethods.owned deepOwned, fun {m method key} held signed x => ?_⟩
    rw [gained.method] at held
    obtain ⟨method₀, held₀, rfl⟩ := Option.map_eq_some_iff.mp held
    have none₀ : method₀.overriders = [] := bare (by
      rw [← held₀, deep.edited.method_of_class_mapped, linked.edited.method_of_class_mapped])
    rw [gained.sameMethods.signature] at signed
    simp only [none₀, List.nil_append, under, gained.sameMethods.declares]
    have mine := deepOwned.owner_declares held₀ signed
    have isClass := class_of_declares mine
    have alone (d : SymbolId) (inside : m ∈ deepTable.methodsOf d) : d = method₀.owner :=
      (deepOwned.declares_owner (mem_declares.mpr ⟨inside, signed⟩) held₀).symm
    rw [gain_eq alone (deepOwned.latest_iff.mpr mine) forest nodup tops isClass enough]
    exact forest.mem_declared_below isClass
  refine ⟨t', _, by rw [ran, List.append_assoc], deepMethods.trans gained.sameMethods, overriding,
    fun nothing => ⟨overriding, ?_⟩⟩
  have silent : ∀ root ∈ roots, reportsFrom deepTable (s.table.symbols.size + 1) (fun _ => none) root = [] := by
    intro root inside
    apply List.eq_nil_iff_forall_not_mem.mpr
    intro p reported
    have wrong := nothing p (List.mem_append_right _ (List.mem_flatMap.mpr ⟨root, inside, reported⟩))
    rw [reportsFrom_ofOverriding reported] at wrong
    cases wrong
  intro c d m m' a b key strict upper lower upperHeld lowerHeld
  rw [gained.method] at upperHeld lowerHeld
  obtain ⟨a₀, upperHeld₀, rfl⟩ := Option.map_eq_some_iff.mp upperHeld
  obtain ⟨b₀, lowerHeld₀, rfl⟩ := Option.map_eq_some_iff.mp lowerHeld
  rw [under] at strict
  rw [gained.sameMethods.declares] at upper lower
  obtain ⟨_, _, step⟩ := TransGen.tail'_iff.mp strict
  obtain ⟨root, path, depth⟩ := forest.root_above (forest.closed step)
  have agree₀ : Agree a₀ b₀ := agree_below forest deepOwned depth (by omega) (by simp)
    (silent root ((tops root).mpr depth)) path strict upper lower upperHeld₀ lowerHeld₀
  exact agree₀

end Hierarchy

end Quasicode
