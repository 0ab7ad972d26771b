import Quasicode.Proofs.OverrideSets

/-!
The order of the overriders. A method of a class knows the methods of its signature in the classes below in the order of
a walk that meets each class before those below it, whatever the order in which the entries from below are taken over.
Each method that disagrees with the topmost one above it is reported where the walk meets it.
-/
namespace Quasicode

open Relation

namespace Table

variable {t t' : Table} {c d id m x : SymbolId} {key : String} {limit n : Nat}

/-! ## Walks over the classes -/

/-- Walks from different classes of one depth do not meet. -/
theorem Forest.nodup_walks (forest : t.Forest) {starts : List SymbolId} (nodup : starts.Nodup)
    (depth : ∀ c ∈ starts, t.DepthOf c n) (enough : t.symbols.size + 1 < limit + n)
    (each : ∀ c ∈ starts, (t.classesFrom limit c).Nodup) : (starts.flatMap (t.classesFrom limit)).Nodup := by
  refine List.nodup_flatMap.mpr
    ⟨each, nodup.imp_of_mem fun {c d} first second different x inside inside' => different ?_⟩
  exact same_level (depth c first) (depth d second) ((forest.mem_classesFrom (depth c first) enough).mp inside)
    ((forest.mem_classesFrom (depth d second) enough).mp inside')

theorem Forest.nodup_classesFrom (forest : t.Forest) (depth : t.DepthOf id n)
    (enough : t.symbols.size + 1 < limit + n) :
    (t.classesFrom limit id).Nodup := by
  induction limit generalizing id n with
  | zero => exact List.nodup_nil
  | succ limit ih =>
    have below {child : SymbolId} (inside : child ∈ t.childrenOf id) : t.DepthOf child (n + 1) :=
      .step (forest.mem_childrenOf.mp inside) depth
    refine List.nodup_cons.mpr ⟨fun again => ?_, ?_⟩
    · obtain ⟨child, inside, found⟩ := List.mem_flatMap.mp again
      have path := (forest.mem_classesFrom (below inside) (by omega)).mp found
      exact forest.acyclic id (.tail' path (forest.mem_childrenOf.mp inside))
    · exact forest.nodup_walks forest.nodup_childrenOf (fun _ => below) (by omega)
        fun child inside => ih (below inside) (by omega)

/-- The methods of each class are its own: no class lists one twice or has two of one signature, and no two classes
share one. None of them is overridden yet. -/
structure DeclaredMethods (t : Table) : Prop where
  nodup : ∀ c, (t.methodsOf c).Nodup
  once : ∀ {key c m m'}, m ∈ t.declares key c → m' ∈ t.declares key c → m = m'
  apart : ∀ {c d m}, m ∈ t.methodsOf c → m ∈ t.methodsOf d → c = d
  bare : ∀ {m method}, t.method? m = some method → method.overriders = []

/-- The walks from the classes right below a class meet every method once. -/
theorem Forest.nodup_declared_below (forest : t.Forest) (methods : t.DeclaredMethods) (isClass : (t.class? c).isSome) :
    ((t.childrenOf c).flatMap (t.declaredFrom key (t.symbols.size + 1))).Nodup := by
  obtain ⟨n, depth⟩ := forest.depth_exists isClass
  have below {child : SymbolId} (inside : child ∈ t.childrenOf c) : t.DepthOf child (n + 1) :=
    .step (forest.mem_childrenOf.mp inside) depth
  have walks : ((t.childrenOf c).flatMap (t.classesFrom (t.symbols.size + 1))).Nodup :=
    forest.nodup_walks forest.nodup_childrenOf (fun _ => below) (by omega) fun child inside =>
      forest.nodup_classesFrom (below inside) (by omega)
  rw [declaredFrom_classes, ← List.flatMap_assoc]
  refine List.nodup_flatMap.mpr ⟨fun d _ => (methods.nodup d).filter _,
    walks.imp fun {d d'} different x inside inside' => different ?_⟩
  exact methods.apart (mem_declares.mp inside).1 (mem_declares.mp inside').1

/-- The topmost method of a signature in the classes above a class, of which there are at most `limit`. -/
def topAbove (t : Table) : Nat → SymbolId → String → Option SymbolId
  | 0, _, _ => none
  | limit + 1, c, key =>
    ((t.class? c).bind ClassSymbol.upper).bind fun d => (t.topAbove limit d key).or (t.latest key d)

theorem topAbove_under (under : t.Under c d) :
    t.topAbove (limit + 1) c = Hierarchy.topBelow t (t.topAbove limit d) d := by
  obtain ⟨k, held, upper⟩ := under
  funext key
  simp [topAbove, Hierarchy.topBelow, held, upper]

theorem topAbove_depth (depth : t.DepthOf c n) (enough : n ≤ limit) : t.topAbove limit c = t.topAbove n c := by
  induction depth generalizing limit with
  | root held top =>
    obtain ⟨limit, rfl⟩ := Nat.exists_eq_succ_of_ne_zero (Nat.ne_of_gt enough)
    funext key
    simp [topAbove, held, top]
  | step under rest ih =>
    obtain ⟨limit, rfl⟩ := Nat.exists_eq_succ_of_ne_zero (Nat.ne_of_gt (Nat.lt_of_lt_of_le (Nat.succ_pos _) enough))
    rw [topAbove_under under, topAbove_under under, ih (Nat.le_of_succ_le_succ enough)]

end Table

namespace Hierarchy

open Analysis Table

variable {t t' : Table} {c d id m x : SymbolId} {key : String} {limit n : Nat} {roots : List SymbolId}
variable {edges : List Edge} {order : Order}

/-! ## What is reported -/

theorem reportsFrom_eq (forest : t.Forest) (depth : t.DepthOf id n) : reportsFrom t limit (t.topAbove n id) id =
    (t.classesFrom limit id).flatMap
    fun c => (t.methodsOf c).flatMap (methodReports t (t.topAbove t.symbols.size c)) := by
  induction limit generalizing id n with
  | zero => rfl
  | succ limit ih =>
    rw [reportsFrom, classesFrom, List.flatMap_cons, topAbove_depth depth (depth_bound depth), List.flatMap_assoc]
    refine congrArg (_ ++ ·) (List.flatMap_congr fun child inside => ?_)
    have under := forest.mem_childrenOf.mp inside
    rw [← topAbove_under under]
    exact ih (.step under depth)

/-! ## The build -/

theorem sameMethods_declared (same : SameMethods t t') (methods : t.DeclaredMethods)
    (bare : ∀ {m method}, t'.method? m = some method → method.overriders = []) : t'.DeclaredMethods := by
  refine ⟨fun c => ?_, fun {key c m m'} => ?_, fun {c d m} => ?_, bare⟩
  · rw [same.methodsOf]
    exact methods.nodup c
  · rw [same.declares]
    exact methods.once
  · rw [same.methodsOf, same.methodsOf]
    exact methods.apart

namespace Overridden

variable {gain : SymbolId → List SymbolId} (gained : Overridden gain t t')
include gained

theorem childrenOf : t'.childrenOf = t.childrenOf := by
  funext c
  simp only [Table.childrenOf, gained.class_same]

theorem declares : t'.declares = t.declares := by
  funext key c
  exact gained.sameMethods.declares

theorem classesFrom : t'.classesFrom limit = t.classesFrom limit := by
  induction limit with
  | zero => rfl
  | succ limit ih =>
    funext id
    simp only [Table.classesFrom, gained.childrenOf, ih]

theorem topAbove : t'.topAbove limit = t.topAbove limit := by
  induction limit with
  | zero => rfl
  | succ limit ih =>
    funext c key
    simp only [Table.topAbove, gained.class_same, ih, latest, gained.declares]

theorem methodReports {top : String → Option SymbolId} : methodReports t' top = Hierarchy.methodReports t top := by
  funext m
  unfold Hierarchy.methodReports
  rw [gained.sameMethods.signature, gained.method]
  cases t.signature? m with
  | none => rfl
  | some key =>
    cases t.method? m with
    | none => rfl
    | some method =>
      cases found : top key with
      | none => simp [found]
      | some ancestor =>
        simp only [Option.map_some, found, Option.bind_some, gained.method]
        cases t.method? ancestor <;> rfl

end Overridden

/-- **Override sets.** A build over freshly declared classes goes through, in whatever order it takes over the entries
from below. The overriders of a method are the methods of its signature in the classes strictly below its own, each once
and in the order of the walks from the classes right below. Besides the dropped edges it reports, class by class and
each class once, what is wrong with the methods of the class below the topmost methods of their signatures. -/
theorem build_overrides {s : AnalysisState} (fresh : FreshClasses s.table) (oneEach : OneEdgeEach s.table edges)
    (methods : s.table.DeclaredMethods) (permutes : ∀ c found, (order c found).Perm found) :
    ∃ (dropped : List Edge) (classes : List SymbolId) (t' : Table), (buildIn order edges).run s = .ok
        ((), ⟨t', s.problems ++ dropped.map (selfReport s.table) ++
        classes.flatMap fun c => (t'.methodsOf c).flatMap (methodReports t' (t'.topAbove t'.symbols.size c))⟩) ∧
      classes.Nodup ∧ (∀ c, c ∈ classes ↔ (t'.class? c).isSome) ∧ SameMethods s.table t' ∧
      ∀ {c m key method}, m ∈ t'.declares key c → t'.method? m = some method →
        method.overriders = (t'.childrenOf c).flatMap (t'.declaredFrom key (t'.symbols.size + 1)) ∧
        method.overriders.Nodup ∧ ∀ x, x ∈ method.overriders ↔ ∃ d, TransGen t'.Under d c ∧ x ∈ t'.declares key d := by
  obtain ⟨kept, dropped, roots, depths, linkedTable, t, t', attaches, linked, linkedForest, deep, _, gained, ran⟩ :=
    build_run fresh oneEach permutes
  obtain ⟨_, rfl, sub⟩ := attaches_kept attaches
  have same : SameMethods s.table t :=
    (linked.edited.sameMethods fun _ _ => rfl).trans (deep.edited.sameMethods fun _ _ => rfl)
  have bare {m : SymbolId} {method : MethodSymbol} (held : t.method? m = some method) : method.overriders = [] := by
    rw [deep.edited.method_of_class_mapped, linked.edited.method_of_class_mapped] at held
    exact methods.bare held
  have methods := sameMethods_declared same methods bare
  have forest := deep.sameLinks.forest linkedForest
  have tops (root : SymbolId) : root ∈ roots ↔ t.DepthOf root 1 :=
    (roots_top oneEach attaches sub linked).trans ⟨deep.sameLinks.depthOf, deep.sameLinks.symm.depthOf⟩
  have nodup : roots.Nodup := (attaches_nodup attaches).nodup oneEach.once
  have size : t'.symbols.size = t.symbols.size := gained.edited.size
  have size₀ : s.table.symbols.size = t.symbols.size := by rw [deep.edited.size, linked.edited.size]
  rw [size₀] at ran gained
  have under : t'.Under = t.Under := funext fun c => funext fun d => propext gained.sameLinks.under_iff
  have walked : (roots.flatMap (t.classesFrom (t.symbols.size + 1))).Nodup :=
    forest.nodup_walks nodup (fun root => (tops root).mp) (by omega) fun root inside =>
      forest.nodup_classesFrom ((tops root).mp inside) (by omega)
  refine ⟨dropped, roots.flatMap (t.classesFrom (t.symbols.size + 1)), t', ?_, walked, fun c => ?_,
    same.trans gained.sameMethods, fun {c m key method} mine held => ?_⟩
  · rw [ran, List.flatMap_assoc]
    refine congrArg (fun found => Except.ok ((), AnalysisState.mk t' (_ ++ found)))
      (List.flatMap_congr fun root inside => ?_)
    have depth := (tops root).mp inside
    have none : (fun _ => none) = t.topAbove 1 root := by
      generalize one : 1 = n at depth
      cases depth with
      | root held top =>
        funext key
        simp [Table.topAbove, held, top]
      | step _ above =>
        have positive := depth_positive above
        omega
    rw [none, reportsFrom_eq forest depth]
    simp only [gained.sameMethods.methodsOf, size, gained.topAbove, gained.methodReports]
  · rw [gained.class_same, List.mem_flatMap]
    constructor
    · rintro ⟨root, inside, met⟩
      have path := (forest.mem_classesFrom ((tops root).mp inside) (by omega)).mp met
      rcases path.cases_head with rfl | ⟨_, ⟨k, held, _⟩, _⟩
      · exact depth_class ((tops _).mp inside)
      · simp [held]
    · intro isClass
      obtain ⟨root, path, depth⟩ := forest.root_above isClass
      exact ⟨root, (tops root).mpr depth, (forest.mem_classesFrom depth (by omega)).mpr path⟩
  · rw [gained.sameMethods.declares] at mine
    rw [gained.method] at held
    obtain ⟨method₀, held₀, rfl⟩ := Option.map_eq_some_iff.mp held
    have isClass := class_of_declares mine
    have latest : t.latest key c = some m := by
      obtain ⟨last, found⟩ := Option.isSome_iff_exists.mp (List.getLast?_isSome.mpr (List.ne_nil_of_mem mine))
      rw [Table.latest, found, methods.once (List.mem_of_getLast? found) mine]
    have overriders := gain_eq (fun d inside => methods.apart inside (mem_declares.mp mine).1) latest
      forest nodup tops isClass (Nat.lt_succ_self _)
    simp only [bare held₀, List.nil_append, overriders, size, gained.childrenOf, under, gained.declares,
      declaredFrom_classes, gained.classesFrom]
    rw [← declaredFrom_classes]
    exact ⟨trivial, forest.nodup_declared_below methods isClass, fun x => forest.mem_declared_below isClass⟩

/-- Two classes, of which the second overrides a method of the first by a static one. -/
def pairTable : Table :=
  let cls (place : Nat) (name : String) : Symbol :=
    (freshClass place name).mapKind (·.mapClass ({ · with methods := [⟨place + 2⟩] }))
  let method (place : Nat) (isStatic : Bool) : Symbol :=
    ⟨⟨place⟩, "f", .none, ⟨place - 1⟩, .method ⟨⟨.int, [], 0, 0⟩, ⟨place - 2⟩, isStatic, .exposed, false, [],
      false, .none, none, none⟩⟩
  ⟨.replicate 3 { parent := none }, #[cls 0 "A", cls 1 "B", method 2 false, method 3 true], .root, 2⟩

def pairEdges : List Edge := [⟨⟨0⟩, none, .none⟩, ⟨⟨1⟩, some ⟨0⟩, .none⟩]

theorem pair_fresh : FreshClasses pairTable := by
  refine ⟨?_, ?_, ?_, ?_, ?_⟩
  · rintro ⟨_ | _ | _ | _ | i⟩ _ ⟨⟩ <;> decide
  · rintro ⟨_ | _ | _ | _ | i⟩ _ ⟨⟩ <;> decide
  · rintro ⟨_ | _ | _ | _ | i⟩ ⟨_ | _ | _ | _ | j⟩ _ _ ⟨⟩ ⟨⟩ same <;> first | rfl | cases same
  · rintro ⟨_ | _ | _ | _ | i⟩ _ ⟨⟩ <;> decide
  · rintro ⟨_ | _ | _ | _ | i⟩ _ ⟨⟩ <;> decide

theorem pair_edges : OneEdgeEach pairTable pairEdges := by
  refine ⟨by decide, ?_, ?_⟩
  · rintro ⟨_ | _ | _ | _ | i⟩
    · decide
    · decide
    · decide
    · decide
    · exact ⟨fun inside => by simp [pairEdges] at inside, fun isClass => by cases isClass⟩
  · simp only [pairEdges, List.forall_mem_cons]
    exact ⟨by simp, by rintro _ ⟨⟩; rfl, by simp⟩

theorem pair_methods : pairTable.DeclaredMethods := by
  have single : ∀ {c m}, m ∈ pairTable.methodsOf c → m = ⟨c.index + 2⟩ := by
    rintro ⟨_ | _ | _ | _ | i⟩ m inside <;> first | exact List.mem_singleton.mp inside | cases inside
  refine ⟨?_, fun first second => ?_, fun {c d m} first second => ?_, ?_⟩
  · rintro ⟨_ | _ | _ | _ | i⟩ <;> first | exact List.nodup_singleton _ | exact List.nodup_nil
  · exact (single (mem_declares.mp first).1).trans (single (mem_declares.mp second).1).symm
  · have same : (⟨c.index + 2⟩ : SymbolId) = ⟨d.index + 2⟩ := (single first).symm.trans (single second)
    exact SymbolId.ext (by simpa using same)
  · rintro ⟨_ | _ | _ | _ | i⟩ _ ⟨⟩ <;> rfl

theorem pair_overrides : ∃ (dropped : List Edge) (classes : List SymbolId) (t' : Table),
      (build pairEdges).run { table := pairTable } =
      .ok ((), ⟨t', dropped.map (selfReport pairTable) ++ classes.flatMap fun c => (t'.methodsOf c).flatMap
        (methodReports t' (t'.topAbove t'.symbols.size c))⟩) ∧
    classes.Nodup ∧ (∀ c, c ∈ classes ↔ (t'.class? c).isSome) ∧ SameMethods pairTable t' ∧
    ∀ {c m key method}, m ∈ t'.declares key c → t'.method? m = some method →
      method.overriders = (t'.childrenOf c).flatMap (t'.declaredFrom key (t'.symbols.size + 1)) ∧
      method.overriders.Nodup ∧ ∀ x, x ∈ method.overriders ↔ ∃ d, TransGen t'.Under d c ∧ x ∈ t'.declares key d :=
  @build_overrides _ _ { table := pairTable } pair_fresh pair_edges pair_methods fun _ _ => .refl _

end Hierarchy

end Quasicode
