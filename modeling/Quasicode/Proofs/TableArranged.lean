import Quasicode.Proofs.DeclaredTable
import Quasicode.Proofs.TableSound

/-!
The classes of a table and their scopes. The scope of a class hangs under the scope of its superclass, every other scope
under one that was made before it; as the superclasses form a forest, all scopes lead to the top. The depths of classes
tell how far a chain has come, so that two chains that are followed together never pass each other, and the join of two
types always has an answer.
-/
namespace Quasicode

theorem Ty.Proper.isError {a : Ty} (proper : a.Proper) : a.isError = false := by
  cases a with
  | error => exact proper.elim
  | _ => rfl

theorem Ty.Proper.isVoid {a : Ty} (proper : a.Proper) : a.isVoid = false := by
  cases a with
  | void => exact proper.elim
  | _ => rfl

/-- What a class is apart from its members and its depth. -/
def ClassSymbol.shape (c : ClassSymbol) : ClassSymbol := { c.core with depth := none }

@[simp] theorem SymbolKind.class_mapVariable (f : VariableSymbol → VariableSymbol) (kind : SymbolKind) :
    (kind.mapVariable f).class? = kind.class? := by
  cases kind <;> rfl

@[simp] theorem SymbolKind.class_mapMethod (f : MethodSymbol → MethodSymbol) (kind : SymbolKind) :
    (kind.mapMethod f).class? = kind.class? := by
  cases kind <;> rfl

@[simp] theorem SymbolKind.class_mapOverloads (f : OverloadSet → OverloadSet) (kind : SymbolKind) :
    (kind.mapOverloads f).class? = kind.class? := by
  cases kind <;> rfl

namespace Table

variable {bound : Nat} {t t' : Table} {id : SymbolId} {scope : ScopeId} {name : String}
variable {span : Span} {kind : SymbolKind}
  {c k : ClassSymbol} {n : Nat}

/-- Classes form a forest, and their scopes one of the same shape. -/
structure Arranged (t : Table) : Prop where
  forest : t.Forest
  numbered : ∀ {id c}, t.class? id = some c → 1 ≤ c.runtimeId ∧ c.runtimeId ≤ t.classCount
  distinct : ∀ {id id' c c'}, t.class? id = some c → t.class? id' = some c' → c.runtimeId = c'.runtimeId → id = id'
  inner : ∀ {id c}, t.class? id = some c → c.scope ≠ .root
  apart : ∀ {id id' c c'}, t.class? id = some c → t.class? id' = some c' → c.scope = c'.scope → id = id'
  upward : ∀ {scope up}, scope ≠ .root → t.parent? scope = some up → ∃ outer, up = some outer ∧
    (outer.index < scope.index ∨ ∃ id c, t.class? id = some c ∧ c.scope = scope)
  hung : ∀ {id c}, t.class? id = some c → (c.upper = none ∧ t.parent? c.scope = some (some .root)) ∨
    ∃ upper k, c.upper = some upper ∧ t.class? upper = some k ∧ t.parent? c.scope = some (some k.scope)

/-- A class at a depth beyond the first has a superclass one above it. -/
structure Leveled (t : Table) : Prop where
  above : ∀ {id c n}, t.class? id = some c → c.depth = some n →
    n = 1 ∨ ∃ upper k m, c.upper = some upper ∧ t.class? upper = some k ∧ k.depth = some m ∧ 1 ≤ m ∧ n = m + 1

/-- All scopes of such a table lead to the top. -/
theorem Arranged.rooted (arranged : t.Arranged) (sound : t.Sound bound) : t.Rooted := by
  have top : t.Rises .root 0 := .top sound.root
  -- The scope of a class rises along the superclasses, as many steps as the class lies deep.
  have ofClass {id : SymbolId} {n : Nat} (depth : t.DepthOf id n) :
      ∀ c, t.class? id = some c → ∃ m, t.Rises c.scope m := by
    induction depth with
    | root held none =>
      intro c held'
      rcases arranged.hung held' with ⟨_, up⟩ | ⟨upper, k, some, _⟩
      · exact ⟨1, .step up top⟩
      · rw [held] at held'
        cases held'
        rw [none] at some
        cases some
    | step under _ ih =>
      intro c held
      rcases arranged.hung held with ⟨_, up⟩ | ⟨upper, k, some, isClass, up⟩
      · exact ⟨1, .step up top⟩
      · obtain ⟨c', held', same⟩ := under
        rw [held] at held'
        cases held'
        rw [some] at same
        cases same
        obtain ⟨m, rises⟩ := ih k isClass
        exact ⟨m + 1, .step up rises⟩
  rintro ⟨i⟩
  induction i using Nat.strongRecOn with
  | ind i ih =>
    intro inside
    cases up : t.parent? ⟨i⟩ with
    | none =>
      simp only [parent?, Option.map_eq_none_iff, Array.getElem?_eq_none_iff] at up
      exact absurd inside (Nat.not_lt.mpr up)
    | some up' =>
      by_cases isRoot : (⟨i⟩ : ScopeId) = .root
      · exact ⟨0, isRoot ▸ top⟩
      · obtain ⟨outer, rfl, lower | ⟨id, c, held, same⟩⟩ := arranged.upward isRoot up
        · obtain ⟨n, rises⟩ := ih outer.index lower (Nat.lt_trans lower inside)
          exact ⟨n + 1, .step up rises⟩
        · obtain ⟨n, depth⟩ := arranged.forest.depth_exists (c := id) (by simp [held])
          exact same ▸ ofClass depth c held

/-! ## Steps that leave classes as they are -/

/-- Between `t` and `t'` no class has changed its shape or come about, and every new scope lies under an older one. -/
structure SameShapes (t t' : Table) : Prop where
  shapes : ∀ id, (t'.class? id).map ClassSymbol.shape = (t.class? id).map ClassSymbol.shape
  count : t.classCount ≤ t'.classCount
  parents : ∀ {scope}, scope.index < t.scopes.size → t'.parent? scope = t.parent? scope
  newer : ∀ {scope up}, ¬ scope.index < t.scopes.size → t'.parent? scope = some up → ∃ outer, up = some outer ∧
    outer.index < scope.index

namespace SameShapes

variable (same : SameShapes t t')
include same

theorem class_shape (held : t'.class? id = some c) : ∃ k, t.class? id = some k ∧ k.shape = c.shape := by
  have shapes := same.shapes id
  rw [held] at shapes
  obtain ⟨k, held', shape⟩ := Option.map_eq_some_iff.mp shapes.symm
  exact ⟨k, held', shape⟩

theorem class_shape' (held : t.class? id = some c) : ∃ k, t'.class? id = some k ∧ k.shape = c.shape := by
  have shapes := same.shapes id
  rw [held] at shapes
  obtain ⟨k, held', shape⟩ := Option.map_eq_some_iff.mp shapes
  exact ⟨k, held', shape⟩

theorem links : SameLinks t t' := by
  intro id
  have shapes := congrArg (Option.map fun k : ClassSymbol => (k.upper, k.children)) (same.shapes id)
  rw [Option.map_map, Option.map_map] at shapes
  exact shapes

theorem arranged (arranged : t.Arranged) : t'.Arranged := by
  have upperOf {a b : ClassSymbol} (shape : a.shape = b.shape) : a.upper = b.upper :=
    (congrArg ClassSymbol.upper shape :)
  have scopeOf {a b : ClassSymbol} (shape : a.shape = b.shape) : a.scope = b.scope :=
    (congrArg ClassSymbol.scope shape :)
  have numberOf {a b : ClassSymbol} (shape : a.shape = b.shape) : a.runtimeId = b.runtimeId :=
    (congrArg ClassSymbol.runtimeId shape :)
  refine ⟨same.links.forest arranged.forest, ?_, ?_, ?_, ?_, ?_, ?_⟩
  · intro id c held
    obtain ⟨k, held', shape⟩ := same.class_shape held
    obtain ⟨least, most⟩ := arranged.numbered held'
    rw [← numberOf shape]
    exact ⟨least, Nat.le_trans most same.count⟩
  · intro id id' c c' held held' equal
    obtain ⟨k, old, shape⟩ := same.class_shape held
    obtain ⟨k', old', shape'⟩ := same.class_shape held'
    rw [← numberOf shape, ← numberOf shape'] at equal
    exact arranged.distinct old old' equal
  · intro id c held
    obtain ⟨k, held', shape⟩ := same.class_shape held
    rw [← scopeOf shape]
    exact arranged.inner held'
  · intro id id' c c' held held' equal
    obtain ⟨k, old, shape⟩ := same.class_shape held
    obtain ⟨k', old', shape'⟩ := same.class_shape held'
    rw [← scopeOf shape, ← scopeOf shape'] at equal
    exact arranged.apart old old' equal
  · intro scope up inner above
    by_cases inside : scope.index < t.scopes.size
    · rw [same.parents inside] at above
      obtain ⟨outer, isOuter, lower | ⟨id, c, held, own⟩⟩ := arranged.upward inner above
      · exact ⟨outer, isOuter, .inl lower⟩
      · obtain ⟨k, held', shape⟩ := same.class_shape' held
        exact ⟨outer, isOuter, .inr ⟨id, k, held', (scopeOf shape).trans own⟩⟩
    · obtain ⟨outer, isOuter, lower⟩ := same.newer inside above
      exact ⟨outer, isOuter, .inl lower⟩
  · intro id c held
    obtain ⟨k, held', shape⟩ := same.class_shape held
    rw [← scopeOf shape, ← upperOf shape]
    rcases arranged.hung held' with ⟨none, up⟩ | ⟨upper, u, some, isClass, up⟩
    · rw [same.parents (parent_bound up)]
      exact .inl ⟨none, up⟩
    · obtain ⟨u', isClass', shape'⟩ := same.class_shape' isClass
      rw [same.parents (parent_bound up)]
      exact .inr ⟨upper, u', some, isClass', by rw [scopeOf shape']; exact up⟩

end SameShapes

/-- Between `t` and `t'` classes may have got members, and scopes been made. -/
structure SameClasses (t t' : Table) : Prop where
  cores : ∀ id, (t'.class? id).map ClassSymbol.core = (t.class? id).map ClassSymbol.core
  count : t'.classCount = t.classCount
  parents : ∀ {scope}, scope.index < t.scopes.size → t'.parent? scope = t.parent? scope
  newer : ∀ {scope up}, ¬ scope.index < t.scopes.size → t'.parent? scope = some up → ∃ outer, up = some outer ∧
    outer.index < scope.index

namespace SameClasses

theorem shapes (same : SameClasses t t') : SameShapes t t' := by
  refine ⟨fun id => ?_, Nat.le_of_eq same.count.symm, same.parents, same.newer⟩
  have cores := congrArg (Option.map fun k : ClassSymbol => { k with depth := none }) (same.cores id)
  rw [Option.map_map, Option.map_map] at cores
  exact cores

theorem leveled (same : SameClasses t t') (leveled : t.Leveled) : t'.Leveled := by
  refine ⟨fun {id c n} held depth => ?_⟩
  have core := same.cores id
  rw [held] at core
  obtain ⟨k, held', core⟩ := Option.map_eq_some_iff.mp core.symm
  have depth' : k.depth = some n := (congrArg ClassSymbol.depth core).trans depth
  rcases leveled.above held' depth' with first | ⟨upper, u, m, some, isClass, deep, rest⟩
  · exact .inl first
  · have core' := same.cores upper
    rw [isClass] at core'
    obtain ⟨u', isClass', sameCore⟩ := Option.map_eq_some_iff.mp core'
    refine .inr ⟨upper, u', m, ?_, isClass', ?_, rest⟩
    · exact (congrArg ClassSymbol.upper core).symm.trans some
    · exact (congrArg ClassSymbol.depth sameCore).trans deep

theorem refl (t : Table) : SameClasses t t :=
  ⟨fun _ => rfl, rfl, fun _ => rfl, fun outside up => absurd (parent_bound up) outside⟩

theorem trans {t'' : Table} (first : SameClasses t t') (grows : t.scopes.size ≤ t'.scopes.size)
    (second : SameClasses t' t'') :
    SameClasses t t'' := by
  refine ⟨fun id => (second.cores id).trans (first.cores id), second.count.trans first.count, fun {scope} inside => ?_,
    fun {scope _} outside up => ?_⟩
  · rw [second.parents (Nat.lt_of_lt_of_le inside grows), first.parents inside]
  · by_cases middle : scope.index < t'.scopes.size
    · rw [second.parents middle] at up
      exact first.newer outside up
    · exact second.newer middle up

/-- Symbols other than classes are declared. -/
theorem declare (adds : Adds scope name span kind t t') (noClass : kind.class? = none) : SameClasses t t' := by
  refine ⟨fun id => ?_, ?_, fun _ => adds.parents _, fun outside up => ?_⟩
  · rw [adds.declares.class_same noClass]
  · rw [adds.declares.classCount, noClass]
    rfl
  · rw [adds.parents] at up
    exact absurd (parent_bound up) outside

theorem createScope (inside : scope.index < t.scopes.size) : SameClasses t (t.createScope scope).2 := by
  refine ⟨fun _ => rfl, rfl, fun {asked} old => ?_, fun {asked _} outside up => ?_⟩
  · rw [createScope_parent, if_neg]
    rintro rfl
    exact Nat.lt_irrefl _ old
  · rw [createScope_parent] at up
    split at up
    next new =>
      cases up
      exact ⟨scope, rfl, new ▸ inside⟩
    next => exact absurd (parent_bound up) outside

/-- A change of kinds that no class notices, but for its members. -/
theorem edit {f : SymbolKind → SymbolKind}
    (kept : ∀ kind, (f kind).class?.map ClassSymbol.core = kind.class?.map ClassSymbol.core) :
    SameClasses t (t.edit id f) := by
  refine ⟨fun j => ?_, rfl, fun _ => rfl, fun outside up => absurd (parent_bound up) outside⟩
  unfold class?
  rw [edit_symbol?]
  cases t.symbol? j with
  | none => rfl
  | some s =>
    by_cases here : j = id
    · simpa [here, Symbol.class?, Symbol.mapKind] using kept s.kind
    · simp [here]

end SameClasses

/-! ## New classes -/

/-- A class is declared with a scope of its own that was just made; nothing lies above or below it yet. -/
theorem Arranged.declare_class (arranged : t.Arranged) (sound : t.Sound bound)
    (adds : Adds .root name span (.cls c) (t.createScope .root).2 t')
    (own : c.scope = (t.createScope .root).1) (unlinked : c.upper = none ∧ c.children = []) : t'.Arranged := by
  have middle := (SameClasses.createScope (t := t) sound.rootInside).shapes.arranged arranged
  have soundMiddle := sound.createScope .root
  generalize mid : (t.createScope .root).2 = t₁ at adds middle soundMiddle
  have declares := adds.declares
  have count : t'.classCount = t₁.classCount + 1 := declares.classCount
  have fresh : c.scope.index = t.scopes.size := congrArg ScopeId.index own
  -- No class has the new scope yet, as all of them had theirs before it was made.
  have others {id : SymbolId} {k : ClassSymbol} (held : t₁.class? id = some k) : k.scope ≠ c.scope := by
    subst mid
    have inside : k.scope.index < t.scopes.size := (sound.class_sound held).scope
    intro same
    rw [same, fresh] at inside
    exact Nat.lt_irrefl _ inside
  have cases_ {id : SymbolId} {k : ClassSymbol} (held : t'.class? id = some k) :
      (id = ⟨t₁.symbols.size⟩ ∧ k = { c with runtimeId := t'.classCount }) ∨ t₁.class? id = some k := by
    rw [declares.class_eq] at held
    split at held
    next same => exact .inl ⟨same, (Option.some.inj held).symm⟩
    next => exact .inr held
  have underOld {a b : SymbolId} (under : t'.Under a b) : t₁.Under a b := by
    obtain ⟨k, held, upper⟩ := under
    rcases cases_ held with ⟨_, rfl⟩ | old
    · simp [unlinked.1] at upper
    · exact ⟨k, old, upper⟩
  have underNew {a b : SymbolId} (under : t₁.Under a b) : t'.Under a b := by
    obtain ⟨k, held, upper⟩ := under
    exact ⟨k, declares.class_old held, upper⟩
  refine ⟨⟨?_, ?_, ?_, ?_⟩, ?_, ?_, ?_, ?_, ?_, ?_⟩
  · intro a b under
    obtain ⟨k, held⟩ := Option.isSome_iff_exists.mp (middle.forest.closed (underOld under))
    simp [declares.class_old held]
  · intro a cycle
    exact middle.forest.acyclic a (Relation.TransGen.mono (fun _ _ => underOld) _ _ cycle)
  · intro a b u held
    rcases cases_ held with ⟨rfl, rfl⟩ | old
    · simp only [unlinked.2, List.not_mem_nil, false_iff]
      intro under
      have held := middle.forest.closed (underOld under)
      simp [class?, symbol?] at held
    · rw [middle.forest.children old]
      exact ⟨underNew, underOld⟩
  · intro b u held
    rcases cases_ held with ⟨rfl, rfl⟩ | old
    · simp [unlinked.2]
    · exact middle.forest.distinct old
  · intro id k held
    rcases cases_ held with ⟨rfl, rfl⟩ | old
    · exact ⟨by simp [count], Nat.le_refl _⟩
    · obtain ⟨least, most⟩ := middle.numbered old
      exact ⟨least, by omega⟩
  · intro id id' k k' held held' equal
    rcases cases_ held with ⟨rfl, rfl⟩ | old <;> rcases cases_ held' with ⟨rfl, rfl⟩ | old'
    · rfl
    · have most := (middle.numbered old').2
      simp only at equal
      omega
    · have most := (middle.numbered old).2
      simp only at equal
      omega
    · exact middle.distinct old old' equal
  · intro id k held
    rcases cases_ held with ⟨rfl, rfl⟩ | old
    · intro root
      have inside := sound.rootInside
      rw [← root] at inside
      simp only at inside
      omega
    · exact middle.inner old
  · intro id id' k k' held held' equal
    rcases cases_ held with ⟨rfl, rfl⟩ | old <;> rcases cases_ held' with ⟨rfl, rfl⟩ | old'
    · rfl
    · exact absurd equal.symm (others old')
    · exact absurd equal (others old)
    · exact middle.apart old old' equal
  · intro scope up inner above
    rw [adds.parents] at above
    obtain ⟨outer, isOuter, lower | ⟨id, k, held, same⟩⟩ := middle.upward inner above
    · exact ⟨outer, isOuter, .inl lower⟩
    · exact ⟨outer, isOuter, .inr ⟨id, k, declares.class_old held, same⟩⟩
  · intro id k held
    simp only [adds.parents]
    rcases cases_ held with ⟨rfl, rfl⟩ | old
    · refine .inl ⟨unlinked.1, ?_⟩
      simp only [own, ← mid, createScope_parent, if_true]
    · rcases middle.hung old with top | ⟨upper, u, some, isClass, up⟩
      · exact .inl top
      · exact .inr ⟨upper, u, some, declares.class_old isClass, up⟩

theorem Leveled.declare_class (leveled : t.Leveled) (adds : Adds scope name span (.cls c) t t')
    (unknown : c.depth = none) :
    t'.Leveled := by
  refine ⟨fun {id k n} held depth => ?_⟩
  rw [adds.declares.class_eq] at held
  split at held
  · cases held
    simp [unknown] at depth
  · rcases leveled.above held depth with first | ⟨upper, u, m, some, isClass, rest⟩
    · exact .inl first
    · exact .inr ⟨upper, u, m, some, adds.declares.class_old isClass, rest⟩

/-! ## Chains -/

theorem class_of_link {link : ClassLink} (held : t.classLink id = some link) :
    ∃ c, t.class? id = some c ∧ c.depth = some link.depth ∧ c.upper = link.upper := by
  simp only [classLink, Option.bind_eq_bind, Option.bind_eq_some_iff, Option.pure_def] at held
  obtain ⟨s, found, c, isClass, depth, known, same⟩ := held
  cases same
  exact ⟨c, by simp [class?, symbol?, found, isClass], known, rfl⟩

theorem link_of_class (held : t.class? id = some c) (known : c.depth = some n) :
    t.classLink id = some { name := c.displayName, depth := n, upper := c.upper } := by
  obtain ⟨s, found, isClass⟩ := class_symbol held
  unfold symbol? at found
  simp [classLink, found, isClass, known]

/-- A chain that starts at a given depth or below it comes past a class of that depth. -/
theorem Leveled.reaches (leveled : t.Leveled) {depth : Nat} (limit : Nat) (positive : 1 ≤ depth) {link : ClassLink}
    (held : t.classLink id = some link) (deep : depth ≤ link.depth) :
    ∀ first rest, ((t.classes.climb limit id).dropWhile fun (_, link) => depth < link.depth) = first :: rest →
      first.2.depth = depth := by
  induction limit generalizing id link with
  | zero =>
    intro first rest here
    cases here
  | succ limit ih =>
    intro first rest here
    have found : t.classes.link id = some link := held
    simp only [ClassView.climb, found] at here
    by_cases more : depth < link.depth
    · rw [List.dropWhile_cons_of_pos (by simpa using more)] at here
      obtain ⟨c, isClass, known, upperSame⟩ := class_of_link held
      rcases leveled.above isClass known with top | ⟨upper, u, m, some, isClass', known', _, next⟩
      · omega
      · simp only [← upperSame, some] at here
        exact ih (link_of_class isClass' known') (by simp only; omega) first rest here
    · rw [List.dropWhile_cons_of_neg (by simpa using more)] at here
      cases here
      simp only
      omega

theorem shared_class {as bs : List (SymbolId × ClassLink)} {found : SymbolId × ClassLink}
    (links : ∀ entry ∈ as, t.classLink entry.1 = some entry.2) (shared : ClassView.firstShared as bs = some found) :
    t.classLink found.1 = some found.2 := by
  induction as generalizing bs with
  | nil => cases shared
  | cons a as ih =>
    cases bs with
    | nil => cases shared
    | cons b bs =>
      simp only [ClassView.firstShared] at shared
      split at shared
      · cases shared
        exact links a List.mem_cons_self
      · exact ih (fun entry inside => links entry (List.mem_cons_of_mem _ inside)) shared

theorem climb_links {limit : Nat} : ∀ entry ∈ t.classes.climb limit id, t.classLink entry.1 = some entry.2 := by
  induction limit generalizing id with
  | zero => simp [ClassView.climb]
  | succ limit ih =>
    intro entry inside
    simp only [ClassView.climb, classes] at inside
    split at inside
    · cases inside
    next link held =>
      rcases List.mem_cons.mp inside with rfl | inside
      · exact held
      · split at inside
        · cases inside
        · exact ih entry inside

/-- The nearest common ancestor of two classes is a class, if there is one. -/
theorem Leveled.meet (leveled : t.Leveled) (a b : SymbolId) :
    ∃ found, t.classes.meet a b = .ok found ∧ ∀ entry, found = some entry → (t.class? entry.1).isSome := by
  have from_ {deep shallow : SymbolId} {link other : ClassLink} (held : t.classLink deep = some link)
      (held' : t.classLink shallow = some other) (le : other.depth ≤ link.depth) :
      ∃ found, t.classes.meetFrom deep shallow other.depth = .ok found ∧
        ∀ entry, found = some entry → (t.class? entry.1).isSome := by
    have positive : 1 ≤ other.depth := by
      obtain ⟨c, isClass, known, _⟩ := class_of_link held'
      rcases leveled.above isClass known with top | ⟨_, _, _, _, _, _, _, next⟩
      · omega
      · omega
    unfold ClassView.meetFrom
    have reaches := leveled.reaches t.classes.count positive held le
    split
    · exact ⟨none, rfl, by simp⟩
    next first link' rest here =>
      rw [if_pos (reaches _ _ here)]
      refine ⟨_, rfl, fun entry shared => ?_⟩
      obtain ⟨c, isClass, _⟩ := class_of_link (shared_class climb_links shared)
      simp [isClass]
  unfold ClassView.meet
  split
  next aLink bLink held held' =>
    split
    next less => exact from_ held' held (Nat.le_of_lt less)
    next more => exact from_ held held' (Nat.le_of_not_lt more)
  · exact ⟨none, rfl, by simp⟩

/-- **The join has an answer.** It mentions only what its arguments or the table mention, and of proper types it is
proper. -/
theorem Leveled.join (leveled : t.Leveled) {a b : Ty} (belowA : a.Below t.symbols.size)
    (belowB : b.Below t.symbols.size) :
    ∃ c, Ty.join t.classes a b = .ok c ∧ c.Below t.symbols.size ∧ (a.Proper → b.Proper → c.Proper) := by
  fun_induction Ty.join t.classes a b with
  | case1 a b error =>
    refine ⟨.error, rfl, trivial, fun properA properB => ?_⟩
    simp [properA.isError, properB.isError] at error
  | case2 a b _ void =>
    refine ⟨.void, rfl, trivial, fun properA properB => ?_⟩
    simp [properA.isVoid, properB.isVoid] at void
  | case3 a => exact ⟨a, rfl, belowA, fun proper _ => proper⟩
  | case7 x y _ _ _ _ ih =>
    obtain ⟨c, joined, below, proper⟩ := ih belowA belowB
    exact ⟨.array c, by rw [joined]; rfl, below, proper⟩
  | case8 _ x _ y =>
    obtain ⟨found, met, isClass⟩ := leveled.meet x y
    rw [met]
    cases found with
    | none => exact ⟨.any, rfl, trivial, fun _ _ => trivial⟩
    | some entry => exact ⟨.ofClass entry.2.name entry.1, rfl, class_bound (isClass entry rfl), fun _ _ => trivial⟩
  | _ => exact ⟨_, rfl, trivial, fun _ _ => trivial⟩

/-- A class and those above it are classes of the table. -/
theorem Arranged.ancestry (arranged : t.Arranged) (below : id.index < t.symbols.size) :
    ∃ chain, t.ancestry id = .ok chain ∧ ∀ entry ∈ chain, t.class? entry.1 = some entry.2 := by
  have step {id : SymbolId} {n limit : Nat} (depth : t.DepthOf id n) (enough : n ≤ limit) :
      ∃ chain, t.ancestryWithin limit id = .ok chain ∧ ∀ entry ∈ chain, t.class? entry.1 = some entry.2 := by
    induction depth generalizing limit with
    | @root c k held top =>
      obtain ⟨limit, rfl⟩ := Nat.exists_eq_add_of_le enough
      obtain ⟨s, found, isClass⟩ := class_symbol held
      refine ⟨[(c, k)], ?_, by simp [held]⟩
      simp [Nat.add_comm 1, ancestryWithin, get_symbol found, isClass, top]
    | @step c d n under rest ih =>
      obtain ⟨limit, rfl⟩ := Nat.exists_eq_add_of_le enough
      obtain ⟨k, held, upper⟩ := under
      obtain ⟨s, found, isClass⟩ := class_symbol held
      obtain ⟨chain, ran, all⟩ := ih (Nat.le_add_right n limit)
      refine ⟨(c, k) :: chain, ?_, List.forall_mem_cons.mpr ⟨held, all⟩⟩
      have index : n + 1 + limit = (n + limit) + 1 := by omega
      simp [index, ancestryWithin, get_symbol found, isClass, upper, ran]
  obtain ⟨s, found⟩ := symbol_exists below
  cases isClass : s.class? with
  | none => exact ⟨[], by simp [Table.ancestry, ancestryWithin, get_symbol found, isClass], by simp⟩
  | some c =>
    obtain ⟨n, depth⟩ := arranged.forest.depth_exists (c := id) (by simp [class?, found, isClass])
    exact step depth (Nat.le_succ_of_le (depth_bound depth))

end Table

end Quasicode
