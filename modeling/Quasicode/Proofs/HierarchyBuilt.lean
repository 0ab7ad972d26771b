import Quasicode.Proofs.HierarchyOverride

/-!
The hierarchy as a whole. From freshly declared classes and one edge for each, the build always goes through: it
drops one edge of every cycle and keeps all others, the kept ones form a forest, and every class gets its depth.
-/
namespace Quasicode.Hierarchy

open Relation Analysis

variable {kept dropped edges : List Edge} {roots : List SymbolId} {t t' : Table} {c d id : SymbolId}
  {depths : SymbolId → Option Nat} {gain : SymbolId → List SymbolId} {limit : Nat} {order : Order}

/-! ## What the later runs leave alone -/

theorem Deep.sameLinks (deep : Deep depths t t') : Table.SameLinks t t' := by
  intro id
  rw [deep_class deep, Option.map_map]
  rfl

theorem Overridden.sameLinks (gained : Overridden gain t t') : Table.SameLinks t t' := by
  intro id
  rw [gained.class_same]

/-! ## The parts of the build -/

/-- The overriding runs from several classes. -/
theorem overrideAll_run (permutes : ∀ c found, (order c found).Perm found) (forest : t.Forest)
    (methods : ∀ {id c}, t.class? id = some c → ∀ m ∈ c.methods, (t.symbol? m).isSome)
    (classes : ∀ root ∈ roots, (t.class? root).isSome) (enough : t.symbols.size < limit) {s : AnalysisState}
    (gained : Overridden gain t s.table) :
    ∃ t', (roots.forM fun root => do let _ ← findOverrides order limit [] root).run s =
        .ok ((), ⟨t', s.problems ++ roots.flatMap (reportsFrom t limit fun _ => none)⟩) ∧
      Overridden (fun m => gain m ++ roots.flatMap fun root => gainFrom t limit root m) t t' := by
  induction roots generalizing s gain with
  | nil => exact ⟨s.table, by simp [List.forM], gained.congr (by simp)⟩
  | cons root roots ih =>
    have nothingAbove : Above t (fun _ => none) [] := ⟨fun _ => rfl, by simp⟩
    obtain ⟨n, depth⟩ := forest.depth_exists (classes root (by simp))
    have levels : t.symbols.size + 1 < limit + n := Nat.add_lt_add_of_lt_of_le enough (Table.depth_positive depth)
    obtain ⟨_, t₁, ran, _, _, gained₁⟩ := findOverrides_run permutes forest methods depth levels nothingAbove gained
    obtain ⟨t₂, ran₂, gained₂⟩ := @ih _ (fun x inside => classes x (List.mem_cons_of_mem _ inside))
      ⟨t₁, s.problems ++ reportsFrom t limit (fun _ => none) root⟩ gained₁
    refine ⟨t₂, ?_, gained₂.congr (by simp)⟩
    rw [List.forM, bind_assoc, run_seq ran, pure_bind, ran₂]
    simp

/-- A class keeps the superclass of its edge exactly if the edge is kept. -/
theorem upperIn_edge {e : Edge} (once : (edges.map Edge.cls).Nodup) (sub : kept.Sublist edges) (member : e ∈ edges) :
    (e ∈ kept → upperIn kept e.cls = e.superclass) ∧ (e ∉ kept → upperIn kept e.cls = none) := by
  constructor
  · intro inside
    cases super : e.superclass with
    | none =>
      refine upperIn_eq_none fun s extends_ => ?_
      obtain ⟨e', inside', same, super'⟩ := extends_
      obtain rfl := edge_unique once (sub.subset inside') member same
      rw [super] at super'
      cases super'
    | some s =>
      exact (upperIn_eq_some_iff ((sub.map Edge.cls).nodup once)).mpr ⟨e, inside, rfl, super⟩
  · intro outside
    refine upperIn_eq_none fun s extends_ => ?_
    obtain ⟨e', inside', same, _⟩ := extends_
    exact outside (edge_unique once (sub.subset inside') member same ▸ inside')

/-- The classes that the attaching run leaves without a superclass have none in the linked table, and they are
all of those. -/
theorem roots_top (oneEach : OneEdgeEach t edges) (attaches : Attaches [] edges kept dropped roots)
    (sub : kept.Sublist edges) (linked : Linked kept t t') : c ∈ roots ↔ t'.DepthOf c 1 := by
  have top_iff {e : Edge} (member : e ∈ edges) :
      (e.superclass = none ∨ e ∈ dropped) ↔ upperIn kept e.cls = none := by
    obtain ⟨isDropped, isKept⟩ := attaches_exact oneEach.once attaches e member
    obtain ⟨whenKept, whenNot⟩ := upperIn_edge oneEach.once sub member
    by_cases inside : e ∈ kept
    · obtain ⟨named, open_⟩ := isKept.mp inside
      rw [whenKept inside, isDropped, or_iff_left open_]
    · rw [isDropped]
      refine iff_of_true ?_ (whenNot inside)
      by_contra neither
      rw [not_or] at neither
      exact inside (isKept.mpr ⟨Option.isSome_iff_ne_none.mpr neither.1, neither.2⟩)
  rw [attaches_roots attaches]
  constructor
  · rintro ⟨e, member, rfl, why⟩
    obtain ⟨k, held⟩ := Option.isSome_iff_exists.mp
      ((oneEach.covers e.cls).mp (List.mem_map.mpr ⟨e, member, rfl⟩))
    exact .root (class_linked linked held) ((top_iff member).mp why)
  · intro depth
    generalize one : 1 = n at depth
    cases depth with
    | root held top =>
      rw [linked_class linked] at held
      obtain ⟨k, held', rfl⟩ := Option.map_eq_some_iff.mp held
      obtain ⟨e, member, rfl⟩ := List.mem_map.mp ((oneEach.covers c).mpr (by simp [held']))
      exact ⟨e, member, rfl, (top_iff member).mpr top⟩
    | step _ above =>
      have positive := Table.depth_positive above
      omega

/-- What the three parts of a build do, one after the other. -/
theorem build_run {s : AnalysisState} (fresh : FreshClasses s.table) (oneEach : OneEdgeEach s.table edges)
    (permutes : ∀ c found, (order c found).Perm found := by exact fun _ _ => .refl _) :
    ∃ kept dropped roots depths linkedTable deepTable t', Attaches [] edges kept dropped roots ∧
      Linked kept s.table linkedTable ∧ linkedTable.Forest ∧
      Deep depths linkedTable deepTable ∧ (∀ {c n}, linkedTable.DepthOf c n → depths c = some n) ∧
      Overridden (fun m => roots.flatMap fun root => gainFrom deepTable (s.table.symbols.size + 1) root m)
        deepTable t' ∧
      (buildIn order edges).run s = .ok ((), ⟨t', s.problems ++ dropped.map (selfReport s.table) ++
        roots.flatMap (reportsFrom deepTable (s.table.symbols.size + 1) fun _ => none)⟩) := by
  have clustered : Clustered (number s.table) (IsClass s.table) (s.table.classCount + 1) [] []
      (Partition.discrete (s.table.classCount + 2)) := by
    have numbered {c : SymbolId} (isC : IsClass s.table c) :
        1 ≤ number s.table c ∧ number s.table c ≤ s.table.classCount := by
      obtain ⟨k, held⟩ := Option.isSome_iff_exists.mp isC
      simpa [number, held] using fresh.numbered held
    refine Clustered.discrete (by omega) (fun isC => by have := numbered isC; omega) (fun {c x} isC isX same => ?_)
      fun isC => by have := numbered isC; omega
    obtain ⟨k, held⟩ := Option.isSome_iff_exists.mp isC
    obtain ⟨k', held'⟩ := Option.isSome_iff_exists.mp isX
    exact fresh.distinct held' held (by simpa [number, held, held'] using same)
  have pending : Pending s.table [] [] edges :=
    ⟨oneEach.once, fun e inside => ⟨(oneEach.covers e.cls).mp (List.mem_map_of_mem inside), oneEach.supers e inside⟩,
      fun e _ => ⟨by simp [Extends], by simp⟩⟩
  obtain ⟨kept, dropped, roots, s₁, attaches, ran, linked, problems⟩ :=
    attachAll_run fresh (linked_nil fresh) clustered pending
  obtain ⟨_, rfl, sub⟩ := attaches_kept attaches
  have keptClasses : ∀ e ∈ kept, IsClass s.table e.cls := fun e inside => (pending.classes e (sub.subset inside)).1
  have forest : s₁.table.Forest := linked_forest linked ((sub.map Edge.cls).nodup oneEach.once) keptClasses
    (fun e inside => (pending.classes e (sub.subset inside)).2) (attaches_acyclic attaches fun c cycle => by
      obtain ⟨_, ⟨e, member, _⟩, _⟩ := TransGen.head'_iff.mp cycle
      cases member)
  have tops : ∀ root ∈ roots, s₁.table.DepthOf root 1 := fun root inside =>
    (roots_top oneEach attaches sub linked).mp inside
  have size₁ : s₁.table.symbols.size = s.table.symbols.size := linked.edited.size
  obtain ⟨depths, t₂, ran₂, deep, counts⟩ :=
    @fillAll_run _ 1 (s.table.symbols.size + 1) _
      (fun root inside => fillDepth_run forest (tops root inside) (by omega)) s₁ _ (deep_refl s₁.table)
  have methods : ∀ {id c}, t₂.class? id = some c → ∀ m ∈ c.methods, (t₂.symbol? m).isSome := by
    intro id c held m inside
    rw [deep_class deep, linked_class linked, Option.map_map] at held
    obtain ⟨k, held', rfl⟩ := Option.map_eq_some_iff.mp held
    rw [deep.edited.symbol_exists, linked.edited.symbol_exists]
    exact fresh.methods held' m inside
  obtain ⟨t₃, ran₃, gained⟩ := @overrideAll_run _ _ _ (s.table.symbols.size + 1) _ permutes
    (deep.sameLinks.forest forest) methods
    (fun root inside => Table.depth_class (deep.sameLinks.depthOf (tops root inside))) (by rw [deep.edited.size]; omega)
    { s₁ with table := t₂ } (overridden_refl t₂)
  refine ⟨kept, dropped, roots, depths, s₁.table, t₂, t₃, attaches, linked, forest, deep, fun {c n} depth => ?_,
    gained.congr (by simp), ?_⟩
  · obtain ⟨root, path, top⟩ := forest.root_above (Table.depth_class depth)
    obtain ⟨m, descends⟩ := Descends.of_path path
    obtain ⟨_, root', _, m', split, descends', _, counted⟩ :=
      counts.below ⟨root, (roots_top oneEach attaches sub linked).mpr top, m, descends⟩
    have top' := tops root' (split ▸ List.mem_append_right _ List.mem_cons_self)
    rw [counted, Table.depth_unique depth (descends'.depth top')]
  · unfold buildIn
    rw [run_seq run_table, run_seq ran, run_seq ran₂, ran₃]
    simp [problems]

/-! ## The hierarchy -/

/-- What a build has made of the classes of `t` and their edges, of which it has dropped some. -/
structure Built (edges dropped : List Edge) (t t' : Table) : Prop where
  /-- The dropped edges are those that come last on a cycle; they stand in their order, each once. -/
  closing : ∀ e, e ∈ dropped ↔ e ∈ edges ∧ ClosesCycle edges e
  ordered : dropped.Sublist edges
  /-- Of every cycle one edge is dropped, and no other. -/
  perCycle : ∀ c, TransGen (Extends edges) c c → ∃! e, e ∈ dropped ∧ ReflTransGen (Extends edges) c e.cls
  classes : ∀ c, (t'.class? c).isSome ↔ (t.class? c).isSome
  /-- Every other edge is kept. -/
  upper : ∀ e ∈ edges, ∀ k, t'.class? e.cls = some k →
    (e ∈ dropped → k.upper = none) ∧ (e ∉ dropped → k.upper = e.superclass)
  acyclic : ∀ c, ¬ TransGen t'.Under c c
  inverse : ∀ d u, t'.class? d = some u → u.children.Nodup ∧ ∀ c, c ∈ u.children ↔ t'.Under c d
  /-- A class without a superclass has depth one, and any other is one deeper than its superclass. -/
  depth : ∀ c k, t'.class? c = some k → ∃ n, k.depth = some n ∧ (k.upper = none → n = 1) ∧
    ∀ d, k.upper = some d → ∃ u m, t'.class? d = some u ∧ u.depth = some m ∧ n = m + 1

/-- The depths that the run fills in are those of the table itself. -/
theorem depth_filled (forest : t.Forest) (deep : Deep depths t t')
    (filled : ∀ {c n}, t.DepthOf c n → depths c = some n) {k : ClassSymbol} (held : t'.class? c = some k) :
    ∃ n, k.depth = some n ∧ t.DepthOf c n := by
  rw [deep_class deep] at held
  obtain ⟨k', held', rfl⟩ := Option.map_eq_some_iff.mp held
  obtain ⟨n, depth⟩ := forest.depth_exists (by simp [held'] : (t.class? c).isSome)
  exact ⟨n, filled depth, depth⟩

/-- **The hierarchy.** From freshly declared classes and one edge for each, in any order and with any cycles, the
build goes through. It reports the classes whose edges are dropped, in the order of the edges, and after them
only methods that override wrongly. -/
theorem build_hierarchy {s : AnalysisState} (fresh : FreshClasses s.table) (oneEach : OneEdgeEach s.table edges) :
    ∃ dropped mismatches t',
      (build edges).run s =
        .ok ((), ⟨t', s.problems ++ dropped.map (selfReport s.table) ++ mismatches⟩) ∧
      (∀ p ∈ mismatches, p.cause = .overrideStaticMismatch ∨ p.cause = .overrideReturnMismatch) ∧
      Built edges dropped s.table t' := by
  obtain ⟨kept, dropped, roots, depths, t₁, t₂, t', attaches, linked, forest, deep, filled, gained, ran⟩ :=
    build_run fresh oneEach
  refine ⟨dropped, _, t', ran, fun p reported => ?_, ?_⟩
  · obtain ⟨root, _, reported⟩ := List.mem_flatMap.mp reported
    exact reportsFrom_cause reported
  obtain ⟨_, rfl, sub⟩ := attaches_kept attaches
  have exact_ := attaches_exact oneEach.once attaches
  have links : Table.SameLinks t₁ t' := fun id => (gained.sameLinks id).trans (deep.sameLinks id)
  have forest' := links.forest forest
  have droppedEdges := (attaches_dropped attaches).subset
  have closing : ∀ e, e ∈ dropped ↔ e ∈ edges ∧ ClosesCycle edges e := fun e =>
    ⟨fun inside => ⟨droppedEdges inside, (exact_ e (droppedEdges inside)).1.mp inside⟩,
      fun ⟨member, closes⟩ => (exact_ e member).1.mpr closes⟩
  refine ⟨closing, attaches_dropped attaches, fun c cycle => ?_, fun c => ?_, fun e member k held => ?_,
    forest'.acyclic, fun d u held => ⟨forest'.distinct held, fun c => forest'.children held⟩,
    fun c k held => ?_⟩
  · obtain ⟨e, ⟨member, closes, reached⟩, unique⟩ := closing_unique oneEach.once cycle
    refine ⟨e, ⟨(closing e).mpr ⟨member, closes⟩, reached⟩, fun e' ⟨inside, reached'⟩ => ?_⟩
    exact unique e' ⟨((closing e').mp inside).1, ((closing e').mp inside).2, reached'⟩
  · rw [gained.class_same, deep_class deep, linked_class linked, Option.isSome_map, Option.isSome_map]
  · obtain ⟨k', held', upper, _⟩ := links.symm.class_linked held
    rw [linked_class linked] at held'
    obtain ⟨_, _, rfl⟩ := Option.map_eq_some_iff.mp held'
    obtain ⟨whenKept, whenNot⟩ := upperIn_edge oneEach.once sub member
    obtain ⟨isDropped, isKept⟩ := exact_ e member
    rw [← upper, isDropped]
    refine ⟨fun closes => whenNot fun inside => (isKept.mp inside).2 closes, fun open_ => ?_⟩
    by_cases inside : e ∈ kept
    · exact whenKept inside
    · have unnamed : e.superclass = none := by
        by_contra named
        exact inside (isKept.mpr ⟨Option.isSome_iff_ne_none.mpr named, open_⟩)
      rw [unnamed]
      exact whenNot inside
  · have filled' {c : SymbolId} {k : ClassSymbol} (held : t'.class? c = some k) :
        ∃ n, k.depth = some n ∧ t'.DepthOf c n := by
      obtain ⟨n, isDepth, depth⟩ := depth_filled forest deep filled (gained.class_same ▸ held)
      exact ⟨n, isDepth, links.depthOf depth⟩
    obtain ⟨n, isDepth, depth⟩ := filled' held
    obtain ⟨whenTop, whenUnder⟩ := Table.depth_upper held depth
    refine ⟨n, isDepth, whenTop, fun d upper => ?_⟩
    obtain ⟨m, superDepth, next⟩ := whenUnder d upper
    obtain ⟨u, superHeld⟩ := Option.isSome_iff_exists.mp (Table.depth_class superDepth)
    obtain ⟨m', isDepth', superDepth'⟩ := filled' superHeld
    exact ⟨u, m', superHeld, isDepth', Table.depth_unique superDepth superDepth' ▸ next⟩

/-- A class that has just been declared. -/
def freshClass (place : Nat) (name : String) : Symbol where
  id := ⟨place⟩
  name := classKey name
  span := .none
  scope := .root
  kind := .cls {
    displayName := name, plainName := name, builtin := false, scope := ⟨place + 1⟩, runtimeId := place + 1 }

/-- Three classes: the first two extend each other, and the third one extends the first. -/
def loopTable : Table where
  scopes := .replicate 4 { parent := none }
  symbols := #[freshClass 0 "A", freshClass 1 "B", freshClass 2 "C"]
  current := .root
  classCount := 3

def loopEdges : List Edge := [⟨⟨2⟩, some ⟨0⟩, .none⟩, ⟨⟨0⟩, some ⟨1⟩, .none⟩, ⟨⟨1⟩, some ⟨0⟩, .none⟩]

theorem loopTable_class {k : ClassSymbol} (held : loopTable.class? id = some k) :
    id.index < 3 ∧ k.scope = ⟨id.index + 1⟩ ∧ k.runtimeId = id.index + 1 ∧
      k.upper = none ∧ k.children = [] ∧ k.depth = none ∧ k.methods = [] := by
  obtain ⟨i⟩ := id
  match i with
  | 0 | 1 | 2 =>
    cases held
    decide
  | i + 3 => cases held

theorem loop_hierarchy : FreshClasses loopTable ∧ OneEdgeEach loopTable loopEdges ∧
    ∃ dropped mismatches t',
      (build loopEdges).run { table := loopTable } = .ok ((), ⟨t', dropped.map (selfReport loopTable) ++ mismatches⟩) ∧
      (∀ p ∈ mismatches, p.cause = .overrideStaticMismatch ∨ p.cause = .overrideReturnMismatch) ∧
      Built loopEdges dropped loopTable t' := by
  have fresh : FreshClasses loopTable := by
    refine ⟨fun held => ?_, fun held => ?_, fun held held' same => ?_, fun held => ?_, fun held m inside => ?_⟩
    · obtain ⟨_, _, _, upper, children, depth, _⟩ := loopTable_class held
      exact ⟨upper, children, depth⟩
    · obtain ⟨bound, _, number, _⟩ := loopTable_class held
      exact ⟨by omega, by simp only [loopTable]; omega⟩
    · obtain ⟨_, _, number, _⟩ := loopTable_class held
      obtain ⟨_, _, number', _⟩ := loopTable_class held'
      exact SymbolId.ext (by omega)
    · obtain ⟨bound, scope, _⟩ := loopTable_class held
      rw [scope]
      exact ⟨by simp [ScopeId.root], by simp [loopTable]; omega⟩
    · obtain ⟨_, _, _, _, _, _, methods⟩ := loopTable_class held
      simp [methods] at inside
  have oneEach : OneEdgeEach loopTable loopEdges := by
    refine ⟨by decide, fun id => ⟨fun inside => ?_, fun isClass => ?_⟩, fun e inside d super => ?_⟩
    · simp [loopEdges] at inside
      rcases inside with rfl | rfl | rfl <;> rfl
    · obtain ⟨k, held⟩ := Option.isSome_iff_exists.mp isClass
      obtain ⟨i⟩ := id
      match i, (loopTable_class held).1 with
      | 0, _ | 1, _ | 2, _ => decide
    · simp [loopEdges] at inside
      rcases inside with rfl | rfl | rfl <;> cases super <;> rfl
  exact ⟨fresh, oneEach, @build_hierarchy _ { table := loopTable } fresh oneEach⟩

end Quasicode.Hierarchy
