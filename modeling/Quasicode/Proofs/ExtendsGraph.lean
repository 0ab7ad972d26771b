import Mathlib.Data.List.Nodup
import Mathlib.Logic.Relation
import Quasicode.Hierarchy

/-!
The graph of declared superclasses. Every class has at most one edge, so a cycle is left by no edge and classes
on it reach each other. Attaching the edges one after the other, and dropping an edge whose superclass already
leads back to its class, drops exactly one edge of every cycle: the one that comes last.
-/
namespace Quasicode.Hierarchy

open Relation

/-- `c` is declared to extend `s`. -/
def Extends (edges : List Edge) (c s : SymbolId) : Prop :=
  ∃ e ∈ edges, e.cls = c ∧ e.superclass = some s

/-- The edge lies on a cycle, and no edge after it leaves a class of that cycle. -/
def ClosesCycle (edges : List Edge) (e : Edge) : Prop :=
  TransGen (Extends edges) e.cls e.cls ∧
    ∃ before after, edges = before ++ e :: after ∧
      ∀ later ∈ after, ¬ ReflTransGen (Extends edges) e.cls later.cls

/-- No class extends itself, directly or through others. -/
def Acyclic (edges : List Edge) : Prop := ∀ c, ¬ TransGen (Extends edges) c c

variable {edges kept kept' dropped before after : List Edge} {roots : List SymbolId} {e e' : Edge}
  {a b c d s : SymbolId}

theorem extends_mono (subset : ∀ e ∈ kept, e ∈ edges) (extends_ : Extends kept c s) : Extends edges c s := by
  obtain ⟨e, member, rest⟩ := extends_
  exact ⟨e, subset e member, rest⟩

theorem reaches_mono (subset : ∀ e ∈ kept, e ∈ edges) (path : ReflTransGen (Extends kept) c s) :
    ReflTransGen (Extends edges) c s :=
  ReflTransGen.mono (fun _ _ => extends_mono subset) _ _ path

/-- Edges of one class are one edge. -/
theorem edge_unique (oneEach : (edges.map Edge.cls).Nodup) (first : e ∈ edges) (second : e' ∈ edges)
    (same : e.cls = e'.cls) : e = e' :=
  List.inj_on_of_nodup_map oneEach first second same

theorem extends_unique (oneEach : (edges.map Edge.cls).Nodup) (first : Extends edges c s)
    (second : Extends edges c d) : s = d := by
  obtain ⟨e, member, rfl, super⟩ := first
  obtain ⟨e', member', same, super'⟩ := second
  obtain rfl := edge_unique oneEach member' member same
  exact Option.some.inj (super.symm.trans super')

/-- A path of at least one step starts with the one edge of its first class. -/
theorem path_head (oneEach : (edges.map Edge.cls).Nodup) (path : ReflTransGen (Extends edges) c d)
    (different : c ≠ d) (edge : Extends edges c s) : ReflTransGen (Extends edges) s d := by
  rcases path.cases_head with rfl | ⟨next, first, rest⟩
  · exact absurd rfl different
  · exact extends_unique oneEach first edge ▸ rest

/-- Everything that a class on a cycle reaches leads back to it. -/
theorem cycle_returns (oneEach : (edges.map Edge.cls).Nodup) (cycle : TransGen (Extends edges) c c)
    (path : ReflTransGen (Extends edges) c d) : ReflTransGen (Extends edges) d c := by
  obtain ⟨next, first, back⟩ := TransGen.head'_iff.mp cycle
  induction path with
  | refl => exact .refl
  | @tail b d _ step ih =>
    by_cases atStart : b = c
    · subst atStart
      exact extends_unique oneEach first step ▸ back
    · exact path_head oneEach ih atStart step

/-- The classes of a cycle lie on one. -/
theorem cycle_member (oneEach : (edges.map Edge.cls).Nodup) (cycle : TransGen (Extends edges) c c)
    (path : ReflTransGen (Extends edges) c d) : TransGen (Extends edges) d d :=
  TransGen.trans_right (cycle_returns oneEach cycle path) (TransGen.trans_left cycle path)

/-! ## The last edge of a cycle -/

/-- Among the elements of a list with a property one comes last. -/
theorem exists_last {α : Type} {P : α → Prop} {xs : List α} (some_ : ∃ x ∈ xs, P x) :
    ∃ before x after, xs = before ++ x :: after ∧ P x ∧ ∀ y ∈ after, ¬ P y := by
  induction xs with
  | nil => simp at some_
  | cons x xs ih =>
    by_cases later : ∃ y ∈ xs, P y
    · obtain ⟨before, y, after, rfl, holds, none_⟩ := ih later
      exact ⟨x :: before, y, after, rfl, holds, none_⟩
    · obtain ⟨y, member, holds⟩ := some_
      have first : y = x := by
        rcases List.mem_cons.mp member with eq | inside
        · exact eq
        · exact absurd ⟨y, inside, holds⟩ later
      exact ⟨[], x, xs, rfl, first ▸ holds, fun z inside held => later ⟨z, inside, held⟩⟩

/-- Every cycle has exactly one edge that closes it. -/
theorem closing_unique (oneEach : (edges.map Edge.cls).Nodup) (cycle : TransGen (Extends edges) c c) :
    ∃! e, e ∈ edges ∧ ClosesCycle edges e ∧ ReflTransGen (Extends edges) c e.cls := by
  obtain ⟨next, ⟨start, member, atStart, _⟩, _⟩ := TransGen.head'_iff.mp cycle
  obtain ⟨before, e, after, split, reached, last⟩ :=
    exists_last (P := fun e => ReflTransGen (Extends edges) c e.cls)
      ⟨start, member, atStart ▸ ReflTransGen.refl⟩
  refine ⟨e, ⟨by simp [split], ⟨cycle_member oneEach cycle reached, before, after, split, ?_⟩, reached⟩, ?_⟩
  · intro later inside path
    exact last later inside (reached.trans path)
  · rintro e' ⟨member', ⟨_, before', after', split', last'⟩, reached'⟩
    have back : ReflTransGen (Extends edges) e'.cls e.cls :=
      (cycle_returns oneEach cycle reached').trans reached
    have notAfter : e ∉ after' := fun inside => last' e inside back
    have notAfter' : e' ∉ after := fun inside => last e' inside reached'
    -- Neither edge comes after the other, so the two splits are one.
    rcases List.append_eq_append_iff.mp (split.symm.trans split') with
      ⟨between, _, tail⟩ | ⟨between, _, tail⟩
    · cases between with
      | nil => exact (List.cons.inj tail).1.symm
      | cons x xs =>
        have inside : e' ∈ after := by simp [(List.cons.inj tail).2]
        exact absurd inside notAfter'
    · cases between with
      | nil => exact (List.cons.inj tail).1
      | cons x xs =>
        have inside : e ∈ after' := by simp [(List.cons.inj tail).2]
        exact absurd inside notAfter

/-- Where the superclass of an edge leads back to its class, everything that the class reaches has an edge
among those before, or is the class itself. -/
theorem closed_path (oneEach : (edges.map Edge.cls).Nodup) (subset : ∀ e ∈ kept, e ∈ edges)
    (first : Extends edges c s) (back : ReflTransGen (Extends kept) s c)
    (path : ReflTransGen (Extends edges) c d) : ReflTransGen (Extends kept) d c := by
  induction path with
  | refl => exact .refl
  | @tail b d _ step ih =>
    by_cases atStart : b = c
    · subst atStart
      exact extends_unique oneEach first step ▸ back
    · rcases ih.cases_head with rfl | ⟨next, step', rest⟩
      · exact absurd rfl atStart
      · exact extends_unique oneEach (extends_mono subset step') step ▸ rest

/-- No edge after one that closes a cycle leaves a class of the cycle, however the list is split. -/
theorem closes_last (oneEach : (edges.map Edge.cls).Nodup) (closes : ClosesCycle edges e)
    (split : edges = before ++ e :: after) :
    ∀ later ∈ after, ¬ ReflTransGen (Extends edges) e.cls later.cls := by
  obtain ⟨_, before', after', split', last⟩ := closes
  have nodup : (before ++ e :: after).Nodup := split ▸ List.Nodup.of_map _ oneEach
  have once := List.nodup_append.mp nodup
  have notBefore : e ∉ before := fun inside => once.2.2 e inside e (by simp) rfl
  have notAfter : e ∉ after := (List.nodup_cons.mp once.2.1).1
  have same := (List.append_cons_inj_of_notMem notBefore notAfter).mp (split.symm.trans split')
  exact same.2.2 ▸ last

/-- Of a cycle that `e` closes, every other edge comes before `e` and has been kept. -/
theorem cycle_edge_kept (oneEach : (edges.map Edge.cls).Nodup) (split : edges = before ++ e :: after)
    (others : ∀ x ∈ before, x ∈ kept ∨ x.superclass = none ∨ ClosesCycle edges x)
    (closes : ClosesCycle edges e) (path : ReflTransGen (Extends edges) e.cls d) (elsewhere : d ≠ e.cls)
    (step : Extends edges d b) : Extends kept d b := by
  obtain ⟨x, inEdges, rfl, super⟩ := step
  have inBefore : x ∈ before := by
    rw [split] at inEdges
    rcases List.mem_append.mp inEdges with inside | inside
    · exact inside
    · rcases List.mem_cons.mp inside with rfl | inside
      · exact absurd rfl elsewhere
      · exact absurd path (closes_last oneEach closes split x inside)
  rcases others x inBefore with inKept | none_ | closesX
  · exact ⟨x, inKept, rfl, super⟩
  · rw [none_] at super
    cases super
  · obtain ⟨first, second, rfl⟩ := List.append_of_mem inBefore
    have splitX : edges = first ++ x :: (second ++ e :: after) := by simp [split]
    exact absurd (cycle_returns oneEach closes.1 path)
      (closes_last oneEach closesX splitX e (by simp))

/-- **The dropped edges.** An edge closes a cycle exactly when its superclass leads back to its class along
the edges before it, leaving out those that closed a cycle themselves. -/
theorem closes_iff (oneEach : (edges.map Edge.cls).Nodup) (split : edges = before ++ e :: after)
    (subset : ∀ x ∈ kept, x ∈ before)
    (others : ∀ x ∈ before, x ∈ kept ∨ x.superclass = none ∨ ClosesCycle edges x)
    (super : e.superclass = some s) :
    ReflTransGen (Extends kept) s e.cls ↔ ClosesCycle edges e := by
  have member : e ∈ edges := by simp [split]
  have subset' : ∀ x ∈ kept, x ∈ edges := fun x inside => by simp [split, subset x inside]
  have first : Extends edges e.cls s := ⟨e, member, rfl, super⟩
  constructor
  · intro back
    refine ⟨TransGen.head' first (reaches_mono subset' back), before, after, split, ?_⟩
    intro later inside path
    have nodup : (before.map Edge.cls ++ e.cls :: after.map Edge.cls).Nodup := by
      simpa [split] using oneEach
    have laterClass : later.cls ∈ after.map Edge.cls := List.mem_map.mpr ⟨later, inside, rfl⟩
    rcases (closed_path oneEach subset' first back path).cases_head with same | ⟨_, ⟨x, inKept, same, _⟩, _⟩
    · exact (List.nodup_cons.mp (List.nodup_append.mp nodup).2.1).1 (same ▸ laterClass)
    · have earlier : later.cls ∈ before.map Edge.cls := List.mem_map.mpr ⟨x, subset x inKept, same⟩
      exact (List.nodup_append.mp nodup).2.2 _ earlier _ (List.mem_cons_of_mem _ laterClass) rfl
  · intro closes
    have path : ReflTransGen (Extends edges) e.cls s := .single first
    have back := cycle_returns oneEach closes.1 path
    clear super first
    induction back using ReflTransGen.head_induction_on with
    | refl => exact .refl
    | @head b d step _ ih =>
      by_cases atEnd : b = e.cls
      · exact atEnd ▸ .refl
      · exact .head (cycle_edge_kept oneEach split others closes path atEnd step) (ih (path.tail step))

/-! ## Attaching edges one after the other -/

/-- `Attaches kept edges kept' dropped roots`: with the edges `kept` in place, going through `edges` ends with
`kept'`, drops the edges `dropped`, and leaves the classes `roots` without a superclass. -/
inductive Attaches : List Edge → List Edge → List Edge → List Edge → List SymbolId → Prop where
  | done {kept : List Edge} : Attaches kept [] kept [] []
  | root {kept edges kept' dropped : List Edge} {roots : List SymbolId} {e : Edge} :
      e.superclass = none → Attaches kept edges kept' dropped roots →
      Attaches kept (e :: edges) kept' dropped (e.cls :: roots)
  | keep {kept edges kept' dropped : List Edge} {roots : List SymbolId} {e : Edge} {s : SymbolId} :
      e.superclass = some s → ¬ ReflTransGen (Extends kept) s e.cls →
      Attaches (kept ++ [e]) edges kept' dropped roots →
      Attaches kept (e :: edges) kept' dropped roots
  | drop {kept edges kept' dropped : List Edge} {roots : List SymbolId} {e : Edge} {s : SymbolId} :
      e.superclass = some s → ReflTransGen (Extends kept) s e.cls →
      Attaches kept edges kept' dropped roots →
      Attaches kept (e :: edges) kept' (e :: dropped) (e.cls :: roots)

theorem extends_append : Extends (kept ++ [e]) a b ↔ Extends kept a b ∨ (e.cls = a ∧ e.superclass = some b) := by
  simp [Extends, or_and_right, exists_or]

/-- A path over one more edge avoids it, or passes through it once. -/
theorem reaches_append (super : e.superclass = some s) (open_ : ¬ ReflTransGen (Extends kept) s e.cls)
    (path : ReflTransGen (Extends (kept ++ [e])) a b) :
    ReflTransGen (Extends kept) a b ∨
      ReflTransGen (Extends kept) a e.cls ∧ ReflTransGen (Extends kept) s b := by
  induction path with
  | refl => exact .inl .refl
  | tail _ step ih =>
    rcases extends_append.mp step with old | ⟨rfl, super'⟩
    · rcases ih with avoids | ⟨into, out⟩
      · exact .inl (avoids.tail old)
      · exact .inr ⟨into, out.tail old⟩
    · obtain rfl := Option.some.inj (super.symm.trans super')
      rcases ih with avoids | ⟨_, out⟩
      · exact .inr ⟨avoids, .refl⟩
      · exact absurd out open_

/-- An edge whose superclass does not lead back to its class closes no cycle. -/
theorem acyclic_append (acyclic : Acyclic kept) (super : e.superclass = some s)
    (open_ : ¬ ReflTransGen (Extends kept) s e.cls) : Acyclic (kept ++ [e]) := by
  intro c cycle
  obtain ⟨next, first, back⟩ := TransGen.head'_iff.mp cycle
  rcases extends_append.mp first with old | ⟨rfl, super'⟩
  · rcases reaches_append super open_ back with avoids | ⟨into, out⟩
    · exact acyclic c (.head' old avoids)
    · exact open_ (out.trans (.head old into))
  · obtain rfl := Option.some.inj (super.symm.trans super')
    rcases reaches_append super open_ back with avoids | ⟨_, out⟩
    · exact open_ avoids
    · exact open_ out

theorem attaches_acyclic (attaches : Attaches kept edges kept' dropped roots)
    (acyclic : Acyclic kept) : Acyclic kept' := by
  induction attaches with
  | done => exact acyclic
  | root _ _ ih => exact ih acyclic
  | keep super open_ _ ih => exact ih (acyclic_append acyclic super open_)
  | drop _ _ _ ih => exact ih acyclic

/-- What is attached are some of the edges, in their order, after those that were in place. -/
theorem attaches_kept (attaches : Attaches kept edges kept' dropped roots) :
    ∃ more, kept' = kept ++ more ∧ more.Sublist edges := by
  induction attaches with
  | done => exact ⟨[], by simp, .refl _⟩
  | root _ _ ih =>
    obtain ⟨more, rfl, sub⟩ := ih
    exact ⟨more, rfl, sub.cons _⟩
  | @keep _ _ _ _ _ e _ _ _ _ ih =>
    obtain ⟨more, rfl, sub⟩ := ih
    exact ⟨e :: more, by simp, sub.cons_cons _⟩
  | drop _ _ _ ih =>
    obtain ⟨more, rfl, sub⟩ := ih
    exact ⟨more, rfl, sub.cons _⟩

theorem attaches_dropped (attaches : Attaches kept edges kept' dropped roots) :
    dropped.Sublist edges := by
  induction attaches with
  | done => exact .refl _
  | root _ _ ih => exact ih.cons _
  | keep _ _ _ ih => exact ih.cons _
  | drop _ _ _ ih => exact ih.cons_cons _

/-- The classes without a superclass are those of the edges that name none or have been dropped. -/
theorem attaches_roots (attaches : Attaches kept edges kept' dropped roots) :
    ∀ c, c ∈ roots ↔ ∃ e ∈ edges, e.cls = c ∧ (e.superclass = none ∨ e ∈ dropped) := by
  induction attaches with
  | done => simp
  | @root _ edges _ dropped _ e none_ rest ih =>
    intro c
    rw [List.mem_cons, ih c]
    constructor
    · rintro (rfl | ⟨x, inside, same, why⟩)
      · exact ⟨e, by simp, rfl, .inl none_⟩
      · exact ⟨x, by simp [inside], same, why⟩
    · rintro ⟨x, inside, same, why⟩
      rcases List.mem_cons.mp inside with rfl | inside
      · exact .inl same.symm
      · exact .inr ⟨x, inside, same, why⟩
  | @keep _ edges _ dropped _ e _ super _ rest ih =>
    intro c
    rw [ih c]
    constructor
    · rintro ⟨x, inside, same, why⟩
      exact ⟨x, by simp [inside], same, why⟩
    · rintro ⟨x, inside, same, why⟩
      rcases List.mem_cons.mp inside with rfl | inside
      · rcases why with none_ | isDropped
        · rw [none_] at super
          cases super
        · exact ⟨x, (attaches_dropped rest).subset isDropped, same, .inr isDropped⟩
      · exact ⟨x, inside, same, why⟩
  | @drop _ edges _ dropped _ e _ super _ rest ih =>
    intro c
    rw [List.mem_cons, ih c]
    constructor
    · rintro (rfl | ⟨x, inside, same, why⟩)
      · exact ⟨e, by simp, rfl, .inr (by simp)⟩
      · exact ⟨x, by simp [inside], same, why.imp_right (List.mem_cons_of_mem e)⟩
    · rintro ⟨x, inside, same, why⟩
      rcases List.mem_cons.mp inside with rfl | inside
      · exact .inl same.symm
      · rcases why with none_ | isDropped
        · exact .inr ⟨x, inside, same, .inl none_⟩
        · rcases List.mem_cons.mp isDropped with rfl | isDropped
          · exact .inl same.symm
          · exact .inr ⟨x, inside, same, .inr isDropped⟩

/-- Edges that are not gone through are neither dropped nor newly kept. -/
theorem attaches_untouched (attaches : Attaches kept edges kept' dropped roots) (outside : e ∉ edges) :
    e ∉ dropped ∧ (e ∈ kept' ↔ e ∈ kept) := by
  obtain ⟨more, rfl, sub⟩ := attaches_kept attaches
  refine ⟨fun inside => outside ((attaches_dropped attaches).subset inside), ?_⟩
  have notMore : e ∉ more := fun inside => outside (sub.subset inside)
  simp [notMore]

/-- An edge without a superclass is on no cycle. -/
theorem root_closes_none (oneEach : (edges.map Edge.cls).Nodup) (member : e ∈ edges)
    (none_ : e.superclass = none) : ¬ ClosesCycle edges e := by
  rintro ⟨cycle, _⟩
  obtain ⟨_, ⟨x, inside, same, super⟩, _⟩ := TransGen.head'_iff.mp cycle
  obtain rfl := edge_unique oneEach inside member same
  rw [none_] at super
  cases super

/-- The decisions on the edges that follow `before` are right if those on `before` were. -/
theorem attaches_exact_from (before : List Edge) (oneEach : (edges.map Edge.cls).Nodup)
    (attaches : Attaches kept after kept' dropped roots) (split : edges = before ++ after)
    (subset : ∀ x ∈ kept, x ∈ before)
    (others : ∀ x ∈ before, x ∈ kept ∨ x.superclass = none ∨ ClosesCycle edges x) :
    ∀ e ∈ after, (e ∈ dropped ↔ ClosesCycle edges e) ∧
      (e ∈ kept' ↔ e.superclass.isSome ∧ ¬ ClosesCycle edges e) := by
  have nodup : (before ++ after).Nodup := split ▸ List.Nodup.of_map _ oneEach
  induction attaches generalizing before with
  | done => simp
  | @root kept after kept' dropped roots e none_ rest ih =>
    have once := List.nodup_append.mp nodup
    have notKept : e ∉ kept := fun inside => once.2.2 e (subset e inside) e (by simp) rfl
    obtain ⟨notDropped, keptIff⟩ := attaches_untouched rest (List.nodup_cons.mp once.2.1).1
    have noCycle := root_closes_none oneEach (by simp [split]) none_
    have tail := ih (before ++ [e]) (by simp [split])
      (fun x inside => List.mem_append_left _ (subset x inside))
      (fun x inside => by
        rcases List.mem_append.mp inside with inside | inside
        · exact others x inside
        · exact .inr (.inl (List.mem_singleton.mp inside ▸ none_)))
      (by simpa using nodup)
    intro x inside
    rcases List.mem_cons.mp inside with rfl | inside
    · simp [notDropped, keptIff, notKept, noCycle, none_]
    · exact tail x inside
  | @keep kept after kept' dropped roots e s super open_ rest ih =>
    have once := List.nodup_append.mp nodup
    obtain ⟨notDropped, keptIff⟩ := attaches_untouched rest (List.nodup_cons.mp once.2.1).1
    have noCycle : ¬ ClosesCycle edges e :=
      fun closes => open_ ((closes_iff oneEach split subset others super).mpr closes)
    have tail := ih (before ++ [e]) (by simp [split])
      (fun x inside => by
        rcases List.mem_append.mp inside with inside | inside
        · exact List.mem_append_left _ (subset x inside)
        · exact List.mem_append_right _ inside)
      (fun x inside => by
        rcases List.mem_append.mp inside with inside | inside
        · exact (others x inside).imp_left (List.mem_append_left _)
        · exact .inl (List.mem_append_right _ inside))
      (by simpa using nodup)
    intro x inside
    rcases List.mem_cons.mp inside with rfl | inside
    · simp [notDropped, keptIff, noCycle, super]
    · exact tail x inside
  | @drop kept after kept' dropped roots e s super back rest ih =>
    have once := List.nodup_append.mp nodup
    have notKept : e ∉ kept := fun inside => once.2.2 e (subset e inside) e (by simp) rfl
    have notAfter : e ∉ after := (List.nodup_cons.mp once.2.1).1
    obtain ⟨_, keptIff⟩ := attaches_untouched rest notAfter
    have closes : ClosesCycle edges e := (closes_iff oneEach split subset others super).mp back
    have tail := ih (before ++ [e]) (by simp [split])
      (fun x inside => List.mem_append_left _ (subset x inside))
      (fun x inside => by
        rcases List.mem_append.mp inside with inside | inside
        · exact others x inside
        · exact .inr (.inr (List.mem_singleton.mp inside ▸ closes)))
      (by simpa using nodup)
    intro x inside
    rcases List.mem_cons.mp inside with rfl | inside
    · simp [keptIff, notKept, closes]
    · have different : x ≠ e := fun same => notAfter (same ▸ inside)
      rw [List.mem_cons, or_iff_right different]
      exact tail x inside

/-- With nothing in place at first, the dropped edges are those that close a cycle, and all other edges that
name a superclass are kept. -/
theorem attaches_exact (oneEach : (edges.map Edge.cls).Nodup) (attaches : Attaches [] edges kept dropped roots) :
    ∀ e ∈ edges, (e ∈ dropped ↔ ClosesCycle edges e) ∧ (e ∈ kept ↔ e.superclass.isSome ∧ ¬ ClosesCycle edges e) :=
  attaches_exact_from [] oneEach attaches rfl (by simp) (by simp)

end Quasicode.Hierarchy
