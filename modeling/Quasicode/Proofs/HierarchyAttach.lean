import Quasicode.Proofs.AnalysisRun
import Quasicode.Proofs.ExtendsGraph
import Quasicode.Proofs.PartitionSets

/-!
The run that hangs every class under its superclass. The partition tells whether the superclass of an edge leads
back to its class: the set of a class that has no superclass yet holds just the classes below it, so an edge
joins two sets unless it closes a cycle.
-/
namespace Quasicode.Hierarchy

open Relation Analysis

/-! ## Tables and edges -/

/-- Classes as they stand after their declaration: numbered from one on, each with a scope of its own, and
not yet linked to each other. -/
structure FreshClasses (t : Table) : Prop where
  unlinked : ∀ {id c}, t.class? id = some c → c.upper = none ∧ c.children = [] ∧ c.depth = none
  numbered : ∀ {id c}, t.class? id = some c → 1 ≤ c.runtimeId ∧ c.runtimeId ≤ t.classCount
  distinct : ∀ {id id' c c'}, t.class? id = some c → t.class? id' = some c' →
    c.runtimeId = c'.runtimeId → id = id'
  ownScope : ∀ {id c}, t.class? id = some c → c.scope ≠ .root ∧ c.scope.index < t.scopes.size
  methods : ∀ {id c}, t.class? id = some c → ∀ m ∈ c.methods, (t.symbol? m).isSome

/-- The edges are those of the classes of the table, one for each, and lead to classes of the table. -/
structure OneEdgeEach (t : Table) (edges : List Edge) : Prop where
  once : (edges.map Edge.cls).Nodup
  covers : ∀ id, id ∈ edges.map Edge.cls ↔ (t.class? id).isSome
  supers : ∀ e ∈ edges, ∀ s, e.superclass = some s → (t.class? s).isSome

/-! ## Clusters -/

/-- What the partition knows once the edges `kept` are in place and the classes `grounded` are known to have no
superclass: along an edge it joins, and around a class that is still open it holds only the classes below. -/
structure Clustered (number : SymbolId → Nat) (isClass : SymbolId → Prop) (top : Nat) (kept : List Edge)
    (grounded : List SymbolId) (p : Partition) : Prop where
  sound : p.Sound
  topBound : top < p.parent.size
  bound : ∀ {c}, isClass c → number c < p.parent.size
  joins : ∀ {c s}, Extends kept c s → p.Together (number c) (number s)
  below : ∀ {c x}, isClass c → isClass x → (∀ s, ¬ Extends kept c s) → c ∉ grounded →
    p.Together (number x) (number c) → ReflTransGen (Extends kept) x c
  apart : ∀ {c}, isClass c → (∀ s, ¬ Extends kept c s) → c ∉ grounded → ¬ p.Together top (number c)

namespace Clustered

variable {number : SymbolId → Nat} {isClass : SymbolId → Prop} {top : Nat} {kept : List Edge}
  {grounded : List SymbolId} {p q : Partition} {e : Edge} {c s x : SymbolId}

/-- Classes on a path are in one set. -/
theorem path_together (clustered : Clustered number isClass top kept grounded p) (start : isClass x)
    (path : ReflTransGen (Extends kept) x c) : p.Together (number x) (number c) := by
  induction path with
  | refl => exact Partition.together_refl clustered.sound (clustered.bound start)
  | tail _ step ih => exact Partition.together_trans ih (clustered.joins step)

/-- A superclass is in the set of an open class exactly when it leads back to the class. -/
theorem together_iff (clustered : Clustered number isClass top kept grounded p) (isC : isClass c)
    (isX : isClass x) (open_ : ∀ s, ¬ Extends kept c s) (free : c ∉ grounded) :
    p.Together (number x) (number c) ↔ ReflTransGen (Extends kept) x c :=
  ⟨clustered.below isC isX open_ free, clustered.path_together isX⟩

/-- An open class lies below no other class. -/
theorem open_end (open_ : ∀ s, ¬ Extends kept x s) (path : ReflTransGen (Extends kept) x c) : x = c := by
  rcases path.cases_head with same | ⟨s, step, _⟩
  · exact same
  · exact absurd step (open_ s)

/-- Joining an open class with its superclass keeps the clusters right. -/
theorem keep (clustered : Clustered number isClass top kept grounded p) (isC : isClass e.cls)
    (isS : isClass s) (super : e.superclass = some s) (open_ : ∀ s, ¬ Extends kept e.cls s)
    (free : e.cls ∉ grounded) (merges : Partition.Merges p q (number s) (number e.cls)) :
    Clustered number isClass top (kept ++ [e]) grounded q := by
  have boundC := clustered.bound isC
  have boundS := clustered.bound isS
  have subset : ∀ x ∈ kept, x ∈ kept ++ [e] := fun x => List.mem_append_left _
  -- A class that is open after the step is another one than `e.cls`, and was open before.
  have other {c : SymbolId} (open' : ∀ s, ¬ Extends (kept ++ [e]) c s) :
      c ≠ e.cls ∧ ∀ s, ¬ Extends kept c s :=
    ⟨fun same => open' s (extends_append.mpr (.inr ⟨same.symm, super⟩)),
      fun s old => open' s (extends_mono subset old)⟩
  refine ⟨merges.sound clustered.sound boundS boundC, merges.1 ▸ clustered.topBound,
    fun isX => merges.1 ▸ clustered.bound isX, ?_, ?_, ?_⟩
  · intro c d step
    rcases extends_append.mp step with old | ⟨rfl, super'⟩
    · exact Partition.together_kept clustered.sound merges boundS boundC (clustered.joins old)
    · obtain rfl := Option.some.inj (super.symm.trans super')
      exact Partition.together_symm (Partition.together_joined clustered.sound merges boundS boundC)
  · intro c x isC' isX open' free' together
    obtain ⟨different, wasOpen⟩ := other open'
    rcases Partition.together_cases clustered.sound merges boundS boundC (clustered.bound isX)
        (clustered.bound isC') together with same | ⟨_, same⟩ | ⟨toC, fromS⟩
    · exact reaches_mono subset (clustered.below isC' isX wasOpen free' same)
    · have below := clustered.below isC isC' open_ free (Partition.together_symm same)
      exact absurd (open_end wasOpen below) different
    · have first := clustered.below isC isX open_ free toC
      have second := clustered.below isC' isS wasOpen free' fromS
      exact ((reaches_mono subset first).tail (extends_append.mpr (.inr ⟨rfl, super⟩))).trans
        (reaches_mono subset second)
  · intro c isC' open' free' together
    obtain ⟨different, wasOpen⟩ := other open'
    rcases Partition.together_cases clustered.sound merges boundS boundC clustered.topBound
        (clustered.bound isC') together with same | ⟨_, same⟩ | ⟨toC, _⟩
    · exact clustered.apart isC' wasOpen free' same
    · have below := clustered.below isC isC' open_ free (Partition.together_symm same)
      exact absurd (open_end wasOpen below) different
    · exact clustered.apart isC open_ free toC

/-- Joining an open class with the top keeps the clusters right. -/
theorem ground (clustered : Clustered number isClass top kept grounded p) (isC : isClass c)
    (open_ : ∀ s, ¬ Extends kept c s) (free : c ∉ grounded)
    (merges : Partition.Merges p q top (number c)) :
    Clustered number isClass top kept (c :: grounded) q := by
  have boundC := clustered.bound isC
  have boundT := clustered.topBound
  refine ⟨merges.sound clustered.sound boundT boundC, merges.1 ▸ boundT,
    fun isX => merges.1 ▸ clustered.bound isX, ?_, ?_, ?_⟩
  · intro d s step
    exact Partition.together_kept clustered.sound merges boundT boundC (clustered.joins step)
  · intro d x isD isX openD freeD together
    obtain ⟨different, wasFree⟩ := not_or.mp (mt List.mem_cons.mpr freeD)
    rcases Partition.together_cases clustered.sound merges boundT boundC (clustered.bound isX)
        (clustered.bound isD) together with same | ⟨_, same⟩ | ⟨_, same⟩
    · exact clustered.below isD isX openD wasFree same
    · exact absurd (open_end openD (clustered.below isC isD open_ free (Partition.together_symm same))) different
    · exact absurd same (clustered.apart isD openD wasFree)
  · intro d isD openD freeD together
    obtain ⟨different, wasFree⟩ := not_or.mp (mt List.mem_cons.mpr freeD)
    rcases Partition.together_cases clustered.sound merges boundT boundC boundT
        (clustered.bound isD) together with same | ⟨_, same⟩ | ⟨_, same⟩
    · exact clustered.apart isD openD wasFree same
    · exact absurd (open_end openD (clustered.below isC isD open_ free (Partition.together_symm same))) different
    · exact clustered.apart isD openD wasFree same

/-- A partition with the same sets knows the same. -/
theorem same (clustered : Clustered number isClass top kept grounded p) (sets : Partition.SameSets p q) :
    Clustered number isClass top kept grounded q := by
  have together {m n : Nat} (boundM : m < p.parent.size) (boundN : n < p.parent.size) :
      q.Together m n ↔ p.Together m n :=
    Partition.together_same clustered.sound sets boundM boundN
  refine ⟨sets.sound clustered.sound, sets.size ▸ clustered.topBound,
    fun isX => sets.size ▸ clustered.bound isX, ?_, ?_, ?_⟩
  · intro c s step
    obtain ⟨r, repC, repS⟩ := clustered.joins step
    exact ⟨r, sets.keeps repC, sets.keeps repS⟩
  · intro c x isC isX open_ free joined
    exact clustered.below isC isX open_ free
      ((together (clustered.bound isX) (clustered.bound isC)).mp joined)
  · intro c isC open_ free joined
    exact clustered.apart isC open_ free
      ((together clustered.topBound (clustered.bound isC)).mp joined)

/-- In the beginning every class is a cluster of its own. -/
theorem discrete {size : Nat} (topBound : top < size) (bound : ∀ {c}, isClass c → number c < size)
    (injective : ∀ {c x}, isClass c → isClass x → number x = number c → x = c)
    (notTop : ∀ {c}, isClass c → number c ≠ top) :
    Clustered number isClass top [] [] (Partition.discrete size) := by
  have sizeEq : (Partition.discrete size).parent.size = size := by simp [Partition.discrete]
  refine ⟨Partition.discrete_sound size, by rwa [sizeEq], fun isC => by rw [sizeEq]; exact bound isC,
    ?_, ?_, ?_⟩
  · rintro c s ⟨e, member, _⟩
    cases member
  · intro c x isC isX _ _ together
    have number_eq := (Partition.discrete_together (bound isX) (bound isC)).mp together
    exact injective isC isX number_eq ▸ .refl
  · intro c isC _ _ together
    exact notTop isC ((Partition.discrete_together topBound (bound isC)).mp together).symm

end Clustered

/-! ## Links -/

/-- The superclass that a list of edges gives to a class. -/
def upperIn (kept : List Edge) (id : SymbolId) : Option SymbolId :=
  kept.findSome? fun e => if e.cls = id then e.superclass else none

/-- The classes that a list of edges hangs under a class. -/
def childrenIn (kept : List Edge) (id : SymbolId) : List SymbolId :=
  (kept.filter fun e => e.superclass = some id).map Edge.cls

/-- A class with the links that a list of edges gives to it. -/
def linkClass (kept : List Edge) (id : SymbolId) : SymbolKind → SymbolKind :=
  SymbolKind.mapClass fun c => { c with upper := upperIn kept id, children := childrenIn kept id }

variable {kept kept' edges dropped : List Edge} {grounded roots : List SymbolId} {e : Edge}
  {t t' : Table} {c d id x : SymbolId}

theorem extends_upperIn (upper : upperIn kept c = some d) : Extends kept c d := by
  obtain ⟨e, member, found⟩ := List.exists_of_findSome?_eq_some upper
  by_cases same : e.cls = c
  · exact ⟨e, member, same, by simpa [same] using found⟩
  · simp [same] at found

theorem upperIn_eq_some_iff (oneEach : (kept.map Edge.cls).Nodup) :
    upperIn kept c = some d ↔ Extends kept c d := by
  refine ⟨extends_upperIn, fun extends_ => ?_⟩
  cases upper : upperIn kept c with
  | none =>
    obtain ⟨e, member, same, super⟩ := extends_
    have nothing := List.findSome?_eq_none_iff.mp upper e member
    simp [same, super] at nothing
  | some d' => rw [extends_unique oneEach (extends_upperIn upper) extends_]

theorem upperIn_eq_none (open_ : ∀ s, ¬ Extends kept c s) : upperIn kept c = none := by
  cases upper : upperIn kept c with
  | none => rfl
  | some d => exact absurd (extends_upperIn upper) (open_ d)

theorem mem_childrenIn : c ∈ childrenIn kept d ↔ Extends kept c d := by
  simp only [childrenIn, List.mem_map, List.mem_filter, decide_eq_true_eq, Extends]
  constructor
  · rintro ⟨e, ⟨member, super⟩, same⟩
    exact ⟨e, member, same, super⟩
  · rintro ⟨e, member, same, super⟩
    exact ⟨e, ⟨member, super⟩, same⟩

theorem childrenIn_nodup (oneEach : (kept.map Edge.cls).Nodup) : (childrenIn kept d).Nodup :=
  (List.Sublist.map Edge.cls List.filter_sublist).nodup oneEach

/-- Between `t` and `t'` the classes have been linked along the edges `kept`. -/
structure Linked (kept : List Edge) (t t' : Table) : Prop where
  edited : Table.Edited (linkClass kept) t t'
  scopes : t'.scopes.size = t.scopes.size

theorem linked_nil (fresh : FreshClasses t) : Linked [] t t := by
  refine ⟨(Table.Edited.refl t).congr fun id sym held => ?_, rfl⟩
  cases kind : sym.kind with
  | cls c =>
    have isClass : t.class? id = some c := by
      simp [Table.class?, held, Symbol.class?, kind, SymbolKind.class?]
    obtain ⟨noUpper, noChildren, _⟩ := fresh.unlinked isClass
    simp only [linkClass, SymbolKind.mapClass, upperIn, childrenIn, List.findSome?_nil, List.filter_nil,
      List.map_nil]
    rw [← noUpper, ← noChildren]
  | «variable» => rfl
  | globalVariable => rfl
  | function => rfl
  | method => rfl
  | overloads => rfl
  | className => rfl

theorem class_linked (linked : Linked kept t t') {k : ClassSymbol} (held : t.class? id = some k) :
    t'.class? id = some { k with upper := upperIn kept id, children := childrenIn kept id } := by
  obtain ⟨sym, found, isClass⟩ := Table.class_symbol held
  simp only [Table.class?, linked.edited.symbol found, Option.bind_some, Symbol.class?, Symbol.mapKind, linkClass]
  cases kind : sym.kind <;> simp_all [Symbol.class?, SymbolKind.class?, SymbolKind.mapClass]

/-- The table with a scope hung under another. -/
def linkScope (t : Table) (id parent : ScopeId) : Table :=
  { t with scopes := t.scopes.modify id.index fun scope => { scope with parent := some parent } }

theorem link_run {scope parent : ScopeId} (inner : scope ≠ .root) (bound : scope.index < t.scopes.size) :
    t.link scope parent = .ok (linkScope t scope parent) := by
  have held : t.scopes[scope.index]? = some t.scopes[scope.index] := Array.getElem?_eq_getElem bound
  simp only [Table.link, inner, if_false, Table.scope, held, ok_bind, pure_eq_ok, linkScope,
    Except.ok.injEq]
  have scopes : t.scopes.setIfInBounds scope.index { t.scopes[scope.index] with parent := some parent } =
      t.scopes.modify scope.index fun scope => { scope with parent := some parent } := by
    apply Array.ext_getElem?
    intro i
    rw [Array.getElem?_setIfInBounds, Array.getElem?_modify]
    by_cases same : scope.index = i
    · subst same
      simp [bound]
    · simp [same]
  rw [scopes]

/-- Puts a class behind the children of another. -/
def addChild (cls : SymbolId) : SymbolKind → SymbolKind :=
  SymbolKind.mapClass fun c => { c with children := c.children ++ [cls] }

/-- Gives a class its superclass. -/
def setUpper (superclass : SymbolId) : SymbolKind → SymbolKind :=
  SymbolKind.mapClass fun c => { c with upper := some superclass }

/-- The table with one class hung under another. -/
def attached (t : Table) (cls superclass : SymbolId) (scope superScope : ScopeId) : Table :=
  linkScope ((t.edit superclass (addChild cls)).edit cls (setUpper superclass)) scope superScope

theorem run_classSymbol {s : AnalysisState} {k : ClassSymbol} (held : s.table.class? id = some k) :
    (classSymbol id).run s = .ok (k, s) := by
  obtain ⟨sym, found, isClass⟩ := Table.class_symbol held
  simp only [classSymbol, run_seq (run_symbol found), isClass]
  rfl

theorem attach_run {s : AnalysisState} {k u : ClassSymbol} (clsHeld : s.table.class? c = some k)
    (superHeld : s.table.class? d = some u) (inner : k.scope ≠ .root)
    (bound : k.scope.index < s.table.scopes.size) :
    (attach c d).run s = .ok ((), { s with table := attached s.table c d k.scope u.scope }) := by
  obtain ⟨sym, found, _⟩ := Table.class_symbol clsHeld
  obtain ⟨superSym, superFound, _⟩ := Table.class_symbol superHeld
  unfold attach
  rw [run_seq (run_classSymbol clsHeld), run_seq (run_classSymbol superHeld),
    run_seq (run_modifySymbol superFound)]
  have stillFound : ((s.table.edit d (addChild c)).symbol? c).isSome := by
    simp [Table.edit_symbol?, found]
  obtain ⟨sym', found'⟩ := Option.isSome_iff_exists.mp stillFound
  rw [run_seq (run_modifySymbol found')]
  apply run_update
  rw [link_run inner (by simpa using bound)]
  rfl

theorem upperIn_append (super : e.superclass = some d) (open_ : ∀ s, ¬ Extends kept e.cls s) :
    upperIn (kept ++ [e]) id = if id = e.cls then some d else upperIn kept id := by
  simp only [upperIn, List.findSome?_append, List.findSome?_cons, List.findSome?_nil]
  by_cases same : id = e.cls
  · subst same
    have nothing := upperIn_eq_none open_
    unfold upperIn at nothing
    simp [nothing, super]
  · simp [same, Ne.symm same]

theorem childrenIn_append (super : e.superclass = some d) :
    childrenIn (kept ++ [e]) id = childrenIn kept id ++ if id = d then [e.cls] else [] := by
  simp only [childrenIn, List.filter_append, List.map_append]
  by_cases same : id = d
  · simp [same, super]
  · simp [same, super, Ne.symm same]

/-- Hanging a class under its superclass links the classes along one more edge. -/
theorem linked_attached {scope superScope : ScopeId} (linked : Linked kept t t') (super : e.superclass = some d)
    (open_ : ∀ s, ¬ Extends kept e.cls s) : Linked (kept ++ [e]) t (attached t' e.cls d scope superScope) := by
  have steps := (linked.edited.trans (Table.Edited.edit t' d (addChild e.cls))).trans
    (Table.Edited.edit _ e.cls (setUpper d))
  have edited : Table.Edited (linkClass (kept ++ [e])) t
      ((t'.edit d (addChild e.cls)).edit e.cls (setUpper d)) := by
    refine steps.congr fun id sym _ => ?_
    simp only [linkClass, upperIn_append super open_, childrenIn_append super]
    split <;> split <;> simp only [addChild, setUpper, SymbolKind.mapClass_mapClass, List.append_nil]
  exact ⟨⟨edited.size, edited.classCount, edited.symbols⟩, by simp [attached, linkScope, linked.scopes]⟩

/-! ## The run -/

/-- The number of a class in the partition. -/
def number (t : Table) (id : SymbolId) : Nat := ((t.class? id).map ClassSymbol.runtimeId).getD 0

def IsClass (t : Table) (id : SymbolId) : Prop := (t.class? id).isSome

/-- The diagnostic for a class that inherits from itself. -/
def selfReport (t : Table) (e : Edge) : Diagnostic :=
  ⟨.inheritsFromItself (((t.class? e.cls).map ClassSymbol.displayName).getD ""), e.span⟩

/-- The edges that remain to be gone through are those of other classes than before. -/
structure Pending (t : Table) (kept : List Edge) (grounded : List SymbolId) (edges : List Edge) : Prop where
  once : (edges.map Edge.cls).Nodup
  classes : ∀ e ∈ edges, IsClass t e.cls ∧ ∀ s, e.superclass = some s → IsClass t s
  isOpen : ∀ e ∈ edges, (∀ s, ¬ Extends kept e.cls s) ∧ e.cls ∉ grounded

namespace Pending

theorem tail (pending : Pending t kept grounded (e :: edges)) : Pending t kept grounded edges :=
  ⟨(List.nodup_cons.mp pending.once).2, fun x inside => pending.classes x (List.mem_cons_of_mem _ inside),
    fun x inside => pending.isOpen x (List.mem_cons_of_mem _ inside)⟩

theorem other (pending : Pending t kept grounded (e :: edges)) {x : Edge} (inside : x ∈ edges) : x.cls ≠ e.cls := by
  intro same
  have repeated : e.cls ∈ edges.map Edge.cls := List.mem_map.mpr ⟨x, inside, same⟩
  exact (List.nodup_cons.mp pending.once).1 repeated

theorem keep (pending : Pending t kept grounded (e :: edges)) : Pending t (kept ++ [e]) grounded edges := by
  refine ⟨pending.tail.once, pending.tail.classes, fun x inside => ⟨fun s step => ?_, ?_⟩⟩
  · rcases extends_append.mp step with old | ⟨same, _⟩
    · exact (pending.tail.isOpen x inside).1 s old
    · exact pending.other inside same.symm
  · exact (pending.tail.isOpen x inside).2

theorem ground (pending : Pending t kept grounded (e :: edges)) :
    Pending t kept (e.cls :: grounded) edges := by
  refine ⟨pending.tail.once, pending.tail.classes, fun x inside => ⟨(pending.tail.isOpen x inside).1, ?_⟩⟩
  intro member
  rcases List.mem_cons.mp member with same | old
  · exact pending.other inside same
  · exact (pending.tail.isOpen x inside).2 old

end Pending

/-- **Attaching.** The run goes through every edge list and decides on each edge as `Attaches` does. -/
theorem attachAll_run (fresh : FreshClasses t) {s : AnalysisState} {sets : Partition}
    (linked : Linked kept t s.table)
    (clustered : Clustered (number t) (IsClass t) (t.classCount + 1) kept grounded sets)
    (pending : Pending t kept grounded edges) :
    ∃ kept' dropped roots s', Attaches kept edges kept' dropped roots ∧
      (attachAll (t.classCount + 1) edges sets).run s = .ok (roots, s') ∧
      Linked kept' t s'.table ∧ s'.problems = s.problems ++ dropped.map (selfReport t) := by
  induction edges generalizing kept grounded sets s with
  | nil => exact ⟨kept, [], [], s, .done, rfl, linked, by simp⟩
  | cons e edges ih =>
    obtain ⟨isC, superClass⟩ := pending.classes e (by simp)
    obtain ⟨isOpen, free⟩ := pending.isOpen e (by simp)
    obtain ⟨k, held⟩ := Option.isSome_iff_exists.mp isC
    have numberC : number t e.cls = k.runtimeId := by simp [number, held]
    have nowHeld := class_linked linked held
    have boundC := clustered.bound isC
    unfold attachAll
    rw [run_seq (run_classSymbol nowHeld)]
    cases super : e.superclass with
    | none =>
      rcases Partition.unite_spec clustered.sound clustered.topBound boundC with
        ⟨joined, _⟩ | ⟨_, q, united, merges⟩
      · exact absurd joined (clustered.apart isC isOpen free)
      · obtain ⟨kept', dropped, roots, s', attaches, ran, linked', problems⟩ :=
          ih linked (clustered.ground isC isOpen free merges) pending.ground
        refine ⟨kept', dropped, e.cls :: roots, s', .root super attaches, ?_, linked', problems⟩
        rw [numberC] at united
        simp only
        rw [run_seq (run_lift united), run_seq ran]
        rfl
    | some d =>
      have isS := superClass d super
      obtain ⟨u, superHeld⟩ := Option.isSome_iff_exists.mp isS
      have numberS : number t d = u.runtimeId := by simp [number, superHeld]
      have superNow := class_linked linked superHeld
      have boundS := clustered.bound isS
      have leadsBack := clustered.together_iff isC isS isOpen free
      rcases Partition.unite_spec clustered.sound boundS boundC with
        ⟨joined, q, united, sets⟩ | ⟨apart, q, united, merges⟩ <;> rw [numberC, numberS] at united
      · obtain ⟨kept', dropped, roots, s', attaches, ran, linked', problems⟩ :=
          @ih _ _ { s with problems := s.problems ++ [selfReport t e] } _ linked (clustered.same sets)
            pending.tail
        refine ⟨kept', e :: dropped, e.cls :: roots, s', .drop super (leadsBack.mp joined) attaches,
          ?_, linked', by simp [problems]⟩
        simp only
        rw [run_seq (run_classSymbol superNow), run_seq (run_lift united)]
        simp only [Bool.false_eq_true, if_false]
        have reported : selfReport t e = ⟨.inheritsFromItself k.displayName, e.span⟩ := by
          simp [selfReport, held]
        rw [reported] at ran
        rw [run_seq run_report, run_seq ran]
        rfl
      · have different : e.cls ≠ d := by
          rintro rfl
          exact apart (Partition.together_refl clustered.sound boundC)
        have attachedRun := attach_run nowHeld superNow (fresh.ownScope held).1
          (linked.scopes ▸ (fresh.ownScope held).2)
        obtain ⟨kept', dropped, roots, s', attaches, ran, linked', problems⟩ :=
          @ih _ _ { s with table := _ } _ (linked_attached linked super isOpen)
            (clustered.keep isC isS super isOpen free merges) pending.keep
        refine ⟨kept', dropped, roots, s', .keep super (mt leadsBack.mpr apart) attaches, ?_, linked',
          problems⟩
        simp only
        rw [run_seq (run_classSymbol superNow), run_seq (run_lift united)]
        simp only [if_true]
        rw [run_seq attachedRun]
        exact ran

end Quasicode.Hierarchy
