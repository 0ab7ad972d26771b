import Quasicode.Proofs.DeclarePhase
import Quasicode.Proofs.HierarchyBuilt

/-!
Building the hierarchy on a table that has one already. The classes of earlier programs keep their
superclasses, and only the classes declared last can be hung under others. The partition starts
anew and knows nothing of the old links, but no old class lies below a new one, so a path back to
a new class runs along links that were made since. Depths are filled in from every class without
an edge to a superclass, old ones among them, and after each pass they still agree with the links.
-/
namespace Quasicode.Hierarchy

open Relation Analysis
open Table (Persists Follows Advances)
open Diagnostic (Fine)

variable {bound count : Nat} {t t' : Table} {c d x y : SymbolId} {k u : ClassSymbol} {scope outer : ScopeId}
variable {F : Diagnostic → Prop} {edges : List Edge} {depths : SymbolId → Option Nat} {r id : SymbolId}

/-! ## Hanging one class under another -/

/-- A class after `c` is hung under `d`. -/
def relinked (c d x : SymbolId) (k : ClassSymbol) : ClassSymbol :=
  { k with upper := if x = c then some d else k.upper, children := if x = d then k.children ++ [c] else k.children }

theorem attached_class : (attached t c d scope outer).class? x = (t.class? x).map (relinked c d x) := by
  have classes : (attached t c d scope outer).class? x =
      ((t.edit d (addChild c)).edit c (setUpper d)).class? x := rfl
  rw [classes, setUpper, Table.edit_class_eq, addChild, Table.edit_class_eq, Option.map_map]
  congr 1
  funext k
  simp only [Function.comp_apply, relinked]
  split <;> split <;> rfl

theorem attached_held (held : (attached t c d scope outer).class? x = some k) :
    ∃ k', t.class? x = some k' ∧ k = relinked c d x k' := by
  rw [attached_class] at held
  obtain ⟨k', found, same⟩ := Option.map_eq_some_iff.mp held
  exact ⟨k', found, same.symm⟩

theorem attached_under : (attached t c d scope outer).Under x y ↔ (x = c ∧ y = d ∧ (t.class? c).isSome) ∨
    (x ≠ c ∧ t.Under x y) := by
  unfold Table.Under
  rw [attached_class]
  by_cases here : x = c
  · subst here
    cases held : t.class? x with
    | none => simp
    | some k => simp [relinked, eq_comm]
  · constructor
    · rintro ⟨k, held, upper⟩
      obtain ⟨k', found, rfl⟩ := Option.map_eq_some_iff.mp held
      exact .inr ⟨here, k', found, by simpa [relinked, here] using upper⟩
    · rintro (⟨same, _⟩ | ⟨_, k, held, upper⟩)
      · exact absurd same here
      · exact ⟨_, by rw [held]; rfl, by simpa [relinked, here] using upper⟩

theorem linkScope_parent (inside : scope.index < t.scopes.size) (asked : ScopeId) :
    (linkScope t scope outer).parent? asked = if asked = scope then some (some outer) else t.parent? asked := by
  simp only [Table.parent?, linkScope, Array.getElem?_modify]
  by_cases same : asked = scope
  · subst same
    simp [inside]
  · have elsewhere : scope.index ≠ asked.index := fun eq => same (ScopeId.ext eq.symm)
    simp [same, elsewhere]

theorem linkScope_lookup (asked : ScopeId) (key : String) :
    (linkScope t scope outer).lookupLocal asked key = t.lookupLocal asked key := by
  simp only [Table.lookupLocal, Table.scope, linkScope, Array.getElem?_modify]
  by_cases same : scope.index = asked.index
  · rw [if_pos same]
    cases t.scopes[asked.index]? <;> rfl
  · rw [if_neg same]

theorem attached_parent (inside : scope.index < t.scopes.size) (asked : ScopeId) :
    (attached t c d scope outer).parent? asked = if asked = scope then some (some outer) else t.parent? asked :=
  linkScope_parent (by simpa using inside) asked

theorem linkScope_sound (sound : t.Sound bound) (inside : scope.index < t.scopes.size) (inner : scope ≠ .root) :
    (linkScope t scope outer).Sound bound := by
  have size : (linkScope t scope outer).scopes.size = t.scopes.size := by simp [linkScope]
  refine ⟨?_, sound.numbered, ?_, sound.located, ?_, ?_, sound.keyed⟩
  · rw [linkScope_parent inside, if_neg inner.symm]
    exact sound.root
  · intro id s held
    rw [size]
    exact sound.placed held
  · intro asked key id held
    rw [linkScope_lookup] at held
    exact sound.named held
  · intro id s held
    rw [size]
    exact sound.kinds held

theorem linkScope_persists : t.Persists (linkScope t scope outer) := by
  refine ⟨by simp [linkScope], fun held => ⟨_, held, rfl⟩, fun {asked key id} held => ⟨id, ?_⟩, fun held => ?_⟩
  · rw [linkScope_lookup]
    exact held
  · rw [linkScope_lookup]
    exact held

/-- The forest has one link more: from a class without a superclass to one that does not lie below it. -/
theorem attached_forest (forest : t.Forest) (clsHeld : t.class? c = some k) (superHeld : t.class? d = some u)
    (top : k.upper = none) (free : ¬ ReflTransGen t.Under d c) : (attached t c d scope outer).Forest := by
  have noUpper : ∀ y, ¬ t.Under c y := by
    rintro y ⟨k', held, upper⟩
    rw [clsHeld] at held
    cases held
    rw [top] at upper
    cases upper
  have isClass {x : SymbolId} : ((attached t c d scope outer).class? x).isSome = (t.class? x).isSome := by
    rw [attached_class, Option.isSome_map]
  -- A path that comes to `c` never leaves it, so before that it runs along the old links.
  have old {x y : SymbolId} (path : ReflTransGen (attached t c d scope outer).Under x y) :
      ReflTransGen t.Under x y ∨ (ReflTransGen t.Under x c ∧ ReflTransGen (attached t c d scope outer).Under d y) := by
    induction path using ReflTransGen.head_induction_on with
    | refl => exact .inl .refl
    | head step rest ih =>
      rcases attached_under.mp step with ⟨rfl, rfl, _⟩ | ⟨_, step⟩
      · exact .inr ⟨.refl, rest⟩
      · rcases ih with path | ⟨path, rest⟩
        · exact .inl (.head step path)
        · exact .inr ⟨.head step path, rest⟩
  have leaves {y : SymbolId} (path : ReflTransGen (attached t c d scope outer).Under d y) :
      ReflTransGen t.Under d y := by
    rcases old path with path | ⟨back, _⟩
    · exact path
    · exact absurd back free
  refine ⟨?_, ?_, ?_, ?_⟩
  · intro x y up
    rw [isClass]
    rcases attached_under.mp up with ⟨rfl, rfl, _⟩ | ⟨_, up⟩
    · simp [superHeld]
    · exact forest.closed up
  · intro x cycle
    obtain ⟨y, step, back⟩ := TransGen.head'_iff.mp cycle
    rcases attached_under.mp step with ⟨rfl, rfl, _⟩ | ⟨different, step⟩
    · exact free (leaves back)
    · rcases old back with back | ⟨toC, fromD⟩
      · exact forest.acyclic x (.head' step back)
      · exact free ((leaves fromD).trans (.head step toC))
  · intro x y k' held
    obtain ⟨k₀, found, rfl⟩ := attached_held held
    rw [attached_under]
    by_cases here : y = d
    · subst here
      simp only [relinked, if_true, List.mem_append, List.mem_singleton, forest.children found]
      constructor
      · rintro (up | rfl)
        · exact .inr ⟨fun same => noUpper y (same ▸ up), up⟩
        · exact .inl ⟨rfl, trivial, by simp [clsHeld]⟩
      · rintro (⟨rfl, _⟩ | ⟨_, up⟩)
        · exact .inr rfl
        · exact .inl up
    · simp only [relinked, here, if_false, forest.children found]
      constructor
      · intro up
        exact .inr ⟨fun same => noUpper y (same ▸ up), up⟩
      · rintro (⟨_, same, _⟩ | ⟨_, up⟩)
        · exact same.elim
        · exact up
  · intro y k' held
    obtain ⟨k₀, found, rfl⟩ := attached_held held
    by_cases here : y = d
    · subst here
      simp only [relinked, if_true]
      apply (forest.distinct found).append (List.nodup_singleton c)
      rw [List.disjoint_singleton]
      intro inside
      exact noUpper y ((forest.children found).mp inside)
    · simpa only [relinked, here, if_false] using forest.distinct found

theorem attached_arranged (arranged : t.Arranged) (sound : t.Sound bound) (clsHeld : t.class? c = some k)
    (superHeld : t.class? d = some u) (top : k.upper = none) (free : ¬ ReflTransGen t.Under d c) :
    (attached t c d k.scope u.scope).Arranged := by
  have parent (asked : ScopeId) : (attached t c d k.scope u.scope).parent? asked =
      if asked = k.scope then some (some u.scope) else t.parent? asked :=
        attached_parent (sound.class_sound clsHeld).scope asked
  refine ⟨attached_forest arranged.forest clsHeld superHeld top free, ?_, ?_, ?_, ?_, ?_, ?_⟩
  · intro x k' held
    obtain ⟨k₀, found, rfl⟩ := attached_held held
    have numbers := arranged.numbered found
    exact numbers
  · intro x y k' k'' held held' same
    obtain ⟨k₀, found, rfl⟩ := attached_held held
    obtain ⟨k₁, found', rfl⟩ := attached_held held'
    exact arranged.distinct found found' same
  · intro x k' held
    obtain ⟨k₀, found, rfl⟩ := attached_held held
    have inner := arranged.inner found
    exact inner
  · intro x y k' k'' held held' same
    obtain ⟨k₀, found, rfl⟩ := attached_held held
    obtain ⟨k₁, found', rfl⟩ := attached_held held'
    exact arranged.apart found found' same
  · intro asked up inner above
    rw [parent] at above
    split at above
    next here =>
      cases above
      exact ⟨u.scope, rfl, .inr ⟨c, relinked c d c k, by rw [attached_class, clsHeld]; rfl, here.symm⟩⟩
    next =>
      obtain ⟨around, isAround, lower | ⟨x, k₀, found, same⟩⟩ := arranged.upward inner above
      · exact ⟨around, isAround, .inl lower⟩
      · exact ⟨around, isAround, .inr ⟨x, relinked c d x k₀, by rw [attached_class, found]; rfl, same⟩⟩
  · intro x k' held
    obtain ⟨k₀, found, rfl⟩ := attached_held held
    rw [parent]
    by_cases here : x = c
    · subst here
      rw [clsHeld] at found
      cases found
      exact .inr ⟨d, relinked x d d u, by simp [relinked], by rw [attached_class, superHeld]; rfl, if_pos rfl⟩
    · have elsewhere : (relinked c d x k₀).scope ≠ k.scope := fun same => here (arranged.apart found clsHeld same)
      rw [if_neg elsewhere]
      rcases arranged.hung found with ⟨none, up⟩ | ⟨upper, k₁, some, isClass, up⟩
      · exact .inl ⟨by simpa [relinked, here] using none, up⟩
      · exact .inr ⟨upper, relinked c d upper k₁, by simpa [relinked, here] using some,
          by rw [attached_class, isClass]; rfl, up⟩

/-- The class may be given a superclass whatever the depths are: its own says at most that it stands at the top. -/
theorem attached_leveled (leveled : t.Leveled) (clsHeld : t.class? c = some k) (top : k.upper = none) :
    (attached t c d scope outer).Leveled := by
  constructor
  intro x k' n held known
  obtain ⟨k₀, found, rfl⟩ := attached_held held
  rcases leveled.above found known with rfl | ⟨upper, k₁, m, some, isClass, depth, positive, next⟩
  · exact .inl rfl
  · refine .inr ⟨upper, relinked c d upper k₁, m, ?_, by rw [attached_class, isClass]; rfl, depth, positive, next⟩
    have different : x ≠ c := by
      rintro rfl
      rw [clsHeld] at found
      cases found
      rw [top] at some
      cases some
    simpa [relinked, different] using some

/-! ## Attaching the new classes -/

theorem Goes.askClass {β : Type} {f : ClassSymbol → Analysis β} {A B : β → Table → Prop}
    (held : t.class? c = some k) (rest : Goes F t (f k) A B) : Goes F t (classSymbol c >>= f) A B := by
  obtain ⟨s, found, isClass⟩ := Table.class_symbol held
  have first : Goes F t (classSymbol c) (fun k' t' => k = k' ∧ t = t') := by
    unfold classSymbol
    apply Goes.askSymbol found
    simp only [isClass]
    exact .pure ⟨rfl, rfl⟩ trivial
  apply first.seq
  rintro _ _ ⟨rfl, rfl⟩
  exact rest

theorem attached_intact (intact : t.Intact bound) (clsHeld : t.class? c = some k) (superHeld : t.class? d = some u)
    (top : k.upper = none) (free : ¬ ReflTransGen t.Under d c) : (attached t c d k.scope u.scope).Intact bound := by
  have inside := (intact.sound.class_sound clsHeld).scope
  refine ⟨?_, attached_arranged intact.arranged intact.sound clsHeld superHeld top free,
    attached_leveled intact.leveled clsHeld top⟩
  have first : (t.edit d (addChild c)).Sound bound :=
    intact.sound.edit fun held => intact.sound.map_class held fun sound => ⟨sound.scope, sound.methods, sound.fields⟩
  have second : ((t.edit d (addChild c)).edit c (setUpper d)).Sound bound :=
    first.edit fun held => first.map_class held fun sound => ⟨sound.scope, sound.methods, sound.fields⟩
  exact linkScope_sound second (by simpa using inside) (intact.arranged.inner clsHeld)

/-- Between `t` and `t'` only classes and methods have changed, in what is filled in later. -/
structure Relinks (t t' : Table) : Prop where
  persists : t.Persists t'
  size : t'.symbols.size = t.symbols.size
  classes : ∀ id, (t'.class? id).isSome = (t.class? id).isSome
  symbols : ∀ {id s'}, t'.symbol? id = some s' → ∃ s, t.symbol? id = some s ∧ s'.kind.core = s.kind.core ∧
    s'.var? = s.var?
  accrues : t.Accrues t'

namespace Relinks

theorem refl (t : Table) : Relinks t t := ⟨.refl t, rfl, fun _ => rfl, fun held => ⟨_, held, rfl, rfl⟩, .refl t⟩

theorem trans {t'' : Table} (first : Relinks t t') (second : Relinks t' t'') : Relinks t t'' := by
  refine ⟨first.persists.trans second.persists, second.size.trans first.size,
    fun id => (second.classes id).trans (first.classes id), fun held => ?_, first.accrues.trans second.accrues⟩
  obtain ⟨s', held', core', vars'⟩ := second.symbols held
  obtain ⟨s, held, core, vars⟩ := first.symbols held'
  exact ⟨s, held, core'.trans core, vars'.trans vars⟩

/-- Symbols are changed in what is filled in later, and variables not at all. -/
theorem edited {f : SymbolId → SymbolKind → SymbolKind} (edited : Table.Edited f t t') (scopes : t'.scopes = t.scopes)
    (kept : ∀ id kind, (f id kind).core = kind.core) (vars : ∀ id kind, kind.var?.isSome → f id kind = kind)
    (classes : ∀ id kind, (f id kind).class?.map (fun k => (k.scope, k.fields)) = kind.class?.map
    fun k => (k.scope, k.fields)) :
    Relinks t t' := by
  have names (asked : ScopeId) (key : String) : t'.lookupLocal asked key = t.lookupLocal asked key := by
    simp only [Table.lookupLocal, Table.scope, scopes]
  have held_class (id : SymbolId) : (t'.class? id).map (fun k => (k.scope, k.fields)) =
      (t.class? id).map fun k => (k.scope, k.fields) := by
    unfold Table.class?
    rw [edited.symbols]
    cases t.symbol? id with
    | none => rfl
    | some s => exact classes id s.kind
  refine ⟨⟨Nat.le_of_eq (congrArg Array.size scopes.symm), fun held => ⟨_, edited.symbol held, kept _ _⟩,
      fun held => ⟨_, (names _ _).trans held⟩, (names _ _).trans⟩, edited.size, fun id => ?_, fun {id s'} held => ?_,
    fun {id s v} held isVar => ?_, fun home id k' held j inside => ?_⟩
  · simpa only [Option.isSome_map] using congrArg Option.isSome (held_class id)
  · rw [edited.symbols] at held
    obtain ⟨s, found, rfl⟩ := Option.map_eq_some_iff.mp held
    refine ⟨s, found, kept id s.kind, ?_⟩
    cases isVar : s.kind.var? with
    | some v => exact congrArg SymbolKind.var? (vars id s.kind (by simp [isVar]))
    | none =>
      have none := congrArg SymbolKind.var? (kept id s.kind)
      rw [SymbolKind.var_core, SymbolKind.var_core, isVar] at none
      exact (Option.map_eq_none_iff.mp none).trans isVar.symm
  · rw [edited.symbol held, Symbol.mapKind, vars id s.kind (Option.isSome_of_mem isVar)]
  · have same := held_class id
    rw [held] at same
    obtain ⟨k, found, same⟩ := Option.map_eq_some_iff.mp same.symm
    obtain ⟨sameScope, sameFields⟩ := Prod.mk.inj same
    obtain ⟨s, isField, own⟩ := home id k found j (sameFields ▸ inside)
    exact ⟨_, edited.symbol isField, own.trans sameScope⟩

theorem follows (relinks : Relinks t t') (intact : t'.Intact bound) : Follows bound t t' := by
  refine ⟨intact, relinks.persists, fun held _ => relinks.size ▸ Table.symbol_bound held,
    fun old id s' held isGlobal => ?_⟩
  obtain ⟨s, found, core, vars⟩ := relinks.symbols held
  obtain ⟨v, isVar, ready⟩ := old id s found (by
    rw [Symbol.isGlobal, ← SymbolKind.isGlobal_core, ← core, SymbolKind.isGlobal_core]
    exact isGlobal)
  exact ⟨v, vars.trans isVar, ready⟩

theorem proper (relinks : Relinks t t') (good : t.Proper) : t'.Proper := by
  intro id s' held
  obtain ⟨s, found, core, _⟩ := relinks.symbols held
  exact (good id s found).of_core core

end Relinks

theorem attached_relinks : Relinks t (attached t c d scope outer) := by
  have first : Relinks t ((t.edit d (addChild c)).edit c (setUpper d)) := by
    apply Relinks.edited ((Table.Edited.edit t d (addChild c)).trans (Table.Edited.edit _ c (setUpper d))) rfl
    all_goals
      intro id kind
      split <;> split <;> cases kind <;> first | rfl | exact fun _ => rfl | rintro ⟨⟩
  have second : Relinks ((t.edit d (addChild c)).edit c (setUpper d)) (attached t c d scope outer) :=
    ⟨linkScope_persists, rfl, fun _ => rfl, fun held => ⟨_, held, rfl, rfl⟩, fun held _ => held, id⟩
  exact first.trans second

/-- The numbers of classes that a partition knows to be linked: those above the classes declared last. -/
structure Knows (count : Nat) (t : Table) (sets : Partition) : Prop where
  sound : sets.Sound
  size : t.classCount + 2 ≤ sets.parent.size
  joined : ∀ {c d}, t.Under c d → count ≤ c.index → sets.Together (number t c) (number t d)
  lower : ∀ {c d}, t.Under c d → c.index < count → d.index < count

namespace Knows

variable {sets sets' : Partition}

theorem number_bound (knows : Knows count t sets) (intact : t.Intact bound) (held : t.class? c = some k) :
    number t c = k.runtimeId ∧ k.runtimeId < sets.parent.size := by
  have numbers := intact.arranged.numbered held
  have size := knows.size
  exact ⟨by simp [number, held], by omega⟩

/-- A way up to a new class starts at a new class, and the partition knows it. -/
theorem path (knows : Knows count t sets) (intact : t.Intact bound) (isClass : (t.class? x).isSome)
    (path : ReflTransGen t.Under x c) (newer : count ≤ c.index) :
    count ≤ x.index ∧ sets.Together (number t x) (number t c) := by
  induction path using ReflTransGen.head_induction_on with
  | refl =>
    obtain ⟨k, held⟩ := Option.isSome_iff_exists.mp isClass
    obtain ⟨same, below⟩ := knows.number_bound intact held
    exact ⟨newer, Partition.together_refl knows.sound (same ▸ below)⟩
  | head step _ ih =>
    obtain ⟨newer', together⟩ := ih (intact.arranged.forest.closed step)
    have newer'' := Nat.le_of_not_lt fun older => Nat.not_lt.mpr newer' (knows.lower step older)
    exact ⟨newer'', Partition.together_trans (knows.joined step newer'') together⟩

/-- The partition may know more than the links. -/
theorem mono (knows : Knows count t sets) (sound : sets'.Sound) (size : sets'.parent.size = sets.parent.size)
    (more : ∀ {a b}, sets.Together a b → sets'.Together a b) : Knows count t sets' :=
  ⟨sound, size ▸ knows.size, fun step newer => more (knows.joined step newer), knows.lower⟩

/-- The new link is known. -/
theorem attach (knows : Knows count t sets) (newer : count ≤ c.index)
    (together : sets.Together (number t c) (number t d)) :
    Knows count (attached t c d scope outer) sets := by
  have numbers (x : SymbolId) : number (attached t c d scope outer) x = number t x := by
    simp only [number, attached_class, Option.map_map]
    rfl
  refine ⟨knows.sound, knows.size, fun {x y} step newer' => ?_, fun {x y} step older => ?_⟩
  · rw [numbers, numbers]
    rcases attached_under.mp step with ⟨rfl, rfl, _⟩ | ⟨_, step⟩
    · exact together
    · exact knows.joined step newer'
  · rcases attached_under.mp step with ⟨rfl, rfl, _⟩ | ⟨_, step⟩
    · omega
    · exact knows.lower step older

end Knows

/-- What is left to be attached: the classes that name a superclass are new and have none yet. -/
structure Waiting (bound count : Nat) (t : Table) (edges : List Edge) : Prop where
  once : (edges.map Edge.cls).Nodup
  classes : ∀ edge ∈ edges, (t.class? edge.cls).isSome
  within : ∀ edge ∈ edges, edge.span.Within bound
  superclass : ∀ edge ∈ edges, ∀ d, edge.superclass = some d →
    count ≤ edge.cls.index ∧ (t.class? d).isSome ∧ ∀ y, ¬ t.Under edge.cls y

theorem Waiting.tail {edge : Edge} {edges : List Edge} (waiting : Waiting bound count t (edge :: edges)) :
    Waiting bound count t edges :=
  ⟨(List.nodup_cons.mp waiting.once).2, fun e inside => waiting.classes e (List.mem_cons_of_mem _ inside),
    fun e inside => waiting.within e (List.mem_cons_of_mem _ inside),
    fun e inside => waiting.superclass e (List.mem_cons_of_mem _ inside)⟩

theorem Waiting.attach {edge : Edge} (waiting : Waiting bound count t (edge :: edges)) :
    Waiting bound count (attached t edge.cls d scope outer) edges := by
  have relinks : Relinks t (attached t edge.cls d scope outer) := attached_relinks
  have rest := waiting.tail
  refine ⟨rest.once, fun e inside => ?_, rest.within, fun e inside y super => ?_⟩
  · rw [relinks.classes]
    exact rest.classes e inside
  · obtain ⟨newer, isClass, unlinked⟩ := rest.superclass e inside y super
    rw [relinks.classes]
    refine ⟨newer, isClass, fun z step => ?_⟩
    rcases attached_under.mp step with ⟨same, _⟩ | ⟨_, step⟩
    · have again : edge.cls ∈ edges.map Edge.cls := List.mem_map.mpr ⟨e, inside, same⟩
      exact (List.nodup_cons.mp waiting.once).1 again
    · exact unlinked z step

/-- What attaching comes to: the table stays intact, and the classes that are left without a superclass are classes. -/
structure Attached (bound : Nat) (t : Table) (roots : List SymbolId) (t' : Table) : Prop where
  intact : t'.Intact bound
  relinks : Relinks t t'
  roots : ∀ r ∈ roots, (t.class? r).isSome

theorem attachAll_goes {sets : Partition} (intact : t.Intact bound) (knows : Knows count t sets)
    (waiting : Waiting bound count t edges) :
    Goes (Fine bound) t (attachAll (t.classCount + 1) edges sets) (Attached bound t) := by
  induction edges generalizing t sets with
  | nil => exact .pure ⟨intact, .refl t, by simp⟩ trivial
  | cons edge edges ih =>
    have isClass := waiting.classes edge List.mem_cons_self
    have within := waiting.within edge List.mem_cons_self
    obtain ⟨k, held⟩ := Option.isSome_iff_exists.mp isClass
    obtain ⟨numberC, boundC⟩ := knows.number_bound intact held
    -- The class stays as it is, and is left to be a root.
    have stays {sets' : Partition} (sound : sets'.Sound) (size : sets'.parent.size = sets.parent.size)
        (more : ∀ {a b}, sets.Together a b → sets'.Together a b) :
        Goes (Fine bound) t (do return edge.cls :: (← attachAll (t.classCount + 1) edges sets'))
          (Attached bound t) := by
      apply (ih intact (knows.mono sound size more) waiting.tail).seq
      rintro roots t' ⟨intact', relinks, classes⟩
      exact .pure ⟨intact', relinks, List.forall_mem_cons.mpr ⟨isClass, classes⟩⟩ trivial
    have kept {sets' : Partition} (same : sets.SameSets sets') {a b : Nat} (together : sets.Together a b) :
        sets'.Together a b := by
      obtain ⟨r, repA, repB⟩ := together
      exact ⟨r, same.keeps repA, same.keeps repB⟩
    unfold attachAll
    apply Goes.askClass held
    cases super : edge.superclass with
    | none =>
      have boundT : t.classCount + 1 < sets.parent.size := by
        have size := knows.size
        omega
      rcases Partition.unite_spec knows.sound boundT boundC with ⟨_, q, united, same⟩ | ⟨_, q, united, merges⟩
      · apply Goes.lift united
        exact stays (same.sound knows.sound) same.size (kept same)
      · apply Goes.lift united
        exact stays (merges.sound knows.sound boundT boundC) merges.1
          (Partition.together_kept knows.sound merges boundT boundC)
    | some d =>
      obtain ⟨newer, isSuper, unlinked⟩ := waiting.superclass edge List.mem_cons_self d super
      obtain ⟨u, superHeld⟩ := Option.isSome_iff_exists.mp isSuper
      obtain ⟨numberD, boundD⟩ := knows.number_bound intact superHeld
      apply Goes.askClass superHeld
      rcases Partition.unite_spec knows.sound boundD boundC with ⟨_, q, united, same⟩ | ⟨apart, q, united, merges⟩
      · apply Goes.lift united
        refine .reports ⟨within, by simp⟩ ?_
        exact stays (same.sound knows.sound) same.size (kept same)
      · apply Goes.lift united
        have free : ¬ ReflTransGen t.Under d edge.cls := by
          intro back
          have together := (knows.path intact isSuper back newer).2
          rw [numberC, numberD] at together
          exact apart together
        have top : k.upper = none := by
          cases upper : k.upper with
          | none => rfl
          | some y => exact absurd ⟨k, held, upper⟩ (unlinked y)
        have inside := (intact.sound.class_sound held).scope
        have intact' := attached_intact intact held superHeld top free
        have joined : q.Together (number t edge.cls) (number t d) := by
          rw [numberC, numberD]
          exact Partition.together_symm (Partition.together_joined knows.sound merges boundD boundC)
        have knows' : Knows count (attached t edge.cls d k.scope u.scope) q :=
          (knows.mono (merges.sound knows.sound boundD boundC) merges.1
            (Partition.together_kept knows.sound merges boundD boundC)).attach newer joined
        have ran : Goes (Fine bound) t (Hierarchy.attach edge.cls d)
            (fun _ t' => attached t edge.cls d k.scope u.scope = t') :=
          .of fun problems => ⟨(), attached t edge.cls d k.scope u.scope, [], by
            rw [List.append_nil]
            exact attach_run (s := ⟨t, problems⟩) held superHeld (intact.arranged.inner held) inside, by
              simp, rfl, fun _ => trivial⟩
        apply ran.seq
        rintro _ _ rfl
        apply (ih intact' knows' waiting.attach).imp
        rintro roots t' ⟨intact'', relinks, classes⟩
        refine ⟨intact'', attached_relinks.trans relinks, fun r inside' => ?_⟩
        rw [← attached_relinks.classes]
        exact classes r inside'

/-! ## Filling in the depths -/

theorem Deep.relinks (deep : Deep depths t t') : Relinks t t' := by
  apply Relinks.edited deep.edited deep.scopes
  all_goals
    intro id kind
    cases kind <;> first | rfl | exact fun _ => rfl | rintro ⟨⟩

theorem Deep.sound (deep : Deep depths t t') (sound : t.Sound bound) : t'.Sound bound :=
  sound.remap deep.scopes deep.edited.size deep.edited.symbols fun held =>
    sound.map_class held fun sound => ⟨sound.scope, sound.methods, sound.fields⟩

theorem Deep.arranged (deep : Deep depths t t') (arranged : t.Arranged) : t'.Arranged := by
  have parents (asked : ScopeId) : t'.parent? asked = t.parent? asked := by simp only [Table.parent?, deep.scopes]
  have shapes : t.SameShapes t' := by
    refine ⟨fun id => ?_, Nat.le_of_eq deep.edited.classCount.symm, fun _ => parents _, fun outside up => ?_⟩
    · rw [deep_class deep, Option.map_map]
      rfl
    · exact absurd (Table.parent_bound (parents _ ▸ up)) outside
  exact shapes.arranged arranged

/-- Depths that agree with the links before a pass from one class down agree with them afterwards. -/
theorem CountsFrom.leveled (counts : CountsFrom t 1 r (fun x => (t.class? x).bind (·.depth)) depths) (forest : t.Forest)
    (leveled : t.Leveled) (deep : Deep depths t t') : t'.Leveled := by
  constructor
  intro x k n held known
  rw [deep_class deep] at held
  obtain ⟨k₀, found, rfl⟩ := Option.map_eq_some_iff.mp held
  replace known : depths x = some n := known
  by_cases below : ∃ m, Descends t r x m
  · obtain ⟨m, descends⟩ := below
    have depth := counts.below descends
    rw [known] at depth
    cases descends with
    | here => exact .inl (Option.some.inj depth)
    | @step _ y m up rest =>
      obtain ⟨k₁, isUpper⟩ := Option.isSome_iff_exists.mp (forest.closed up)
      obtain ⟨k', found', upper⟩ := up
      rw [found] at found'
      cases found'
      refine .inr ⟨y, { k₁ with depth := depths y }, 1 + m, upper, ?_, counts.below rest, by omega, ?_⟩
      · rw [deep_class deep, isUpper]
        rfl
      · cases depth
        omega
  · have same : depths x = k₀.depth := by
      rw [counts.others fun m descends => below ⟨m, descends⟩]
      simp [found]
    rw [same] at known
    rcases leveled.above found known with rfl | ⟨y, k₁, m, upper, isUpper, depth, positive, next⟩
    · exact .inl rfl
    · have same' : depths y = some m := by
        rw [counts.others fun m descends => below ⟨m + 1, .step ⟨k₀, found, upper⟩ descends⟩]
        simp [isUpper, depth]
      refine .inr ⟨y, { k₁ with depth := depths y }, m, upper, ?_, same', positive, next⟩
      rw [deep_class deep, isUpper]
      rfl

/-- A pass from any class down leaves the table intact. -/
theorem fillPass_goes (intact : t.Intact bound) (isClass : (t.class? r).isSome) :
    Goes F t (fillDepth (t.symbols.size + 1) 1 r) (fun _ t' => t'.Intact bound ∧ Relinks t t') := by
  have forest := intact.arranged.forest
  obtain ⟨level, depth⟩ := forest.depth_exists isClass
  refine .of fun problems => ?_
  have enough : t.symbols.size < t.symbols.size + 1 + level := by omega
  obtain ⟨depths, t', ran, deep, counts⟩ :=
    fillDepth_run (n := 1) forest depth enough (s := ⟨t, problems⟩) (deep_refl t)
  exact ⟨(), t', [], by rw [List.append_nil, ran], by simp,
    ⟨⟨deep.sound intact.sound, deep.arranged intact.arranged, counts.leveled forest intact.leveled deep⟩, deep.relinks⟩,
    fun _ => trivial⟩

/-! ## Overriding methods -/

section Overriding

variable {gain : SymbolId → List SymbolId} (gained : Overridden gain t t')
include gained

theorem Overridden.relinks : Relinks t t' := by
  apply Relinks.edited gained.edited gained.scopes
  all_goals
    intro id kind
    cases kind <;> first | rfl | exact fun _ => rfl | rintro ⟨⟩

theorem Overridden.intact (intact : t.Intact bound)
    (below : ∀ m, ∀ x ∈ gain m, (t.symbol? x).isSome) : t'.Intact bound := by
  have parents (asked : ScopeId) : t'.parent? asked = t.parent? asked := by simp only [Table.parent?, gained.scopes]
  apply intact.keep
  · refine ⟨fun id => by rw [gained.class_same], gained.edited.classCount, fun _ => parents _, fun outside up => ?_⟩
    exact absurd (Table.parent_bound (parents _ ▸ up)) outside
  · apply intact.sound.remap gained.scopes gained.edited.size gained.edited.symbols
    intro id s held
    refine intact.sound.map_method held fun sound => ⟨sound.function, sound.owner, ?_, sound.nameSpan,
      sound.staticSpan, sound.returnSpan⟩
    refine List.forall_mem_append.mpr ⟨sound.overriders, fun x inside => ?_⟩
    obtain ⟨s', held'⟩ := Option.isSome_iff_exists.mp (below id x inside)
    exact Table.symbol_bound held'

end Overriding

theorem overrideReports_fine {ancestor method : MethodSymbol} {p : Diagnostic} (sound : method.Sound bound count)
    (reported : p ∈ overrideReports ancestor method) : Fine bound p := by
  have getD {span : Option Span} (within : ∀ s, span = some s → s.Within bound) :
      (span.getD method.nameSpan).Within bound := by
    cases span with
    | none => exact sound.nameSpan
    | some s => exact within s rfl
  rcases List.mem_append.mp reported with static | returns
  · split at static
    · rw [List.mem_singleton.mp static]
      exact ⟨getD sound.staticSpan, by simp⟩
    · cases static
  · split at returns
    · rw [List.mem_singleton.mp returns]
      exact ⟨getD sound.returnSpan, by simp⟩
    · cases returns

theorem overrideAll_goes {roots : List SymbolId} {limit : Nat} (intact : t.Intact bound)
    (classes : ∀ root ∈ roots, (t.class? root).isSome) (enough : t.symbols.size < limit) :
    Goes (Fine bound) t (roots.forM fun root => do let _ ← findOverrides (fun _ found => found) limit [] root)
      (fun _ t' => t'.Intact bound ∧ Relinks t t') := by
  refine .of fun problems => ?_
  have methods : ∀ {id k}, t.class? id = some k → ∀ m ∈ k.methods, (t.symbol? m).isSome := fun held m inside =>
    Option.isSome_iff_exists.mpr (Table.symbol_exists ((intact.sound.class_sound held).methods m inside))
  obtain ⟨t', ran, gained⟩ :=
    @overrideAll_run _ _ _ limit _ (fun _ _ => .refl _) intact.arranged.forest methods classes enough
    ⟨t, problems⟩ (overridden_refl t)
  refine ⟨(), t', _, ran, fun p reported => ?_, ⟨gained.intact intact fun m x inside => ?_, gained.relinks⟩,
    fun _ => trivial⟩
  · obtain ⟨root, _, reported⟩ := List.mem_flatMap.mp reported
    obtain ⟨m, ancestor, method, held, reported⟩ := mem_reportsFrom reported
    obtain ⟨s, found, isMethod⟩ := Table.method_symbol held
    exact overrideReports_fine (intact.sound.method_sound found isMethod) reported
  · obtain ⟨root, _, inside⟩ := List.mem_flatMap.mp inside
    exact gainFrom_exists inside

/-! ## The whole hierarchy -/

/-- **Rebuilding the hierarchy.** From an intact table in which only the classes after the first `count` symbols may be
hung under others it always goes through, and the table stays intact. -/
theorem build_goes (intact : t.Intact bound) (waiting : Waiting bound count t edges)
    (lower : ∀ {c d}, t.Under c d → c.index < count ∧ d.index < count) :
    Goes (Fine bound) t (build edges) (fun _ t' => Follows bound t t' ∧ t.Accrues t' ∧
      t'.symbols.size = t.symbols.size ∧ (t.Proper → t'.Proper)) := by
  unfold build buildIn
  apply Goes.askTable
  extract_lets limit
  have knows : Knows count t (Partition.discrete (t.classCount + 2)) := by
    refine ⟨Partition.discrete_sound _, by simp [Partition.discrete], fun up newer => ?_, fun up _ => (lower up).2⟩
    exact absurd (lower up).1 (Nat.not_lt.mpr newer)
  apply (attachAll_goes intact knows waiting).seq
  rintro roots t₁ ⟨intact₁, relinks₁, classes⟩
  have fill : Goes (Fine bound) t₁ (roots.forM (fillDepth limit 1))
      (fun _ t' => (t'.Intact bound ∧ Relinks t t') ∧ True) fun _ t' => True → True := by
    apply Goes.forM (I := fun t' => t'.Intact bound ∧ Relinks t t') (L := fun _ _ => True) (K := fun _ => True)
      (fun _ => trivial) (fun _ _ => trivial)
    · rintro r inside t₂ ⟨intact₂, relinks₂⟩
      have isClass : (t₂.class? r).isSome := by
        rw [relinks₂.classes]
        exact classes r inside
      have pass := fillPass_goes (F := Diagnostic.Fine bound) intact₂ isClass
      rw [relinks₂.size] at pass
      apply pass.mono
      · exact fun _ t₃ holds => ⟨⟨holds.1, relinks₂.trans holds.2⟩, trivial⟩
      · exact fun _ _ _ _ _ => trivial
    · exact ⟨intact₁, relinks₁⟩
  apply fill.seq
  rintro _ t₂ ⟨⟨intact₂, relinks₂⟩, -⟩
  have enough : t₂.symbols.size < limit := Nat.lt_succ_of_le (Nat.le_of_eq relinks₂.size)
  apply (overrideAll_goes intact₂ (fun r inside => (relinks₂.classes r).trans (classes r inside)) enough).imp
  rintro _ t₃ ⟨intact₃, relinks₃⟩
  have relinks := relinks₂.trans relinks₃
  exact ⟨relinks.follows intact₃, relinks.accrues, relinks.size, relinks.proper⟩

end Quasicode.Hierarchy
