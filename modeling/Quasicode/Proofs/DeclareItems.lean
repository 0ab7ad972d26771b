import Quasicode.Proofs.HierarchyExtended
import Quasicode.Proofs.OverrideSets

/-!
The declaration of everything but the variables of a program: a pass over the classes, one over their members and one
over the functions, and then the hierarchy of all classes that there are.
-/
namespace Quasicode.Binding

open Analysis
open Table (Persists Enlarges Fills Follows)
open Diagnostic (Fine Plain)

variable {bound : Nat} {t t₀ : Table}
variable {t' : Table} {item : Item} {count : Nat} {edges : List Hierarchy.Edge}
variable {s s' : AnalysisState} {items out : List Item}

/-- What is known of the items of a program once everything but its variables is declared. -/
def ItemDeclared (bound count : Nat) (t : Table) : Item → Prop :=
  Item.Are (·.Declared bound count t) (·.Declared bound t) (·.Holds (.fresh bound True))

/-- What is known of them on a quiet run. -/
def ItemSigned (t : Table) : Item → Prop :=
  Item.Are (·.Signed t) (·.Signed t none) fun _ => True

/-- What declarations tell of the items. -/
def ItemTold (t : Table) : Item → Prop := Item.Are (·.Told t) (·.Sized t) fun _ => True

theorem ItemTold.mono (persists : t.Persists t') (accrues : t.Accrues t') (told : ItemTold t item) : ItemTold t' item :=
  Item.Are.mono told (fun _ told => told.mono persists accrues) (fun _ sized => sized.mono persists) fun _ _ => trivial

theorem ItemDeclared.mono (persists : t.Persists t') (declared : ItemDeclared bound count t item) :
    ItemDeclared bound count t' item :=
  Item.Are.mono declared (fun _ declared => declared.mono persists) (fun _ declared => declared.mono persists)
    fun _ fresh => fresh

theorem ItemSigned.mono (persists : t.Persists t') (signed : ItemSigned t item) : ItemSigned t' item :=
  Item.Are.mono signed (fun _ signed => signed.mono persists) (fun _ signed => signed.mono persists)
    fun _ known => known

/-- The edges of the classes of a table that has gained nothing but unlinked classes. -/
theorem edges_waiting (enlarges : Enlarges bound t₀ t)
    (all : edges.map Hierarchy.Edge.cls = (t.symbols.toList.filter (·.class?.isSome)).map Symbol.id)
    (within : ∀ edge ∈ edges, edge.span.Within bound)
    (superclass : ∀ edge ∈ edges, ∀ d, edge.superclass = some d → t₀.symbols.size ≤ edge.cls.index ∧
    (t.class? d).isSome) :
    Hierarchy.Waiting bound t₀.symbols.size t edges := by
  have sound := enlarges.intact.sound
  refine ⟨?_, fun edge inside => ?_, within, fun edge inside d same => ?_⟩
  · have distinct : (t.symbols.toList.map Symbol.id).Nodup := by
      rw [sound.ids]
      exact List.nodup_range.map fun a b same => congrArg SymbolId.index same
    rw [all]
    exact distinct.sublist (List.filter_sublist.map Symbol.id)
  · exact sound.mem_classes.mp (all ▸ List.mem_map_of_mem inside)
  · obtain ⟨newer, isClass⟩ := superclass edge inside d same
    refine ⟨newer, isClass, fun y up => ?_⟩
    obtain ⟨k, held, _⟩ := enlarges.under.mp up
    exact absurd (Table.class_bound (by simp [held])) (Nat.not_lt.mpr newer)

/-- A build over classes that have just been declared tells what overrides what. -/
theorem build_declared (all : edges.map Hierarchy.Edge.cls = (t.symbols.toList.filter (·.class?.isSome)).map Symbol.id)
    (superclass : ∀ edge ∈ edges, ∀ d, edge.superclass = some d → (t.class? d).isSome) (declared : t.Declared none)
    {problems : List Diagnostic} (ran : (Hierarchy.build edges).run ⟨t, problems⟩ = .ok ((), s)) :
    ∃ found, s.problems = problems ++ found ∧ s.table.TypedBySignature ∧ Hierarchy.Overriding s.table ∧
      ((∀ d ∈ found, d.cause.ofOverriding = false) → Hierarchy.Settled s.table) := by
  have oneEach : Hierarchy.OneEdgeEach t edges := by
    refine ⟨?_, fun id => ?_, superclass⟩
    · rw [all]
      exact declared.well.ids_nodup.sublist (List.filter_sublist.map _)
    · simp only [all, List.mem_map, List.mem_filter, declared.well.mem_symbols]
      constructor
      · rintro ⟨s, ⟨held, isClass⟩, rfl⟩
        simpa [Table.class?, held] using isClass
      · intro held
        obtain ⟨k, held⟩ := Option.isSome_iff_exists.mp held
        obtain ⟨s, found, isClass⟩ := Table.class_symbol held
        obtain rfl := declared.well.numbered found
        exact ⟨s, ⟨found, by simp [isClass]⟩, rfl⟩
  obtain ⟨t', found, goes, methods, overriding, settled⟩ :=
    Hierarchy.build_settled (s := ⟨t, problems⟩) declared.freshClasses oneEach declared.ownedMethods declared.bare
  cases goes.symm.trans ran
  exact ⟨found, rfl, methods.typedBySignature declared.typedBySignature, overriding, settled⟩

/-- What is known of the items before the members of classes are declared. -/
def ItemBegun (bound count : Nat) (t : Table) : Item → Prop :=
  Item.Are (·.Begun bound count t) (·.Fresh bound True) (·.Holds (.fresh bound True))

theorem ItemBegun.mono (persists : t.Persists t') (begun : ItemBegun bound count t item) :
    ItemBegun bound count t' item :=
  Item.Are.mono begun (fun _ begun => begun.mono persists) (fun _ fresh => fresh) fun _ fresh => fresh

theorem ItemBegun.symbol {id : SymbolId} (begun : ItemBegun bound count t item)
    (same : item.classSymbol = some id) : count ≤ id.index ∧ id.index < t.symbols.size := by
  cases item with
  | cls c =>
    obtain ⟨newer, _, _, k, _, held, _⟩ := Class.Begun.opened begun id same
    exact ⟨newer, Table.class_bound (by simp [held])⟩
  | function f => cases same
  | stmt s => cases same

/-- Each class gets a symbol of its own. -/
theorem declareClasses_goes (intact : t.Intact bound) (fresh : ∀ item ∈ items, item.Fresh bound) :
    Goes (Plain bound) t (items.mapM (mapClasses declareClass))
      (fun items' t' => Fills bound t t' ∧ (∀ item ∈ items', ItemBegun bound t.symbols.size t' item) ∧
        (items'.filterMap Item.classSymbol).Nodup)
      fun items' t' => t.Proper → t'.Proper ∧ ∀ item ∈ items',
      item.Are (·.symbol.isSome) (fun _ => True) fun _ => True := by
  induction items generalizing t with
  | nil => exact .pure ⟨.refl intact, by simp⟩ fun good => ⟨good, by simp⟩
  | cons item items ih =>
    obtain ⟨first, others⟩ := List.forall_mem_cons.mp fresh
    have one : Goes (Plain bound) t (mapClasses declareClass item)
        (fun item' t' => Fills bound t t' ∧ ItemBegun bound t.symbols.size t' item')
        fun item' t' => t.Proper → t'.Proper ∧ item'.Are (·.symbol.isSome) (fun _ => True) fun _ => True := by
      cases item with
      | cls c =>
        apply (declareClass_goes first intact).bind
        rintro c' t' ⟨lays, begun⟩
        exact .pure ⟨lays, begun⟩ fun known => known
      | function f => exact .pure ⟨.refl intact, first⟩ fun good => ⟨good, trivial⟩
      | stmt s => exact .pure ⟨.refl intact, first⟩ fun good => ⟨good, trivial⟩
    rw [List.mapM_cons]
    apply one.bind
    rintro item' t₁ ⟨lays₁, begun⟩
    apply (ih lays₁.intact others).bind
    rintro items' t₂ ⟨lays₂, begun', apart⟩
    refine .pure ⟨lays₁.trans lays₂, List.forall_mem_cons.mpr ⟨begun.mono lays₂.persists, fun item'' inside => ?_⟩, ?_⟩
      fun known' known good => ⟨(known' (known good).1).1,
      List.forall_mem_cons.mpr ⟨(known good).2, (known' (known good).1).2⟩⟩
    · exact Item.Are.mono (begun' item'' inside) (fun _ begun => begun.older lays₁.size) (fun _ fresh => fresh)
        fun _ fresh => fresh
    · cases isClass : item'.classSymbol with
      | none => rwa [List.filterMap_cons_none isClass]
      | some id =>
        rw [List.filterMap_cons_some isClass, List.nodup_cons]
        refine ⟨fun inside => ?_, apart⟩
        obtain ⟨item'', inside, same⟩ := List.mem_filterMap.mp inside
        exact absurd (begun.symbol isClass).2 (Nat.not_lt.mpr ((begun' item'' inside).symbol same).1)

/-- The passes over the classes, their members and the functions. -/
theorem declareAll_goes (intact : t.Intact bound) (fresh : ∀ item ∈ items, item.Fresh bound) :
    Goes (Plain bound) t (declareAll items)
      (fun items' t' => Fills bound t t' ∧
        (∀ item ∈ items', ItemDeclared bound t.symbols.size t' item ∧ ItemTold t' item) ∧
        (items'.filterMap Item.classSymbol).Nodup)
      fun items' t' => t.Proper → t'.Proper ∧ ∀ item ∈ items', ItemSigned t' item := by
  unfold declareAll
  apply (declareClasses_goes intact fresh).bind
  rintro items₁ t₁ ⟨lays₁, begun, apart⟩
  have members : Goes (Plain bound) t₁ (items₁.mapM (mapClasses declareMembers))
      (fun items' t' => Fills bound t₁ t' ∧
        (∀ item ∈ items', item.Are (fun c => c.Declared bound t.symbols.size t' ∧ c.Told t')
        (·.Fresh bound True) (·.Holds (.fresh bound True))) ∧
        items'.filterMap Item.classSymbol = items₁.filterMap Item.classSymbol)
      fun items' t' => t₁.Proper → t'.Proper ∧
        ((∀ item ∈ items₁, item.Are (·.symbol.isSome) (fun _ => True) fun _ => True) →
        ∀ item ∈ items', item.Are (·.Signed t') (fun _ => True) fun _ => True) := by
    apply pass_goes
      (P := ItemBegun bound t.symbols.size) (Q := fun _ => Item.Are (·.symbol.isSome) (fun _ => True) fun _ => True)
      (R := fun t' => Item.Are (fun c => c.Declared bound t.symbols.size t' ∧ c.Told t') (·.Fresh bound True)
      (·.Holds (.fresh bound True))) (S := fun t' => Item.Are (·.Signed t') (fun _ => True) fun _ => True) lays₁.intact
    · exact fun persists _ begun => begun.mono persists
    · exact fun _ holds => holds
    · exact fun persists accrues are => Item.Are.mono are
        (fun _ holds => ⟨holds.1.mono persists, holds.2.mono persists accrues⟩)
        (fun _ fresh => fresh) fun _ fresh => fresh
    · exact fun persists are => Item.Are.mono are (fun _ signed => signed.mono persists) (fun _ known => known)
        fun _ known => known
    · intro item t₂ lays fresh
      cases item with
      | cls c =>
        apply (declareMembers_goes lays.intact fresh).bind
        rintro c' t' ⟨lays', declared, same⟩
        exact .pure ⟨lays', declared, same⟩ fun known good => known good
      | function f => exact .pure ⟨.refl lays.intact, fresh, rfl⟩ fun good => ⟨good, fun _ => trivial⟩
      | stmt s => exact .pure ⟨.refl lays.intact, fresh, rfl⟩ fun good => ⟨good, fun _ => trivial⟩
    · exact begun
  apply members.bind
  rintro items₂ t₂ ⟨lays₂, declared, same₂⟩
  have functions : Goes (Plain bound) t₂ (items₂.mapM (mapFunctions (declareFunction .root none)))
      (fun items' t' => Fills bound t₂ t' ∧
        (∀ item ∈ items', ItemDeclared bound t.symbols.size t' item ∧ ItemTold t' item) ∧
        items'.filterMap Item.classSymbol = items₂.filterMap Item.classSymbol)
      fun items' t' => t₂.Proper → t'.Proper ∧
        ((∀ item ∈ items₂, item.Are (·.Signed t₂) (fun _ => True) fun _ => True) →
        ∀ item ∈ items', ItemSigned t' item) := by
    apply pass_goes
      (P := fun t' => Item.Are (fun c => c.Declared bound t.symbols.size t' ∧ c.Told t') (·.Fresh bound True)
      (·.Holds (.fresh bound True))) (Q := fun t' => Item.Are (·.Signed t') (fun _ => True) fun _ => True)
      (R := fun t' item => ItemDeclared bound t.symbols.size t' item ∧ ItemTold t' item) (S := ItemSigned) lays₂.intact
    · exact fun persists accrues are => Item.Are.mono are
        (fun _ holds => ⟨holds.1.mono persists, holds.2.mono persists accrues⟩)
        (fun _ fresh => fresh) fun _ fresh => fresh
    · exact fun persists are => Item.Are.mono are (fun _ signed => signed.mono persists) (fun _ known => known)
        fun _ known => known
    · exact fun persists accrues holds => ⟨holds.1.mono persists, holds.2.mono persists accrues⟩
    · exact fun persists signed => signed.mono persists
    · intro item t₃ lays fresh
      cases item with
      | cls c => exact .pure ⟨.refl lays.intact, fresh, rfl⟩ fun good => ⟨good, fun signed => signed⟩
      | function f =>
        have unowned : ∀ o, (none : Option MethodOwner) = some o → o.Fit bound t₃.symbols.size := nofun
        apply (declareFunction_goes lays.intact lays.intact.sound.rootInside fresh unowned nofun).bind
        rintro f' t' ⟨lays', declared⟩
        exact .pure ⟨lays', ⟨declared, declared.symbol⟩, rfl⟩
          fun known good => ⟨(known good).1, fun _ => (known good).2⟩
      | stmt s => exact .pure ⟨.refl lays.intact, ⟨fresh, trivial⟩, rfl⟩ fun good => ⟨good, fun _ => trivial⟩
    · exact declared
  apply functions.mono
  · rintro items₃ t₃ ⟨lays₃, declared₃, same₃⟩
    refine ⟨lays₁.trans (lays₂.trans lays₃), declared₃, ?_⟩
    rwa [same₃, same₂]
  · intro items₃ t₃ _ functions members classes good
    obtain ⟨good₁, known₁⟩ := classes good
    obtain ⟨good₂, known₂⟩ := members good₁
    obtain ⟨good₃, known₃⟩ := functions good₂
    exact ⟨good₃, known₃ (known₂ known₁)⟩

/-- **Declaring the items of a program** always goes through; on a quiet run everything is declared as it is written. -/
theorem declareItems_goes (intact : t.Intact bound) (fresh : ∀ item ∈ items, item.Fresh bound) :
      Goes (Fine bound) t (declareItems items)
      (fun items' t' => (Follows bound t t' ∧ t'.Typed t.symbols.size t'.symbols.size ∧
        ∀ item ∈ items', ItemDeclared bound t.symbols.size t' item) ∧ t.Accrues t' ∧
        (∀ item ∈ items', ItemTold t' item) ∧
        (items'.filterMap Item.classSymbol).Nodup) fun items' t' => t.Proper → t'.Proper ∧
        ∀ item ∈ items', ItemSigned t' item := by
  unfold declareItems
  apply ((declareAll_goes intact fresh).weaken fun _ plain => plain.fine).bind
  rintro items₃ t₃ ⟨lays, declared₃, apart⟩
  apply Goes.askTable
  apply ((classEdges_answers lays.intact.sound (fun c inside => (declared₃ (.cls c) inside).1)
    fun s inside => lays.intact.sound.listed inside).weaken fun _ plain => plain.fine).seq
  rintro edges _ ⟨rfl, all, within, superclass⟩
  have lower : ∀ {c d}, t₃.Under c d → c.index < t.symbols.size ∧ d.index < t.symbols.size := by
    intro c d up
    have up := lays.under.mp up
    obtain ⟨k, held, _⟩ := id up
    exact ⟨Table.class_bound (by simp [held]), Table.class_bound (intact.arranged.forest.closed up)⟩
  apply (Hierarchy.build_goes lays.intact (edges_waiting lays.toEnlarges all within superclass) lower).seq
  rintro _ t₄ ⟨follows, accrues, size, proper⟩
  have typed : t₄.Typed t.symbols.size t₄.symbols.size := by
    rw [size]
    exact lays.typed.kept follows.persists (Nat.le_refl _)
  refine .pure ⟨⟨lays.toFollows.trans follows, typed,
    fun item inside => (declared₃ item inside).1.mono follows.persists⟩,
    lays.accrues.trans accrues, fun item inside => (declared₃ item inside).2.mono follows.persists accrues, apart⟩
    fun known good => ?_
  obtain ⟨good₃, signed⟩ := known good
  exact ⟨proper good₃, fun item inside => (signed item inside).mono follows.persists⟩

/-- The parts of a run that has declared the items of a program. -/
theorem declareItems_parts (intact : s.table.Intact bound)
    (fresh : ∀ item ∈ items, item.Fresh bound) (ran : (declareItems items).run s = .ok (out, s')) :
    ∃ s₁ s₂ edges, (declareAll items).run s = .ok (out, s₁) ∧ Fills bound s.table s₁.table ∧
      (classEdges out s₁.table.symbols.toList).run s₁ = .ok (edges, s₂) ∧ s₂.table = s₁.table ∧
      edges.map Hierarchy.Edge.cls = (s₁.table.symbols.toList.filter (·.class?.isSome)).map Symbol.id ∧
      (∀ edge ∈ edges, ∀ d, edge.superclass = some d → (s₁.table.class? d).isSome) ∧
      (Hierarchy.build edges).run s₂ = .ok ((), s') := by
  obtain ⟨out', s₁, declares, ran⟩ := run_bind_ok.mp ran
  obtain ⟨_, _, ⟨⟩, ran⟩ := run_bind_ok.mp ran
  obtain ⟨edges, s₂, asks, ran⟩ := run_bind_ok.mp ran
  obtain ⟨_, s₃, builds, ⟨⟩⟩ := run_bind_ok.mp ran
  obtain ⟨_, _, ⟨lays, declared, _⟩, _⟩ := (declareAll_goes intact fresh).ran declares
  obtain ⟨_, _, ⟨same, all, _, superclass⟩, _⟩ := (classEdges_answers lays.intact.sound
    (fun c inside => (declared (.cls c) inside).1) fun s inside => lays.intact.sound.listed inside).ran asks
  exact ⟨s₁, s₂, edges, declares, lays, asks, same.symm, all,
    fun edge inside d named => (superclass edge inside d named).2, builds⟩

/-- **Declarations make a hierarchy.** After the declarations of a program methods know what overrides them, and they
agree with it unless a method that overrides wrongly was reported. -/
theorem declareItems_overriding (intact : s.table.Intact bound)
    (declared : s.table.Declared none) (fresh : ∀ item ∈ items, item.Fresh bound)
    (ran : (declareItems items).run s = .ok (out, s')) :
    s'.table.TypedBySignature ∧ Hierarchy.Overriding s'.table ∧
      ((∀ d ∈ s'.problems, d.cause.ofOverriding = false) → Hierarchy.Settled s'.table) := by
  obtain ⟨s₁, ⟨_, problems⟩, edges, _, lays, _, rfl, all, superclass, builds⟩ := declareItems_parts intact fresh ran
  obtain ⟨found, grown, typed, overriding, settled⟩ := build_declared all superclass (lays.declared declared) builds
  exact ⟨typed, overriding, fun silent => settled fun d inside => silent d (grown ▸ List.mem_append_right _ inside)⟩

/-- If nothing was reported overriding is settled. -/
theorem declareItems_settled (intact : s.table.Intact bound) (declared : s.table.Declared none)
    (fresh : ∀ item ∈ items, item.Fresh bound)
    (ran : (declareItems items).run s = .ok (out, s')) : (s'.problems = [] → Hierarchy.Settled s'.table) ∧
    s'.table.TypedBySignature := by
  obtain ⟨typed, _, settled⟩ := declareItems_overriding intact declared fresh ran
  exact ⟨fun silent => settled (by simp [silent]), typed⟩

end Quasicode.Binding
