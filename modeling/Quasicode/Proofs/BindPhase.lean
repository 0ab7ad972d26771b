import Quasicode.Proofs.BindMembers
import Quasicode.Proofs.DeclarationErasure
import Quasicode.Proofs.ProgramNames
import Quasicode.Typing.Program

/-!
Binding of whole programs. The items are declared, the globals are declared, their definitions are bound and put in
order, and then the items are bound, all of them but the definitions.
-/
namespace Quasicode

open Analysis
open Table (Persists Advances Follows)
open Diagnostic (Plain)

variable {t t' : Table} {s : Stmt} {bound : Nat}

/-- An item that is bound between the symbols `first` and `last`; the definitions of globals are apart. -/
def Item.Threads (bound : Nat) (t : Table) (first : Nat) (item : Item) (last : Nat) : Prop :=
  match item with
  | .cls c => c.Threads bound t first last
  | .function f => f.Threads bound t first last
  | .stmt (.assign _) | .stmt (.assignAll _ _) => threads (fun first a last =>
      if a.declares = [] then a.Threads bound t first last else last = first) first item.assignments last
  | .stmt s => s.Threads bound t first last

/-- An item without empty slots; the classes with a superclass are told by `inherits`. -/
def Item.Whole (t : Table) (inherits : SymbolId → Prop) : Item → Prop :=
  Item.Are (·.Filled t inherits) (·.Filled t (Binding.Context.Inherits .top) none)
    (·.Holds (.filled t (Binding.Context.Inherits .top)))

theorem Item.Whole.mono {inherits : SymbolId → Prop} {item : Item} (persists : t.Persists t')
    (filled : item.Whole t inherits) : item.Whole t' inherits :=
  Item.Are.mono filled (fun _ filled => filled.mono persists) (fun _ filled => filled.mono persists)
    fun _ filled => filled.mono (Checks.filled_mono persists)

/-- A statement that is nothing but assignments. -/
def Stmt.isAssignment : Stmt → Bool
  | .assign _ | .assignAll _ _ => true
  | _ => false

theorem Stmt.no_assignments (other : s.isAssignment = false) : (Item.stmt s).assignments = [] := by
  cases s with
  | assign | assignAll => cases other
  | _ => rfl

theorem Stmt.isAssignment_bare (s : Stmt) : s.bare.isAssignment = s.isAssignment := by
  cases s <;> rfl

theorem Item.threads_stmt {first last : Nat} (other : s.isAssignment = false) :
    (Item.stmt s).Threads bound t first last ↔ s.Threads bound t first last := by
  cases s with
  | assign | assignAll => cases other
  | _ => rfl

/-- An item that is nothing but assignments stays one. -/
theorem Item.Like.assignment {item' : Item} (isAssignment : s.isAssignment) (like : (Item.stmt s).Like item') :
    ∃ s', item' = .stmt s' ∧ s'.isAssignment := by
  unfold Item.Like at like
  split at like
  · exact ⟨_, rfl, rfl⟩
  · exact ⟨_, rfl, rfl⟩
  · exact ⟨s, like.symm, isAssignment⟩

theorem Stmt.holds_assignments {c : Checks} (isAssignment : s.isAssignment) :
    s.Holds c ↔ ∀ a ∈ (Item.stmt s).assignments, c.assignment a := by
  cases s with
  | assign part => exact (List.forall_mem_singleton (p := c.assignment)).symm
  | assignAll parts => exact .rfl
  | _ => cases isAssignment

theorem Item.threads_assignments {first last : Nat} (isAssignment : s.isAssignment) :
    (Item.stmt s).Threads bound t first last ↔ threads (fun first a last =>
      if a.declares = [] then a.Threads bound t first last else last = first) first (Item.stmt s).assignments last := by
  cases s with
  | assign | assignAll => rfl
  | _ => cases isAssignment

namespace Binding

variable {bound : Nat} {t t' : Table} {waiting opened : SymbolId → Prop}
variable {site : GlobalSite} {a : Assignment} {count : Nat}

/-! ## Items -/

/-- The assignment of a global is left as it is, and another one declares nothing. -/
structure Settles (a a' : Assignment) : Prop where
  dressed : a.Dresses (.nodes Expr.Unset) a'
  declares : a'.declares = a.declares
  definition : a.declares ≠ [] → a' = a

theorem Defines.placed (defines : a.Defines bound t (Expr.Inner bound t.symbols.size) site) :
    (Checks.placed bound t).assignment a := by
  obtain ⟨id, defining⟩ := defines.left
  obtain ⟨info, name, typeName, same, fresh, fit⟩ := defining.assignee
  obtain ⟨s, held, _⟩ := defining.symbol
  refine ⟨?_, fun e inside => (defines.chained e inside).all, defines.value.all⟩
  rw [same]
  apply placed_of_info fresh rfl
  · exact fun type inside => fit type (by simpa [Expr.writtenTypes] using inside)
  · intro id' inside
    have here : id' = id := by simpa [Expr.slots] using inside
    rw [here]
    exact Table.symbol_bound held

/-- The assignments of an item are bound, but for those that define globals. -/
theorem bindAssignments_goes {index : Nat} (intact : t.Intact bound) (isAssignment : s.isAssignment)
    (sited : (Item.stmt s).Sited bound count t (Expr.Inner bound t.symbols.size) index)
    (unset : (Item.stmt s).All Expr.Unset) :
    Goes (Plain bound) t ((Item.stmt s).mapAssignments fun _ a =>
        if a.declares.isEmpty then bindAssignment .top a else return a)
      (fun item' t' => Table.Binds t.scopes.size bound t t' ∧ (Item.stmt s).Like item' ∧
        List.Forall₂ Settles (Item.stmt s).assignments item'.assignments ∧
        ∀ later, t'.Persists later → item'.Threads bound later t.symbols.size t'.symbols.size)
      fun item' t' => (∀ a ∈ (Item.stmt s).assignments, a.declares ≠ [] →
        (Checks.met t (Context.Inherits .top) .outside).assignment a) →
        ∃ s', item' = .stmt s' ∧ s'.Holds (.met t' (Context.Inherits .top) .outside) := by
  have each : Goes (Plain bound) t ((Item.stmt s).mapAssignments fun _ a =>
        if a.declares.isEmpty then bindAssignment .top a else return a)
      (fun item' t' => Table.Binds t.scopes.size bound t t' ∧ (Item.stmt s).Like item' ∧
        List.Forall₂ (fun x => Settles x.1) (Item.stmt s).assignments.zipIdx item'.assignments ∧
        ∀ later, t'.Persists later → threads (fun first a last =>
          if a.declares = [] then a.Threads bound later first last else last = first)
            t.symbols.size item'.assignments t'.symbols.size)
      fun item' t' => List.Forall₂
        (fun x a' => (x.1.declares ≠ [] → (Checks.met t (Context.Inherits .top) .outside).assignment x.1) →
        (Checks.met t' (Context.Inherits .top) .outside).assignment a')
        (Item.stmt s).assignments.zipIdx item'.assignments := by
    apply mapAssignments_chain (L := Table.Binds t.scopes.size bound) (P := fun _ x => Settles x.1)
      (S := fun t' x a' => (x.1.declares ≠ [] → (Checks.met t (Context.Inherits .top) .outside).assignment x.1) →
        (Checks.met t' (Context.Inherits .top) .outside).assignment a')
      (Q := fun later first a last => if a.declares = [] then a.Threads bound later first last else last = first)
      (fun binds => .refl binds.intact) (fun first second => first.trans second) (fun binds => binds.persists)
    · exact fun _ holds => holds
    · exact fun binds quiet known => binds.checks.assignment _ (quiet known)
    · intro part a here t₁ binds
      apply Goes.ite
      · intro undeclared
        rw [List.isEmpty_iff] at undeclared
        rcases sited.sites part a here with uses | defines
        · have none {a' : Assignment}
              (free : a'.declares ≠ [] → ∃ name, a.left.assigned? = some name ∧ Context.Free t₁ .top name) :
              a'.declares = [] := by
            by_cases none : a'.declares = []
            · exact none
            · obtain ⟨name, same, free⟩ := free none
              exact absurd free (free_iff binds.intact ((uses.known name same).mono binds.persists))
          apply (bindAssignment_goes ((underway_top intact).mono binds) (.inl rfl) uses.fresh).mono
          · rintro a' t' ⟨binds', free, dressed, threads⟩
            refine ⟨binds', ⟨dressed, (none free).trans undeclared.symm, absurd undeclared⟩, fun later persists => ?_⟩
            rw [if_pos (none free)]
            exact threads later persists
          · exact fun a' t' _ met _ => met
        · obtain ⟨id, _, one⟩ := defines.declares fun e inner => inner.undeclaring
          cases one.symm.trans undeclared
      · intro declares
        rw [List.isEmpty_eq_false_iff] at declares
        have same : a.Dresses (.nodes Expr.Unset) a := ⟨rfl, unset.assignment (List.mem_of_getElem? here)⟩
        refine .pure ⟨.refl binds.intact, ⟨same, rfl, fun _ => rfl⟩, fun later _ => ?_⟩ fun met => ?_
        · rw [if_neg declares]
        · exact binds.checks.assignment _ (met declares)
    · exact .refl intact
  apply each.mono
  · rintro item' t' ⟨binds, like, all, chain⟩
    refine ⟨binds, like, forall₂_of_zipIdx all, fun later persists => ?_⟩
    obtain ⟨s', rfl, isAssignment'⟩ := like.assignment isAssignment
    exact (Item.threads_assignments isAssignment').mpr (chain later persists)
  · rintro item' t' ⟨_, like, _⟩ quiet known
    obtain ⟨s', rfl, isAssignment'⟩ := like.assignment isAssignment
    have both := (List.forall₂_and_left (p := fun a : Assignment => a.declares ≠ [] →
      (Checks.met t (Context.Inherits .top) .outside).assignment a) _ _).mpr ⟨known, forall₂_of_zipIdx (R := fun a a' =>
        (a.declares ≠ [] → (Checks.met t (Context.Inherits .top) .outside).assignment a) →
          (Checks.met t' (Context.Inherits .top) .outside).assignment a') quiet⟩
    exact ⟨s', rfl, (Stmt.holds_assignments isAssignment').mpr (forall_right both fun _ _ holds => holds.2 holds.1)⟩

/-- **Binding an item** while the fields in `waiting` cannot be read. -/
theorem bindItem_goes {index : Nat} {item : Item} (intact : t.Intact bound)
    (sited : item.Sited bound count t (Expr.Inner bound t.symbols.size) index) (unset : item.All Expr.Unset)
    (own : ∀ c id k, item = .cls c → c.symbol = some id → t.class? id = some k → ∀ j ∈ k.fields, opened j)
    (waits : ∀ id, waiting id → t.Pending id ∧ ¬ opened id) :
    Goes (Plain bound) t (bindItem item)
      (fun item' t' => Advances bound t t' ∧ t.Moves opened t' ∧ item.Kin item' ∧ item.Dresses Expr.Unset item' ∧
        List.Forall₂ Settles item.assignments item'.assignments ∧
        ∀ later, t'.Persists later → item'.Threads bound later t.symbols.size t'.symbols.size)
      fun item' t' => ItemSigned t item →
        (∀ a ∈ item.assignments, a.declares ≠ [] → (Checks.met t (Context.Inherits .top) .outside).assignment a) →
        (item'.Whole t' fun id => ∃ d, t.Under id d) ∧
        ((∀ id, item.Owns id → t.Pending id) → item'.Bound t' waiting) := by
  cases item with
  | cls c =>
    apply (bindClass_goes intact sited.are unset (fun id k => own c id k rfl) waits).bind
    rintro c' t' ⟨advances, moves, kin, dressed, threads⟩
    exact .pure ⟨advances, moves, kin, ⟨by simp only [Item.bare, dressed.same], dressed.all⟩, .nil, threads⟩
      fun quiet signed _ => quiet signed
  | function f =>
    have valid : Context.Valid t { scope := .root, body := .function, cls := none } :=
      ⟨intact.sound.rootInside, by simp, by rintro (impossible | impossible) <;> cases impossible⟩
    have noneWaits : ∀ id : SymbolId, False → t.Pending id := fun _ => False.elim
    apply (bindFunction_goes intact valid noneWaits sited.are).bind
    rintro f' t' ⟨binds, ⟨kin, dressed⟩, threads⟩
    exact .pure ⟨binds.toAdvances, .ofGains binds.toGains, kin, ⟨by simp only [Item.bare, dressed.same], dressed.all⟩,
      .nil, threads⟩ fun quiet signed _ =>
      ⟨(quiet none signed).1, fun _ => (quiet none signed).2⟩
  | stmt s =>
    cases isAssignment : s.isAssignment with
    | true =>
      have same : bindItem (.stmt s) = (Item.stmt s).mapAssignments fun _ a =>
          if a.declares.isEmpty then bindAssignment .top a else return a := by
        cases s with
        | assign | assignAll => rfl
        | _ => cases isAssignment
      rw [same]
      apply (bindAssignments_goes intact isAssignment sited unset).mono
      · rintro _ _ ⟨binds, like, settles, rest⟩
        have dressed := like.dresses unset (settles.imp fun _ _ settles => settles.dressed)
        exact ⟨binds.toAdvances, .ofGains binds.toGains, .ofLike like, dressed, settles, rest⟩
      · intro _ _ _ quiet _ known
        obtain ⟨s', rfl, met⟩ := quiet known
        exact ⟨met.mono Checks.met_filled, fun _ => met.mono Checks.met_bound⟩
    | false =>
      have same : bindItem (.stmt s) = do return .stmt (← bindStmt .top s) := by
        cases s with
        | assign | assignAll => cases isAssignment
        | _ => rfl
      rw [same]
      have fresh := sited.are (Stmt.no_assignments isAssignment)
      apply (bindStmt_goes (underway_top intact) (.inl rfl) fresh).bind
      rintro s' t' ⟨binds, dressed, threads⟩
      have other : s'.isAssignment = false := by
        rw [← Stmt.isAssignment_bare, dressed.same, Stmt.isAssignment_bare, isAssignment]
      refine .pure ⟨binds.toAdvances, .ofGains binds.toGains, trivial,
        ⟨by simp only [Item.bare, dressed.same], dressed.all⟩, ?_, fun later persists =>
        (Item.threads_stmt other).mpr (threads later persists)⟩
          fun met _ _ => ⟨met.mono Checks.met_filled, fun _ => met.mono Checks.met_bound⟩
      rw [Stmt.no_assignments isAssignment, Stmt.no_assignments other]
      exact .nil

/-! ## All items -/

variable {start : Table}

/-- **Binding the items of a program** once its definitions are bound. Where it is known what the classes have declared,
no item reads a field of a class that comes later. -/
theorem bindItems_goes {known : Prop} : ∀ {items : List Item} {t : Table}, start.Intact bound → start.Advances bound t →
    start.Moves (fun _ => True) t → (known → Homes start items) →
    (∀ item ∈ items, ∃ index, item.Sited bound count start (Expr.Inner bound start.symbols.size) index) →
    (∀ item ∈ items, item.All Expr.Unset) →
    (known → ∀ item ∈ items, ∀ id, item.Owns id → t.Pending id) →
    Goes (Plain bound) t (items.mapM bindItem)
      (fun items' t' => t.Advances bound t' ∧ t.Moves (fun _ => True) t' ∧ List.Forall₂ Item.Kin items items' ∧
        List.Forall₂ (Item.Dresses Expr.Unset) items items' ∧
        List.Forall₂ (fun item item' => List.Forall₂ Settles item.assignments item'.assignments) items items' ∧
        ∀ later, t'.Persists later → threads (Item.Threads bound later) t.symbols.size items' t'.symbols.size)
      fun items' t' => (∀ item ∈ items, ItemSigned start item) →
        (∀ item ∈ items, ∀ a ∈ item.assignments, a.declares ≠ [] →
        (Checks.met start (Context.Inherits .top) .outside).assignment a) →
        (∀ item ∈ items', item.Whole t' fun id => ∃ d, start.Under id d) ∧ (known → boundInTurn t' items')
  | [], t, _, advances, _, _, _, _, _ =>
    .pure ⟨.refl advances.intact, .refl t, .nil, .nil, .nil, fun _ _ => rfl⟩ fun _ _ => ⟨by simp, fun _ => trivial⟩
  | item :: items, t, intact, advances, moves, homes, sited, unset, pending => by
    have own : ∀ c id k, item = .cls c → c.symbol = some id → t.class? id = some k → ∀ j ∈ k.fields,
        known → Opened start item j := by
      rintro c id k rfl isSymbol held j inside isKnown
      rw [moves.classes] at held
      obtain ⟨s, found, scope⟩ := (homes isKnown).home id k held j inside
      rcases (homes isKnown).housed c List.mem_cons_self with ⟨none, _⟩ | ⟨id', k', isSymbol', held', own⟩
      · cases isSymbol.symm.trans none
      · cases isSymbol.symm.trans isSymbol'
        cases held.symm.trans held'
        exact ⟨c, s, rfl, found, scope ▸ own⟩
    have waits : ∀ id, (known ∧ ∃ later ∈ items, later.Owns id) → t.Pending id ∧ ¬ (known → Opened start item id) := by
      rintro id ⟨isKnown, other, inside, owns⟩
      refine ⟨pending isKnown other (List.mem_cons_of_mem _ inside) id owns, fun opened => ?_⟩
      exact (homes isKnown).closed intact ⟨other, inside, owns⟩ (opened isKnown)
    have under : (fun id => ∃ d, t.Under id d) = fun id => ∃ d, start.Under id d :=
      funext fun id => propext (exists_congr fun d => advances.under)
    obtain ⟨index, here⟩ := sited item List.mem_cons_self
    have here := here.mono advances.persists fun _ inner => inner.mono advances.persists.size
    rw [List.mapM_cons]
    apply (bindItem_goes advances.intact here (unset item List.mem_cons_self) own waits).bind
    rintro item' t₁ ⟨advances₁, moves₁, kin, dressed, settles, threadsHere⟩
    have opened₁ : Table.Moves (fun _ => True) _ t₁ := moves₁.mono fun _ _ => trivial
    apply (bindItems_goes intact (advances.trans advances₁) (moves.trans opened₁) (fun isKnown => (homes isKnown).tail)
      (fun other inside => sited other (List.mem_cons_of_mem _ inside))
      (fun other inside => unset other (List.mem_cons_of_mem _ inside)) fun isKnown other inside id owns =>
        moves₁.pending (waits id ⟨isKnown, other, inside, owns⟩).2 (waits id ⟨isKnown, other, inside, owns⟩).1).bind
    rintro items' t₂ ⟨advances₂, moves₂, kins, dressedRest, settled, chain⟩
    refine .pure ⟨advances₁.trans advances₂, opened₁.trans moves₂, .cons kin kins, .cons dressed dressedRest,
      .cons settles settled, fun later persists => ⟨_, threadsHere later (advances₂.persists.trans persists),
      chain later persists⟩⟩ fun rest quiet signed met => ?_
    obtain ⟨signedHere, signedRest⟩ := List.forall_mem_cons.mp signed
    obtain ⟨metHere, metRest⟩ := List.forall_mem_cons.mp met
    obtain ⟨whole, isBound⟩ := quiet (signedHere.mono advances.persists) fun a inside declares =>
      advances.checks.assignment _ (metHere a inside declares)
    obtain ⟨others, inTurn⟩ := rest signedRest metRest
    rw [under] at whole
    refine ⟨List.forall_mem_cons.mpr ⟨whole.mono advances₂.persists, others⟩, fun isKnown => ⟨?_, inTurn isKnown⟩⟩
    have isBound := isBound (pending isKnown item List.mem_cons_self)
    simp only [isKnown, true_and] at isBound
    simp only [Item.Kin.owners kins]
    exact isBound.mono advances₂.stays

/-! ## The definitions of a bound program -/

theorem forall₂_concat {α β γ δ : Type} {R : γ → δ → Prop} {f : α → List γ} {g : β → List δ} {xs : List α} {ys : List β}
    (all : List.Forall₂ (fun x y => List.Forall₂ R (f x) (g y)) xs ys) :
    List.Forall₂ R (xs.flatMap f) (ys.flatMap g) := by
  induction all with
  | nil => exact .nil
  | cons here _ ih =>
    rw [List.flatMap_cons, List.flatMap_cons]
    exact List.rel_append here ih

/-- The definitions of globals are the same before and after the other assignments are bound. -/
theorem settled_definition {as as' : List Assignment} {g : SymbolId} {P : Assignment → Prop}
    (settled : List.Forall₂ Settles as as') :
    (∃ a ∈ as', g ∈ a.declares ∧ P a) ↔ ∃ a ∈ as, g ∈ a.declares ∧ P a := by
  induction settled with
  | nil => simp
  | @cons a a' as as' settles _ ih =>
    simp only [List.mem_cons, exists_eq_or_imp, ih]
    have here : (g ∈ a'.declares ∧ P a') ↔ (g ∈ a.declares ∧ P a) := by
      rw [settles.declares]
      refine and_congr_right fun declares => ?_
      rw [settles.definition (List.ne_nil_of_mem declares)]
    rw [here]

theorem mem_reads_definition {P : Expr → Prop} {id : SymbolId} {span : Span}
    (defines : a.Defines bound t P site) : (id, span) ∈ a.reads ↔ a.Mentions id span := by
  obtain ⟨_, defining⟩ := defines.left
  obtain ⟨_, _, _, same, _⟩ := defining.assignee
  rw [Assignment.reads, same]
  simp [Expr.reads, Expr.mem_reads_iff, Expr.mem_readsAll_iff, Assignment.Mentions]

end Binding

/-! ## Dependencies between the globals of a program -/

namespace Program

/-- The definition of the global `g` refers to the global `h` at `span`. -/
def Refers (program : Program) (t : Table) (g h : SymbolId) (span : Span) : Prop :=
  ∃ a ∈ program.assignments, g ∈ a.declares ∧ a.Mentions h span ∧ t.IsGlobal h

/-- A global depends on those that its definition refers to. -/
def Depends (program : Program) (t : Table) (g h : SymbolId) : Prop := ∃ span, program.Refers t g h span

/-- The definition of the global `g` refers to the global `h` at one of the places. -/
def Marked (program : Program) (t : Table) (places : List Span) (g h : SymbolId) : Prop :=
  ∃ span ∈ places, program.Refers t g h span

/-- The assignments of a program are as their places tell: each of them defines a global, or none. -/
def Sites (bound : Nat) (t : Table) (program : Program) : Prop :=
  ∀ site a, program.assignmentAt? site = some a → a.declares = [] ∨
    a.Defines bound t (Expr.Inner bound t.symbols.size) site

/-- The globals of a program in the order of their initialization, and the references on the cycles that were met. -/
structure Ordered (t : Table) (program : Program) (order : List SymbolId) (circular : List Span) : Prop where
  once : order.Nodup
  defined : ∀ g, g ∈ order ↔ ∃ a ∈ program.assignments, g ∈ a.declares
  earlier : ∀ before g after, order = before ++ g :: after → ∀ h span, program.Refers t g h span →
    span ∈ circular ∧ Relation.ReflTransGen (program.Marked t circular) h g ∨ h ∈ before ∨ h ∉ order
  cyclic : ∀ span ∈ circular, ∃ g h, program.Refers t g h span ∧ Relation.ReflTransGen (program.Depends t) h g
  distinct : circular.Nodup

/-- A bound program whose globals are the symbols from `first` up to `count`; its items were bound after them. -/
structure Numbered (bound : Nat) (t : Table) (program : Program) (order : List SymbolId)
    (first count : Nat) : Prop where
  least : first ≤ count
  globals : ∀ id, id ∈ order ↔ first ≤ id.index ∧ id.index < count
  items : threads (Item.Threads bound t) count program.items t.symbols.size

/-- A bound program without empty slots. -/
structure Complete (t : Table) (program : Program) : Prop where
  proper : t.Proper
  items : ∀ item ∈ program.items, item.Whole t fun id => ∃ d, t.Under id d

end Program

theorem Table.isGlobal_kept {id : SymbolId} (persists : t.Persists t')
    (old : ∀ {id s}, t'.symbol? id = some s → s.isGlobal → id.index < t.symbols.size) :
    t'.IsGlobal id ↔ t.IsGlobal id := by
  constructor
  · rintro ⟨s', held', isGlobal⟩
    obtain ⟨s, held⟩ := symbol_exists (old held' isGlobal)
    obtain ⟨kind, found, core⟩ := persists.symbols held
    cases held'.symm.trans found
    refine ⟨s, held, ?_⟩
    rw [Symbol.isGlobal, ← SymbolKind.isGlobal_core, ← core, SymbolKind.isGlobal_core]
    exact isGlobal
  · rintro ⟨s, held, isGlobal⟩
    obtain ⟨kind, found, core⟩ := persists.symbols held
    refine ⟨_, found, ?_⟩
    rw [Symbol.isGlobal, ← SymbolKind.isGlobal_core, core, SymbolKind.isGlobal_core]
    exact isGlobal

theorem Table.Recolors.checks {inherits : Prop} {spot : Binding.Spot} (recolors : t.Recolors t') :
    (Checks.met t inherits spot).Implies (.met t' inherits spot) :=
  Checks.met_mono recolors.persists (recolors.persists.stays fun held => by rwa [Table.parent?, recolors.scopes])

namespace Binding

variable {bound : Nat} {t t' : Table}
variable {g : SymbolId} {count : Nat} {items items' : List Item} {refs : References} {w : GlobalWalk}

/-- How far globals have come once those of a program are declared. -/
theorem Claims.calm (claims : Table.Claims bound t t') (ready : t.GlobalsReady) (isGlobal : t'.IsGlobal g) :
    t'.statusOf g = (if g.index < t.symbols.size then .ready else .unset) := by
  obtain ⟨s, held, isGlobal⟩ := isGlobal
  rw [Table.statusOf, Table.var_of held]
  split
  next old =>
    rw [claims.old old] at held
    obtain ⟨v, isVar, status⟩ := ready g s held isGlobal
    rw [isVar]
    exact status
  next new =>
    obtain ⟨site, kind, _⟩ := claims.new (Nat.not_lt.mp new) held
    rw [Symbol.var?, kind]
    rfl

theorem Sited.placed {index : Nat} {item : Item}
    (sited : item.Sited bound count t (Expr.Inner bound t.symbols.size) index) :
    ∀ a ∈ item.assignments, (Checks.placed bound t).assignment a := by
  intro a inside
  obtain ⟨part, here⟩ := List.getElem?_of_mem inside
  rcases sited.sites part a here with uses | defines
  · exact ⟨uses.fresh.left.placed, fun e inside => (uses.fresh.chained e inside).mono fun _ fresh => fresh.placed,
      uses.fresh.value.mono fun _ fresh => fresh.placed⟩
  · exact Defines.placed defines

theorem reads_placed {a : Assignment} (placed : (Checks.placed bound t).assignment a) :
    ∀ r ∈ a.reads, r.1.index < t.symbols.size ∧ r.2.Within bound := by
  obtain ⟨left, chained, value⟩ := placed
  have all : ∀ r ∈ Expr.readsAll a.chained.reverse, r.1.index < t.symbols.size ∧ r.2.Within bound := by
    rintro ⟨id, span⟩ inside
    obtain ⟨e, inside, mentions⟩ := Expr.mem_readsAll_iff.mp inside
    exact (chained e (List.mem_reverse.mp inside)).reads_placed _ (Expr.mem_reads_iff.mpr mentions)
  exact List.forall_mem_append.mpr ⟨List.forall_mem_append.mpr ⟨value.reads_placed, all⟩, left.reads_placed⟩

theorem sited_reads {a : Assignment} (sited : ItemsSited bound count t (Expr.Inner bound t.symbols.size) items)
    (inside : a ∈ items.flatMap Item.assignments) : ∀ r ∈ a.reads, r.1.index < t.symbols.size ∧ r.2.Within bound := by
  obtain ⟨item, member, inside⟩ := List.mem_flatMap.mp inside
  obtain ⟨i, found⟩ := List.getElem?_of_mem member
  exact reads_placed (Sited.placed (sited i item found) a inside)

/-- What the order of the globals and their references are like once their definitions are bound. -/
theorem ordering_run (claims : Table.Claims bound t t') (ready : t.GlobalsReady)
    (sited : ItemsSited bound count t' (Expr.Inner bound t'.symbols.size) items)
    (ids : (items.flatMap Item.assignments).flatMap Assignment.declares = idsFrom t.symbols.size t'.symbols.size) :
    ∃ refs w, Walked refs t' [] w ∧ (∀ g, t'.IsGlobal g → w.table.statusOf g = .ready) ∧
      (∀ g r, r ∈ refs.of g ↔ ∃ a ∈ items.flatMap Item.assignments, g ∈ a.declares ∧ r ∈ a.references t') ∧
      ∀ problems, (do orderGlobals (← references (items.flatMap Item.assignments))).run ⟨t', problems⟩ =
        .ok (w.order, ⟨w.table, problems ++ w.circular.map (Diagnostic.mk .circularReference)⟩) := by
  have reads : ∀ a ∈ items.flatMap Item.assignments, ∀ r ∈ a.reads, r.1.index < t'.symbols.size :=
    fun a inside r reads => (sited_reads sited inside r reads).1
  have distinct : ((items.flatMap Item.assignments).flatMap Assignment.declares).Nodup := ids ▸ idsFrom_nodup _ _
  have members (g : SymbolId) (r : Reference) := @mem_references_of (·.references t') g r _ distinct
  have targets : ∀ g, ∀ r ∈ References.of ((items.flatMap Item.assignments).flatMap fun a => a.declares.map
      (·, a.references t')) g, t'.IsGlobal r.target := by
    intro g r inside
    obtain ⟨a, _, _, inside⟩ := (members g r).mp inside
    exact (Assignment.mem_references.mp inside).2
  have calm : ∀ g, t'.IsGlobal g → t'.statusOf g = .unset ∨ t'.statusOf g = .ready := by
    intro g isGlobal
    rw [Claims.calm claims ready isGlobal]
    split
    · exact .inr rfl
    · exact .inl rfl
  obtain ⟨w, walked, done, ran⟩ := orderGlobals_run claims.intact.sound targets calm
  refine ⟨_, w, walked, done, members, fun problems => ?_⟩
  obtain ⟨refs, _, found, asked, silent, ⟨rfl, rfl⟩, _⟩ := (references_answers (F := fun _ => False) reads).run problems
  obtain rfl : found = [] := List.eq_nil_iff_forall_not_mem.mpr silent
  rw [List.append_nil] at asked
  rw [run_seq asked]
  exact ran problems

/-! ## Whole programs -/

/-- What binding leaves of a program, whatever it reports. -/
structure Binds (bound : Nat) (t t' : Table) (program : Program) (order : List SymbolId)
    (circular : List Span) : Prop where
  intact : t'.Intact bound
  persists : t.Persists t'
  ready : t'.GlobalsReady
  numbered : ∃ first count, (t.Typed 0 t.symbols.size → t'.Typed 0 first) ∧ program.Numbered bound t' order first count
  sites : program.Sites bound t'
  ordered : program.Ordered t' order circular
  listed : ∀ g, g ∈ order ↔ t'.IsGlobal g ∧ t.symbols.size ≤ g.index
  within : ∀ span ∈ circular, span.Within bound
  names : t.Typed 0 t.symbols.size → program.Names t' order
  unset : program.All Expr.Unset

/-- The sites of a program whose definitions are left as they are while its other assignments are bound. -/
theorem sites_settled {P : Expr → Prop} (persists : t.Persists t')
    (sited : ItemsSited bound count t P items) (implies : ∀ e, P e → e.Inner bound t'.symbols.size)
    (settled : List.Forall₂ (fun item item' => List.Forall₂ Settles item.assignments item'.assignments) items items') :
    Program.Sites bound t' ⟨items'⟩ := by
  rintro ⟨i, part⟩ a' found
  obtain ⟨item', here', there'⟩ := Option.bind_eq_some_iff.mp found
  obtain ⟨item, here, settled⟩ := forall₂_get settled here'
  obtain ⟨a, there, settles⟩ := forall₂_get settled there'
  rcases (sited i item here).sites part a there with uses | defines
  · exact .inl (settles.declares.trans uses.fresh.undeclaring)
  · obtain ⟨id, _, one⟩ := defines.declares fun e holds => (implies e holds).undeclaring
    rw [settles.definition (by simp [one])]
    exact .inr (defines.mono persists implies)

theorem like_signed (like : List.Forall₂ Item.Like items items')
    (signed : ∀ item ∈ items, ItemSigned t item) : ∀ item ∈ items', ItemSigned t item := by
  have both := (List.forall₂_and_left (p := ItemSigned t) items items').mpr ⟨signed, like⟩
  exact forall_right both fun _ _ holds => holds.2.signed holds.1

theorem like_told (like : List.Forall₂ Item.Like items items')
    (told : ∀ item ∈ items, ItemTold t item) : ∀ item ∈ items', ItemTold t item := by
  have both := (List.forall₂_and_left (p := ItemTold t) items items').mpr ⟨told, like⟩
  exact forall_right both fun _ _ holds => holds.2.told holds.1

/-- A program whose items are about to be bound: `t₁` holds its declarations and `t₂` its globals too, whose definitions
are bound among the items and were ordered by the walk. -/
structure Staged (bound : Nat) (t t₁ t₂ : Table) (items : List Item) (refs : References) (w : GlobalWalk) : Prop where
  follows : Follows bound t t₁
  typed : t₁.Typed t.symbols.size t₁.symbols.size
  ready : t₁.GlobalsReady
  claims : Table.Claims bound t₁ t₂
  told : ∀ item ∈ items, ItemTold t₁ item
  sited : ItemsSited bound t.symbols.size t₂ (Expr.Inner bound t₂.symbols.size) items
  outside : ∀ item ∈ items, ∀ a ∈ item.assignments, a.declares ≠ [] → a.Outside
  ids : (items.flatMap Item.assignments).flatMap Assignment.declares = idsFrom t₁.symbols.size t₂.symbols.size
  walked : Walked refs t₂ [] w
  done : ∀ g, t₂.IsGlobal g → w.table.statusOf g = .ready
  references : ∀ g r, r ∈ refs.of g ↔ ∃ a ∈ items.flatMap Item.assignments, g ∈ a.declares ∧ r ∈ a.references t₂

namespace Staged

variable {t₁ t₂ last : Table} {id : SymbolId}
variable (staged : Staged bound t t₁ t₂ items refs w)
include staged

/-- The globals that are initialized are those that the program declares. -/
theorem mem_order : g ∈ w.order ↔ g ∈ idsFrom t₁.symbols.size t₂.symbols.size := by
  rw [staged.walked.order, mem_idsFrom]
  constructor
  · rintro ⟨isGlobal, unset, _⟩
    obtain ⟨s, held, _⟩ := id isGlobal
    rw [Claims.calm staged.claims staged.ready isGlobal] at unset
    split at unset
    · cases unset
    next new => exact ⟨Nat.not_lt.mp new, Table.symbol_bound held⟩
  · rintro ⟨new, below⟩
    obtain ⟨s, held⟩ := Table.symbol_exists below
    obtain ⟨site, kind, _⟩ := staged.claims.new new held
    have isGlobal : t₂.IsGlobal g := ⟨s, held, by simp [Symbol.isGlobal, kind, SymbolKind.isGlobal]⟩
    refine ⟨isGlobal, ?_, staged.done g isGlobal⟩
    rw [Claims.calm staged.claims staged.ready isGlobal, if_neg (Nat.not_lt.mpr new)]

/-- They are the globals that were not there before. -/
theorem mem_order_iff_new : g ∈ w.order ↔ t₂.IsGlobal g ∧ t.symbols.size ≤ g.index := by
  rw [staged.mem_order, mem_idsFrom]
  constructor
  · rintro ⟨new, below⟩
    obtain ⟨s, held⟩ := Table.symbol_exists below
    obtain ⟨site, kind, _⟩ := staged.claims.new new held
    exact ⟨⟨s, held, by simp [Symbol.isGlobal, kind, SymbolKind.isGlobal]⟩, Nat.le_trans staged.follows.size new⟩
  · rintro ⟨⟨s, held, isGlobal⟩, new⟩
    refine ⟨Nat.le_of_not_lt fun old => ?_, Table.symbol_bound held⟩
    rw [staged.claims.old old] at held
    exact absurd (staged.follows.globals held isGlobal) (Nat.not_lt.mpr new)

/-- A definition reads what it mentions. -/
theorem reads_iff_mentions {a : Assignment} {h : SymbolId} {span : Span} (inside : a ∈ items.flatMap Item.assignments)
    (declares : g ∈ a.declares) : (h, span) ∈ a.reads ↔ a.Mentions h span := by
  obtain ⟨item, member, inside⟩ := List.mem_flatMap.mp inside
  obtain ⟨i, found⟩ := List.getElem?_of_mem member
  obtain ⟨part, here⟩ := List.getElem?_of_mem inside
  rcases (staged.sited i item found).sites part a here with uses | defines
  · simp [uses.fresh.undeclaring] at declares
  · exact mem_reads_definition defines

theorem ordered (globals : ∀ g, last.IsGlobal g ↔ t₂.IsGlobal g)
    (settled : List.Forall₂ Settles (items.flatMap Item.assignments) (items'.flatMap Item.assignments)) :
    Program.Ordered last ⟨items'⟩ w.order w.circular := by
  have walked := staged.walked
  have refers (g h : SymbolId) (span : Span) : Program.Refers ⟨items'⟩ last g h span ↔ ⟨h, span⟩ ∈ refs.of g := by
    rw [Program.Refers, Program.assignments, settled_definition settled, staged.references]
    refine exists_congr fun a => and_congr_right fun inside => and_congr_right fun declares => ?_
    rw [Assignment.mem_references, staged.reads_iff_mentions inside declares, globals]
  have depends (g h : SymbolId) : refs.Depends g h → Program.Depends ⟨items'⟩ last g h := by
    rintro ⟨r, inside, rfl⟩
    exact ⟨r.span, (refers g r.target r.span).mpr inside⟩
  refine ⟨walked.once, fun g => ?_, ?_, ?_, walked.distinct⟩
  · rw [staged.mem_order, ← staged.ids, List.mem_flatMap]
    simpa [Program.assignments] using (settled_definition (g := g) (P := fun _ => True) settled).symm
  · intro before g after split h span mentions
    rcases walked.earlier before g after split _ ((refers g h span).mp mentions) with ⟨found, back⟩ | early | old
    · refine .inl ⟨found, Relation.ReflTransGen.mono (fun x y marked => ?_) _ _ back⟩
      obtain ⟨r, inside, rfl, marked⟩ := marked
      exact ⟨r.span, marked, (refers x r.target r.span).mpr inside⟩
    · exact .inr (.inl early)
    · refine .inr (.inr fun inside => ?_)
      cases ((walked.order h).mp inside).2.1.symm.trans old
  · intro span inside
    obtain ⟨g, r, from_, rfl, reaches⟩ := walked.cyclic span inside
    exact ⟨g, r.target, (refers g r.target r.span).mpr from_, Relation.ReflTransGen.mono depends _ _ reaches⟩

/-- The references on cycles lie in the text. -/
theorem circular_within : ∀ span ∈ w.circular, span.Within bound := by
  intro span inside
  obtain ⟨g, r, from_, rfl, _⟩ := staged.walked.cyclic span inside
  obtain ⟨a, inside, _, refers⟩ := (staged.references g r).mp from_
  exact (sited_reads staged.sited inside _ (Assignment.mem_references.mp refers).1).2

theorem intact : w.table.Intact bound := staged.walked.recolors.intact staged.claims.intact staged.done

theorem persists : t₁.Persists w.table := staged.claims.persists.trans staged.walked.recolors.persists

theorem moves : t₁.Moves (fun _ => True) w.table :=
  ((Claims.moves staged.claims).mono fun _ _ => trivial).trans
    ((Recolors.moves staged.walked.recolors).mono fun _ _ => trivial)

/-- Where each item stands in the table that the walk leaves. -/
theorem sites : ∀ item ∈ items, ∃ index, item.Sited bound t.symbols.size w.table
    (Expr.Inner bound w.table.symbols.size) index := by
  intro item inside
  obtain ⟨i, found⟩ := List.getElem?_of_mem inside
  rw [staged.walked.recolors.size]
  exact ⟨i, (staged.sited i item found).mono staged.walked.recolors.persists fun _ inner => inner⟩

/-- No field of a class of the program has its type yet. -/
theorem pending {c : Class} (inside : Item.cls c ∈ items) (owns : c.Owns id) :
    w.table.Pending id ∧ ∃ s, w.table.symbol? id = some s ∧ c.scope = some s.scope := by
  obtain ⟨f, member, same⟩ := List.mem_map.mp owns
  obtain ⟨s, v, held, isVar, scope, _, _, status⟩ := (staged.told _ inside).fields f member id same
  have held₂ := (Claims.moves staged.claims).kept held isVar not_false
  have other : ¬ t₂.IsGlobal id := by
    intro isGlobal
    have calm := Claims.calm staged.claims staged.ready isGlobal
    rw [Table.statusOf, Table.var_of held₂, isVar] at calm
    split at calm <;> cases status.symm.trans calm
  have held₃ := (Recolors.moves staged.walked.recolors).kept held₂ isVar other
  exact ⟨⟨s, v, held₃, isVar, status⟩, s, held₃, scope⟩

theorem item_pending {item : Item} (inside : item ∈ items) (owns : item.Owns id) : w.table.Pending id := by
  cases item with
  | cls c => exact (staged.pending inside owns).1
  | _ => exact owns.elim

theorem homes (home : t₁.FieldsHome) (apart : (items.filterMap Item.classSymbol).Nodup) : Homes w.table items :=
  ⟨home.kept staged.persists staged.moves.classes,
    fun _ inside => (staged.told _ inside).housed.kept staged.moves.classes rfl rfl,
    fun _ inside _ owns => staged.pending inside owns, apart⟩

theorem typed_all (typed : t.Typed 0 t.symbols.size) : t₁.Typed 0 t₁.symbols.size :=
  (typed.kept staged.follows.persists (Nat.le_refl _)).append staged.typed

/-- A definition reads globals of the program and what has a type already. -/
theorem grounded {a : Assignment} (persists : t₁.Persists last) (typed : t.Typed 0 t.symbols.size)
    (inside : a ∈ items.flatMap Item.assignments) (declares : a.declares ≠ []) : a.Grounded last w.order := by
  obtain ⟨item, member, here⟩ := List.mem_flatMap.mp inside
  refine ⟨staged.outside item member a here declares, fun r reads => ?_⟩
  have below := (sited_reads staged.sited inside r reads).1
  by_cases old : r.1.index < t₁.symbols.size
  · exact .inr fun v isVar => (staged.typed_all typed).kept persists (Nat.le_refl _) r.1 v (Nat.zero_le _) old isVar
  · exact .inl (staged.mem_order.mpr (mem_idsFrom.mpr ⟨Nat.not_lt.mp old, below⟩))

/-- Whom the names of the bound program stand for. -/
theorem names (typed : t.Typed 0 t.symbols.size) (advances : w.table.Advances bound last)
    (moves : w.table.Moves (fun _ => True) last) (kin : List.Forall₂ Item.Kin items items')
    (settled : List.Forall₂ Settles (items.flatMap Item.assignments) (items'.flatMap Item.assignments)) :
    Program.Names last ⟨items'⟩ w.order := by
  have persists := staged.persists.trans advances.persists
  have moves := staged.moves.trans moves
  have typed₁ := staged.typed_all typed
  refine ⟨moves.untypedApart typed₁ staged.follows.intact advances.intact, fun a inside declares => ?_, ?_⟩
  · obtain ⟨g, declared⟩ := List.exists_mem_of_ne_nil _ declares
    obtain ⟨a, early, _, rfl⟩ := (settled_definition (P := (· = a)) settled).mp ⟨a, inside, declared, rfl⟩
    exact staged.grounded persists typed early declares
  · have both := (List.forall₂_and_left (p := ItemTold t₁) _ _).mpr ⟨staged.told, kin⟩
    exact forall_right both fun _ _ holds => (holds.1.registered typed₁).kept (persists.carries moves.classes) holds.2

/-- What is left once the items are bound as well. -/
theorem binds (advances : w.table.Advances bound last) (moves : w.table.Moves (fun _ => True) last)
    (kin : List.Forall₂ Item.Kin items items')
    (settled : List.Forall₂ (fun item item' => List.Forall₂ Settles item.assignments item'.assignments) items items')
    (chain : threads (Item.Threads bound last) w.table.symbols.size items' last.symbols.size)
    (unset : Program.All Expr.Unset ⟨items'⟩) : Binds bound t last ⟨items'⟩ w.order w.circular := by
  have globals (g : SymbolId) : last.IsGlobal g ↔ t₂.IsGlobal g :=
    (Table.isGlobal_kept advances.persists advances.globals).trans staged.walked.recolors.isGlobal
  have assignments := forall₂_concat settled
  have persists₂ := staged.walked.recolors.persists.trans advances.persists
  exact {
    intact := advances.intact
    persists := (staged.follows.persists.trans staged.persists).trans advances.persists
    ready := advances.ready (staged.walked.recolors.globalsReady staged.done)
    numbered := by
      refine ⟨t₁.symbols.size, t₂.symbols.size, fun typed => ?_, staged.claims.persists.size, fun g => ?_, ?_⟩
      · exact (staged.typed_all typed).kept (staged.persists.trans advances.persists) (Nat.le_refl _)
      · rw [staged.mem_order, mem_idsFrom]
      · exact staged.walked.recolors.size ▸ chain
    sites := sites_settled persists₂ staged.sited (fun _ inner => inner.mono persists₂.size) settled
    ordered := staged.ordered globals assignments
    listed := by
      intro g
      rw [globals]
      exact staged.mem_order_iff_new
    within := staged.circular_within
    names := fun typed => staged.names typed advances moves kin assignments
    unset }

end Staged

/-- **Binding a program** always goes through. The diagnostics are those on the references on
cycles, in between others. -/
theorem bind_run {program : Program} (intact : t.Intact bound) (ready : t.GlobalsReady)
    (fresh : ∀ item ∈ program.items, item.Fresh bound) (problems : List Diagnostic) :
    ∃ program' order t' before circular after, (bind program).run ⟨t, problems⟩ = .ok ((program', order),
        ⟨t', problems ++ (before ++ circular.map (Diagnostic.mk .circularReference) ++ after)⟩) ∧
      (∀ d ∈ before ++ after, d.Fine bound) ∧ Binds bound t t' program' order circular ∧
      (before = [] → circular = [] → after = [] → t.Proper →
        program'.Complete t' ∧ (t.FieldsHome → boundInTurn t' program'.items)) ∧ program'.bare = program.bare ∧
      ∃ items s, (declareItems program.items).run ⟨t, problems⟩ = .ok (items, s) ∧ s.table.Intact bound ∧
        Table.Course (Table.Steady bound) s.table t' ∧ s.table.SameMembers t' ∧
        ∃ later, problems ++ (before ++ circular.map (Diagnostic.mk .circularReference) ++ after) =
          s.problems ++ later ∧ ∀ d ∈ later, d.cause.ofHierarchy = false := by
  obtain ⟨items₁, t₁, found₁, ran₁, fine₁, ⟨⟨follows, typed, declared⟩, accrues, told, distinct⟩, quiet₁⟩ :=
    (declareItems_goes intact fresh).run problems
  obtain ⟨-, same₁, unset₁⟩ := (declareItems_dresses fun item inside => (fresh item inside).all_unset).run trivial ran₁
  have ready₁ := follows.ready ready
  obtain ⟨items₂, t₂, found₂, ran₂, fine₂, ⟨claims, like₂, dressed₂, sited₂, ids₂⟩, _⟩ :=
    (declareGlobals_goes follows.intact declared unset₁).run (problems ++ found₁)
  obtain ⟨same₂, unset₂⟩ := Dresses.list dressed₂
  obtain ⟨items₃, _, found₃, ran₃, fine₃, ⟨rfl, like₃, dressed₃, sited₃, outside₃, ids₃⟩, quiet₃⟩ :=
    (bindDefinitions_answers claims.intact sited₂ unset₂).run (problems ++ found₁ ++ found₂)
  obtain ⟨same₃, unset₃⟩ := Dresses.list dressed₃
  obtain ⟨refs, w, walked, done, references, ordered⟩ := ordering_run claims ready₁ sited₃ (ids₃.trans ids₂)
  have staged : Staged bound t t₁ t₂ items₃ refs w :=
    ⟨follows, typed, ready₁, claims, like_told like₃ (like_told like₂ told), sited₃,
    outside₃, ids₃.trans ids₂, walked, done, references⟩
  have apart : (items₃.filterMap Item.classSymbol).Nodup := by
    rw [filterMap_same (like₃.imp fun _ _ like => like.classSymbol),
      filterMap_same (like₂.imp fun _ _ like => like.classSymbol)]
    exact distinct
  obtain ⟨items₅, t₅, found₅, ran₅, fine₅, ⟨advances, moves₅, kin, dressed₅, settled, chain⟩, quiet₅⟩ :=
    (bindItems_goes staged.intact (.refl staged.intact) (.refl _) (fun home => staged.homes (accrues.home home) apart)
      staged.sites unset₃ fun (_ : t.FieldsHome) _ inside _ owns => staged.item_pending inside owns).run
    (problems ++ found₁ ++ found₂ ++ found₃ ++ w.circular.map (Diagnostic.mk .circularReference))
  have ran : (bind program).run ⟨t, problems⟩ = .ok ((⟨items₅⟩, w.order),
      ⟨t₅, problems ++ (found₁ ++ found₂ ++ found₃ ++ w.circular.map
      (Diagnostic.mk .circularReference) ++ found₅)⟩) := by
    unfold bind
    rw [run_seq ran₁, run_seq ran₂, run_seq ran₃, ← bind_assoc, run_seq (ordered _), run_seq ran₅]
    simp only [List.append_assoc]
    rfl
  obtain ⟨same₅, unset⟩ := Dresses.list dressed₅
  have bare : Program.bare ⟨items₅⟩ = program.bare :=
    congrArg Program.mk (((same₅.trans same₃).trans same₂).trans same₁)
  have others : ∀ d ∈ found₂ ++ found₃ ++ w.circular.map (Diagnostic.mk .circularReference) ++ found₅,
      d.cause.ofHierarchy = false := by
    simp only [List.forall_mem_append]
    refine ⟨⟨⟨fun d inside => (fine₂ d inside).other, fun d inside => (fine₃ d inside).other⟩, ?_⟩,
      fun d inside => (fine₅ d inside).other⟩
    exact List.forall_mem_map.mpr fun _ _ => rfl
  refine ⟨⟨items₅⟩, w.order, t₅, found₁ ++ found₂ ++ found₃, w.circular, found₅, ran, ?_, ?_, ?_, bare, items₁, _,
    ran₁, follows.intact, ?_, (staged.moves.trans moves₅).members, _, by simp only [List.append_assoc], others⟩
  · simp only [List.forall_mem_append]
    exact ⟨⟨⟨fine₁, fun d inside => (fine₂ d inside).fine⟩, fun d inside => (fine₃ d inside).fine⟩,
      fun d inside => (fine₅ d inside).fine⟩
  · exact staged.binds advances moves₅ kin settled (chain t₅ (.refl t₅)) unset
  · intro silent circular silent₅ good
    obtain ⟨silent, silent₃⟩ := List.append_eq_nil_iff.mp silent
    obtain ⟨silent₁, _⟩ := List.append_eq_nil_iff.mp silent
    obtain ⟨good₁, signed₁⟩ := quiet₁ silent₁ good
    have signed₃ : ∀ item ∈ items₃, ItemSigned w.table item := fun item inside =>
      (like_signed like₃ (like_signed like₂ signed₁) item inside).mono staged.persists
    have inherits : (fun id => ∃ d, t₅.Under id d) = fun id => ∃ d, w.table.Under id d :=
      funext fun id => propext (exists_congr fun d => advances.under)
    obtain ⟨whole, inTurn⟩ := quiet₅ silent₅ signed₃ fun item member a inside declares =>
      walked.recolors.checks.assignment _ (quiet₃ silent₃ item member a inside declares)
    exact ⟨⟨advances.proper (walked.recolors.proper (claims.proper good₁)), inherits ▸ whole⟩, inTurn⟩
  · have ordering := walked.course.mono fun u recolors => (⟨t₂, claims.intact, recolors⟩ : u.Steady bound)
    exact (claims.course.mono fun _ intact => intact.steady).trans
      (ordering.trans (advances.course.mono fun _ intact => intact.steady))

end Binding

end Quasicode
