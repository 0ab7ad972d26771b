import Mathlib.Logic.Relation
import Quasicode.Binding.Global
import Quasicode.Proofs.TableIntact

/-!
The order in which globals are initialized. The walk along the references goes depth first: the globals that are being
put in order are those on the way to the present one, so a reference back to one of them closes a cycle, and any other
reference of a global that is done leads to one that was done before.
-/
namespace Quasicode

open Relation (ReflTransGen TransGen)

theorem SymbolKind.core_recolored (kind : SymbolKind) (status : Status) :
    (kind.mapVariable fun v => { v with status }).core = kind.core := by
  cases kind <;> rfl

namespace Table

variable {bound : Nat} {t t' t'' : Table} {id : SymbolId} {s : Symbol} {status : Status}

/-! ## How far variables have come -/

/-- How far the initialization of a symbol has come. -/
def statusOf (t : Table) (id : SymbolId) : Status := ((t.var? id).map VariableSymbol.status).getD .ready

def IsGlobal (t : Table) (id : SymbolId) : Prop := ∃ s, t.symbol? id = some s ∧ s.isGlobal

theorem status_eq (held : t.symbol? id = some s) : t.status id = .ok (t.statusOf id) := by
  simp only [Table.status, get_symbol held, ok_bind, pure_eq_ok, statusOf, var_of held]
  cases s.var? <;> rfl

/-- The tables differ at most in how far their globals have come. -/
structure Recolors (t t' : Table) : Prop where
  size : t'.symbols.size = t.symbols.size
  scopes : t'.scopes = t.scopes
  count : t'.classCount = t.classCount
  symbols : ∀ id, ∃ status,
    t'.symbol? id = (t.symbol? id).map (Symbol.mapKind (SymbolKind.mapVariable fun v => { v with status }))
  others : ∀ id, ¬ t.IsGlobal id → t'.symbol? id = t.symbol? id

namespace Recolors

theorem refl (t : Table) : Recolors t t := by
  refine ⟨rfl, rfl, rfl, fun id => ⟨t.statusOf id, ?_⟩, fun _ _ => rfl⟩
  cases held : t.symbol? id with
  | none => rfl
  | some s =>
    rw [statusOf, var_of held]
    obtain ⟨_, _, _, _, kind⟩ := s
    cases kind <;> rfl

theorem isGlobal (recolors : Recolors t t') : t'.IsGlobal id ↔ t.IsGlobal id := by
  obtain ⟨status, same⟩ := recolors.symbols id
  unfold IsGlobal
  rw [same]
  cases t.symbol? id with
  | none => simp
  | some s =>
    obtain ⟨_, _, _, _, kind⟩ := s
    cases kind <;> simp [Symbol.isGlobal, Symbol.mapKind, SymbolKind.mapVariable, SymbolKind.isGlobal]

theorem trans (first : Recolors t t') (second : Recolors t' t'') : Recolors t t'' := by
  refine ⟨second.size.trans first.size, second.scopes.trans first.scopes, second.count.trans first.count, fun id => ?_,
    fun id other => (second.others id (mt first.isGlobal.mp other)).trans (first.others id other)⟩
  obtain ⟨_, before⟩ := first.symbols id
  obtain ⟨status, after⟩ := second.symbols id
  refine ⟨status, ?_⟩
  rw [after, before]
  cases t.symbol? id with
  | none => rfl
  | some s =>
    obtain ⟨_, _, _, _, kind⟩ := s
    cases kind <;> rfl

theorem symbol (recolors : Recolors t t') (held : t'.symbol? id = some s) :
    ∃ s' status, t.symbol? id = some s' ∧ s = s'.mapKind (SymbolKind.mapVariable fun v => { v with status }) := by
  obtain ⟨status, same⟩ := recolors.symbols id
  rw [held] at same
  obtain ⟨s', found, rfl⟩ := Option.map_eq_some_iff.mp same.symm
  exact ⟨s', status, found, rfl⟩

theorem persists (recolors : Recolors t t') : t.Persists t' := by
  have same (scope : ScopeId) (name : String) : t'.lookupLocal scope name = t.lookupLocal scope name :=
    lookupLocal_congr recolors.scopes
  refine ⟨Nat.le_of_eq (congrArg Array.size recolors.scopes).symm, fun {id s} held => ?_,
    fun {scope name id} held => ⟨id, ?_⟩, fun held => ?_⟩
  · obtain ⟨status, found⟩ := recolors.symbols id
    rw [held] at found
    exact ⟨_, found, s.kind.core_recolored status⟩
  · rw [same, held]
  · rw [same, held]

theorem classes (recolors : Recolors t t') : SameClasses t t' := by
  have parents (scope : ScopeId) : t'.parent? scope = t.parent? scope := parent?_congr recolors.scopes
  refine ⟨fun id => ?_, recolors.count, fun {scope} _ => parents scope, fun {scope _} outside up => ?_⟩
  · obtain ⟨status, same⟩ := recolors.symbols id
    unfold class?
    rw [same]
    cases t.symbol? id with
    | none => rfl
    | some s =>
      obtain ⟨_, _, _, _, kind⟩ := s
      cases kind <;> rfl
  · rw [parents] at up
    exact absurd (parent_bound up) outside

theorem proper (recolors : Recolors t t') (good : t.Proper) : t'.Proper := by
  intro id s held
  obtain ⟨s', status, found, rfl⟩ := recolors.symbol held
  exact (good id s' found).of_core (s'.kind.core_recolored status)

/-- Once every global is initialized, the table is as good as before. -/
theorem intact (recolors : Recolors t t') (intact : t.Intact bound)
    (ready : ∀ id, t.IsGlobal id → t'.statusOf id = .ready) :
    t'.Intact bound := by
  have settled {id : SymbolId} {s : Symbol} {v : VariableSymbol} (held : t.symbol? id = some s)
      (isVar : s.var? = some v) :
      t'.statusOf id ≠ .ordering := by
    by_cases isGlobal : t.IsGlobal id
    · simp [ready id isGlobal]
    · rw [statusOf, var?, recolors.others id isGlobal, held, Option.bind_some, isVar]
      exact (intact.sound.variable_sound held isVar).status
  apply intact.keep recolors.classes
  apply intact.sound.remap (f := fun id => SymbolKind.mapVariable fun v => { v with status := t'.statusOf id })
    recolors.scopes recolors.size
  · intro id
    obtain ⟨status, same⟩ := recolors.symbols id
    cases held : t.symbol? id with
    | none => rw [same, held]; rfl
    | some s =>
      rw [held] at same
      rw [statusOf, var_of same, same]
      obtain ⟨_, _, _, _, kind⟩ := s
      cases kind <;> rfl
  · intro id s held
    exact intact.sound.map_variable held (fun isVar sound => ⟨sound.type, settled held isVar⟩) fun typed => typed

theorem globalsReady (recolors : Recolors t t')
    (ready : ∀ id, t.IsGlobal id → t'.statusOf id = .ready) : t'.GlobalsReady := by
  intro id s held isGlobal
  have status := ready id (recolors.isGlobal.mp ⟨s, held, isGlobal⟩)
  rw [statusOf, var_of held] at status
  obtain ⟨_, _, _, _, kind⟩ := s
  cases kind <;> cases isGlobal
  exact ⟨_, rfl, status⟩

end Recolors

theorem setStatus_recolors (isGlobal : t.IsGlobal id) (status : Status) :
    ∃ t', t.setStatus id status = .ok t' ∧ Recolors t t' ∧
    ∀ j, t'.statusOf j = if j = id then status else t.statusOf j := by
  have known := isGlobal
  obtain ⟨s, held, isGlobal⟩ := isGlobal
  have symbols (j : SymbolId) := edit_symbol? t id j (·.mapVariable fun v => { v with status })
  refine ⟨_, modify_edit held, ⟨edit_size, rfl, rfl, fun j => ?_, fun j other => ?_⟩, fun j => ?_⟩
  · by_cases here : j = id
    · exact ⟨status, by simp only [symbols, here, if_true]⟩
    · obtain ⟨own, same⟩ := (Recolors.refl t).symbols j
      refine ⟨own, ?_⟩
      rw [symbols, ← same]
      cases t.symbol? j <;> simp [here]
  · rw [symbols]
    have apart : j ≠ id := by
      rintro rfl
      exact other known
    cases t.symbol? j <;> simp [apart]
  · unfold statusOf var?
    rw [symbols]
    by_cases here : j = id
    · rw [here, held]
      obtain ⟨_, _, _, _, kind⟩ := s
      cases kind <;> cases isGlobal
      simp [Symbol.mapKind, Symbol.var?, SymbolKind.mapVariable, SymbolKind.var?]
    · cases t.symbol? j <;> simp [here]

/-- The table is intact but for how far its globals have come, as long as they are being put in order. -/
def Steady (bound : Nat) (t : Table) : Prop := ∃ u : Table, u.Intact bound ∧ u.Recolors t

theorem Intact.steady (intact : t.Intact bound) : t.Steady bound := ⟨t, intact, .refl t⟩

end Table

namespace Binding

variable {t : Table} {refs : References} {way : List SymbolId} {w w' w'' : GlobalWalk}
variable {id : SymbolId} {path : List Reference}

/-! ## Cycles of references -/

/-- The references to globals in the definition of a global. -/
def References.of (refs : References) (id : SymbolId) : List Reference := (refs.lookup id).getD []

def References.Depends (refs : References) (g h : SymbolId) : Prop := ∃ r ∈ refs.of g, r.target = h

def References.Reaches (refs : References) : SymbolId → SymbolId → Prop := ReflTransGen refs.Depends

/-- A reference at `span` lies on a cycle. -/
def References.OnCycle (refs : References) (span : Span) : Prop :=
  ∃ g, ∃ r ∈ refs.of g, r.span = span ∧ refs.Reaches r.target g

/-- A reference from `g` to `h` is among those that were found on cycles. -/
def References.Marked (refs : References) (circular : List Span) (g h : SymbolId) : Prop :=
  ∃ r ∈ refs.of g, r.target = h ∧ r.span ∈ circular

/-- The way to a global: the references that lead there, last one first, and the globals before it. -/
inductive Trail (refs : References) : SymbolId → List Reference → List SymbolId → Prop
  | root (id : SymbolId) : Trail refs id [] []
  | step {id : SymbolId} {path : List Reference} {before : List SymbolId} {r : Reference} :
    Trail refs id path before → r ∈ refs.of id → Trail refs r.target (r :: path) (id :: before)

namespace Trail

theorem reaches (trail : Trail refs id path way) {g : SymbolId} (inside : g ∈ id :: way) : refs.Reaches g id := by
  induction trail with
  | root id =>
    cases List.mem_singleton.mp inside
    exact .refl
  | step _ r ih =>
    rcases List.mem_cons.mp inside with rfl | inside
    · exact .refl
    · exact (ih inside).tail ⟨_, r, rfl⟩

/-- The references on the way back to `g` lead from `g` to `id`. -/
theorem between (trail : Trail refs id path way) {g : SymbolId} (inside : g ∈ id :: way) :
    ∀ step ∈ path.takeWhile fun step => step.target ≠ g,
      ∃ h, step ∈ refs.of h ∧ refs.Reaches g h ∧ refs.Reaches step.target id := by
  induction trail with
  | root => simp
  | @step id path before r trail here ih =>
    by_cases same : r.target = g
    · simp [same]
    · have inside : g ∈ id :: before := (List.mem_cons.mp inside).resolve_left fun eq => same eq.symm
      rw [List.takeWhile_cons_of_pos (by simpa using same)]
      refine List.forall_mem_cons.mpr ⟨⟨id, here, trail.reaches inside, .refl⟩, fun step later => ?_⟩
      obtain ⟨h, from_, up, down⟩ := ih inside step later
      exact ⟨h, from_, up, down.tail ⟨r, here, rfl⟩⟩

/-- Once the references on the way back to `g` are found on a cycle, they lead from `g` to `id`. -/
theorem marked (trail : Trail refs id path way) {g : SymbolId} {circular : List Span} (inside : g ∈ id :: way)
    (found : ∀ step ∈ path.takeWhile (fun step => step.target ≠ g), step.span ∈ circular) :
    ReflTransGen (refs.Marked circular) g id := by
  induction trail with
  | root id =>
    cases List.mem_singleton.mp inside
    exact .refl
  | @step id path before r trail here ih =>
    by_cases same : r.target = g
    · rw [same]
    · have inside : g ∈ id :: before := (List.mem_cons.mp inside).resolve_left fun eq => same eq.symm
      rw [List.takeWhile_cons_of_pos (by simpa using same), List.forall_mem_cons] at found
      exact (ih inside found.2).tail ⟨r, here, rfl, found.1⟩

end Trail

/-! ## The state of the walk -/

/-- A reference of `g` closes a cycle of references that were all found. -/
def GlobalWalk.Closes (w : GlobalWalk) (refs : References) (g : SymbolId) (r : Reference) : Prop :=
  r.span ∈ w.circular ∧ ReflTransGen (refs.Marked w.circular) r.target g

/-- What is known while the globals in `way` are being put in order. -/
structure Walked (refs : References) (t : Table) (way : List SymbolId) (w : GlobalWalk) : Prop where
  calm : ∀ g, t.IsGlobal g → t.statusOf g = .unset ∨ t.statusOf g = .ready
  recolors : t.Recolors w.table
  course : Table.Course t.Recolors t w.table
  onWay : ∀ g ∈ way, t.IsGlobal g ∧ t.statusOf g = .unset ∧ w.table.statusOf g = .ordering
  apart : way.Nodup
  others : ∀ g, t.IsGlobal g → g ∉ way →
    t.statusOf g = .unset ∧ w.table.statusOf g = .unset ∨ w.table.statusOf g = .ready
  order : ∀ g, g ∈ w.order ↔ t.IsGlobal g ∧ t.statusOf g = .unset ∧ w.table.statusOf g = .ready
  once : w.order.Nodup
  /-- What a global refers to was there before, unless the reference closes a cycle that was found. -/
  earlier : ∀ before g after, w.order = before ++ g :: after → ∀ r ∈ refs.of g,
    w.Closes refs g r ∨ r.target ∈ before ∨ t.statusOf r.target = .ready
  cyclic : ∀ span ∈ w.circular, refs.OnCycle span
  distinct : w.circular.Nodup

/-- What is done stays done. -/
structure GlobalWalk.Later (w w' : GlobalWalk) : Prop where
  circular : ∀ span ∈ w.circular, span ∈ w'.circular
  ready : ∀ g, w.table.statusOf g = .ready → w'.table.statusOf g = .ready

theorem GlobalWalk.Later.refl (w : GlobalWalk) : w.Later w := ⟨fun _ inside => inside, fun _ ready => ready⟩

theorem GlobalWalk.Later.closes {g : SymbolId} {r : Reference} (later : w.Later w') (closes : w.Closes refs g r) :
    w'.Closes refs g r := by
  refine ⟨later.circular _ closes.1, ReflTransGen.mono (fun _ _ marked => ?_) _ _ closes.2⟩
  obtain ⟨step, inside, target, found⟩ := marked
  exact ⟨step, inside, target, later.circular _ found⟩

theorem GlobalWalk.Later.trans (first : w.Later w') (second : w'.Later w'') : w.Later w'' :=
  ⟨fun span inside => second.circular span (first.circular span inside),
    fun g ready => second.ready g (first.ready g ready)⟩

namespace Walked

/-! ## Steps of the walk -/

theorem addCircular (walked : Walked refs t way w) {span : Span} (onCycle : refs.OnCycle span) :
    Walked refs t way (w.addCircular span) ∧ w.Later (w.addCircular span) ∧ span ∈ (w.addCircular span).circular := by
  unfold GlobalWalk.addCircular
  split
  next held => exact ⟨walked, .refl w, List.contains_iff_mem.mp held⟩
  next new =>
    rw [List.contains_iff_mem] at new
    have later : w.Later { w with circular := w.circular ++ [span] } :=
      ⟨fun _ inside => List.mem_append_left _ inside, fun _ ready => ready⟩
    refine ⟨{ walked with earlier := ?_, cyclic := ?_, distinct := ?_ }, later, by simp⟩
    · intro before g after split r inside
      exact (walked.earlier before g after split r inside).imp_left later.closes
    · exact List.forall_mem_append.mpr ⟨walked.cyclic, List.forall_mem_singleton.mpr onCycle⟩
    · exact List.nodup_append.mpr ⟨walked.distinct, List.nodup_singleton _, by
        rintro a inside _ last rfl
        exact new (List.mem_singleton.mp last ▸ inside)⟩

/-- A reference back to the way here closes a cycle, and every reference on it is found. -/
theorem closeCycle (walked : Walked refs t (id :: way) w) (trail : Trail refs id path way) {last : Reference}
    (inside : last ∈ refs.of id) (back : last.target ∈ id :: way) :
    Walked refs t (id :: way) (w.closeCycle path last) ∧ w.Later (w.closeCycle path last) ∧
      (w.closeCycle path last).Closes refs id last := by
  have loop : ∀ {steps : List Reference} {w : GlobalWalk}, Walked refs t (id :: way) w →
      (∀ step ∈ steps, refs.OnCycle step.span) →
      Walked refs t (id :: way) (steps.foldl (fun w step => w.addCircular step.span) w) ∧
        w.Later (steps.foldl (fun w step => w.addCircular step.span) w) ∧
        ∀ step ∈ steps, step.span ∈ (steps.foldl (fun w step => w.addCircular step.span) w).circular := by
    intro steps
    induction steps with
    | nil => exact fun {w} walked _ => ⟨walked, .refl w, by simp⟩
    | cons step steps ih =>
      intro w walked onCycle
      obtain ⟨walked', later, here⟩ := walked.addCircular (onCycle step List.mem_cons_self)
      obtain ⟨walked'', later', found⟩ := ih walked' fun step inside => onCycle step (List.mem_cons_of_mem _ inside)
      exact ⟨walked'', later.trans later', List.forall_mem_cons.mpr ⟨later'.circular _ here, found⟩⟩
  have first : refs.OnCycle last.span := ⟨id, last, inside, rfl, trail.reaches back⟩
  obtain ⟨walked', later, held⟩ := walked.addCircular first
  have others : ∀ step ∈ path.takeWhile (fun step => step.target ≠ last.target), refs.OnCycle step.span := by
    intro step between
    obtain ⟨g, from_, up, down⟩ := trail.between back step between
    exact ⟨g, step, from_, rfl, (down.tail ⟨last, inside, rfl⟩).trans up⟩
  obtain ⟨walked'', later', found⟩ := loop walked' others
  exact ⟨walked'', later.trans later', later'.circular _ held, trail.marked back found⟩

/-- A global that is unset is being put in order from now on. -/
theorem enter (walked : Walked refs t way w) (isGlobal : t.IsGlobal id) (unset : w.table.statusOf id = .unset) :
    ∃ t', w.table.setStatus id .ordering = .ok t' ∧ Walked refs t (id :: way) { w with table := t' } ∧
      w.Later { w with table := t' } := by
  obtain ⟨t', ran, recolors, status⟩ := Table.setStatus_recolors (walked.recolors.isGlobal.mpr isGlobal) .ordering
  have outside : id ∉ way := fun inside => by simp [(walked.onWay id inside).2.2] at unset
  have new : t.statusOf id = .unset := by
    rcases walked.others id isGlobal outside with ⟨new, _⟩ | ready
    · exact new
    · cases unset.symm.trans ready
  have elsewhere {g : SymbolId} (other : g ≠ id) : t'.statusOf g = w.table.statusOf g := by rw [status, if_neg other]
  have later : w.Later { w with table := t' } := by
    refine ⟨fun _ inside => inside, fun g ready => ?_⟩
    rw [elsewhere, ready]
    rintro rfl
    cases unset.symm.trans ready
  have after := walked.recolors.trans recolors
  refine ⟨t', ran, { walked with
    recolors := after, course := walked.course.trans (.single (.modify ran) after), onWay := ?_, apart := ?_,
      others := ?_, order := ?_ }, later⟩
  · refine List.forall_mem_cons.mpr ⟨⟨isGlobal, new, by rw [status, if_pos rfl]⟩, fun g inside => ?_⟩
    obtain ⟨isGlobal, new, colour⟩ := walked.onWay g inside
    refine ⟨isGlobal, new, ?_⟩
    rw [elsewhere, colour]
    rintro rfl
    exact outside inside
  · exact List.nodup_cons.mpr ⟨outside, walked.apart⟩
  · intro g isGlobal outside
    rw [List.mem_cons, not_or] at outside
    rw [elsewhere outside.1]
    exact walked.others g isGlobal outside.2
  · intro g
    rw [walked.order]
    by_cases here : g = id
    · rw [here, status, if_pos rfl, unset]
      simp
    · rw [elsewhere here]

/-- A global is done when all that it refers to is, but for references on cycles. -/
theorem leave (walked : Walked refs t (id :: way) w)
    (done : ∀ r ∈ refs.of id, w.Closes refs id r ∨ t.IsGlobal r.target ∧ w.table.statusOf r.target = .ready) :
    ∃ t', w.table.setStatus id .ready = .ok t' ∧ Walked refs t way { w with table := t', order := w.order ++ [id] } ∧
      w.Later { w with table := t', order := w.order ++ [id] } ∧ t'.statusOf id = .ready := by
  obtain ⟨isGlobal, new, ordering⟩ := walked.onWay id List.mem_cons_self
  obtain ⟨outside, apart⟩ := List.nodup_cons.mp walked.apart
  obtain ⟨t', ran, recolors, status⟩ := Table.setStatus_recolors (walked.recolors.isGlobal.mpr isGlobal) .ready
  have elsewhere {g : SymbolId} (other : g ≠ id) : t'.statusOf g = w.table.statusOf g := by rw [status, if_neg other]
  have unlisted : id ∉ w.order := fun inside => by simp [((walked.order id).mp inside).2.2] at ordering
  have later : w.Later { w with table := t', order := w.order ++ [id] } := by
    refine ⟨fun _ inside => inside, fun g ready => ?_⟩
    rw [status]
    split
    · rfl
    · exact ready
  have after := walked.recolors.trans recolors
  refine ⟨t', ran, { walked with
    recolors := after, course := walked.course.trans (.single (.modify ran) after), onWay := ?_, apart :=
      apart, others := ?_, order := ?_, once := ?_, earlier := ?_ },
    later, by rw [status, if_pos rfl]⟩
  · intro g inside
    obtain ⟨isGlobal, new, colour⟩ := walked.onWay g (List.mem_cons_of_mem _ inside)
    refine ⟨isGlobal, new, ?_⟩
    rw [elsewhere, colour]
    rintro rfl
    exact outside inside
  · intro g isGlobal outside
    by_cases here : g = id
    · exact .inr (by rw [status, if_pos here])
    · rw [elsewhere here]
      exact walked.others g isGlobal (by simp [here, outside])
  · intro g
    rw [List.mem_append, List.mem_singleton, walked.order]
    by_cases here : g = id
    · rw [here, status, if_pos rfl]
      simp [isGlobal, new]
    · simp [here, elsewhere here]
  · exact List.nodup_append.mpr ⟨walked.once, List.nodup_singleton _, by
      rintro a inside _ last rfl
      exact unlisted (List.mem_singleton.mp last ▸ inside)⟩
  · intro before g after split r inside
    rcases List.eq_nil_or_concat after with rfl | ⟨front, last, rfl⟩
    · obtain ⟨rfl, same⟩ := List.append_inj' split rfl
      cases same
      rcases done r inside with found | ⟨isGlobal, ready⟩
      · exact .inl found
      · right
        exact (walked.calm _ isGlobal).imp_left fun new => (walked.order _).mpr ⟨isGlobal, new, ready⟩
    · have split : w.order ++ [id] = (before ++ g :: front) ++ [last] := by simpa using split
      obtain ⟨rest, _⟩ := List.append_inj' split rfl
      exact walked.earlier before g front rest r inside

/-- The way here is no longer than the table. -/
theorem short (walked : Walked refs t way w) : way.length ≤ t.symbols.size := by
  have indices : (way.map SymbolId.index).Nodup := walked.apart.map fun a b same => congrArg SymbolId.mk same
  have below : way.map SymbolId.index ⊆ List.range t.symbols.size := by
    intro n inside
    obtain ⟨g, onWay, rfl⟩ := List.mem_map.mp inside
    obtain ⟨⟨s, held, _⟩, _⟩ := walked.onWay g onWay
    exact List.mem_range.mpr (Table.symbol_bound held)
  simpa using indices.length_le_of_subset below

end Walked

/-! ## Runs of the walk -/

/-- Steps of a walk that are taken one after the other. -/
theorem steps_walk {α : Type} {f : GlobalWalk → α → Except Fault GlobalWalk} {I : GlobalWalk → Prop}
    {D : GlobalWalk → α → Prop} (keeps : ∀ {w w' x}, w.Later w' → D w x → D w' x) :
    ∀ {xs : List α} {w : GlobalWalk}, (∀ x ∈ xs, ∀ w, I w → ∃ w', f w x = .ok w' ∧ I w' ∧ w.Later w' ∧ D w' x) → I w →
      ∃ w', xs.foldlM f w = .ok w' ∧ I w' ∧ w.Later w' ∧ ∀ x ∈ xs, D w' x
  | [], w, _, start => ⟨w, rfl, start, .refl w, by simp⟩
  | x :: xs, w, each, start => by
    obtain ⟨w₁, ran, here, later, done⟩ := each x List.mem_cons_self w start
    obtain ⟨w₂, ran', here', later', others⟩ := steps_walk (f := f) (D := D) keeps
      (fun x inside => each x (List.mem_cons_of_mem _ inside)) here
    refine ⟨w₂, ?_, here', later.trans later', List.forall_mem_cons.mpr ⟨keeps later' done, others⟩⟩
    rw [List.foldlM_cons, ran]
    exact ran'

/-- **Initializing a global** goes through, and the global is done. -/
theorem initializeGlobal_walks (targets : ∀ g, ∀ r ∈ refs.of g, t.IsGlobal r.target) {limit : Nat}
    (walked : Walked refs t way w) (trail : Trail refs id path way)
    (isGlobal : t.IsGlobal id) (unset : w.table.statusOf id = .unset)
    (enough : limit + way.length = t.symbols.size + 1) :
    ∃ w', initializeGlobal refs limit path id w = .ok w' ∧ Walked refs t way w' ∧ w.Later w' ∧
      w'.table.statusOf id = .ready := by
  induction limit generalizing path id way w with
  | zero =>
    have short := walked.short
    omega
  | succ limit ih =>
    obtain ⟨t₁, entered, walked₁, later₁⟩ := walked.enter isGlobal unset
    have loop : ∃ w', ((refs.lookup id).getD []).foldlM
          (fun w step => w.follow (initializeGlobal refs limit (step :: path) step.target) path step)
          { w with table := t₁ } = .ok w' ∧ Walked refs t (id :: way) w' ∧
        GlobalWalk.Later { w with table := t₁ } w' ∧
        ∀ r ∈ refs.of id, w'.Closes refs id r ∨ t.IsGlobal r.target ∧ w'.table.statusOf r.target = .ready := by
      apply steps_walk (I := Walked refs t (id :: way))
        (D := fun w (r : Reference) => w.Closes refs id r ∨ t.IsGlobal r.target ∧ w.table.statusOf r.target = .ready)
      · exact fun later done => done.imp later.closes fun done => ⟨done.1, later.ready _ done.2⟩
      · intro r inside w walked
        have isTarget := targets id r inside
        obtain ⟨s, held, _⟩ := walked.recolors.isGlobal.mpr isTarget
        simp only [GlobalWalk.follow, Table.status_eq held, ok_bind]
        by_cases back : r.target ∈ id :: way
        · rw [(walked.onWay _ back).2.2]
          obtain ⟨walked', later, found⟩ := walked.closeCycle trail inside back
          exact ⟨_, rfl, walked', later, .inl found⟩
        · rcases walked.others _ isTarget back with ⟨_, unset⟩ | ready
          · rw [unset]
            have further : limit + (id :: way).length = t.symbols.size + 1 := by
              rw [List.length_cons]
              omega
            obtain ⟨w', ran, walked', later, done⟩ := ih walked (trail.step inside) isTarget unset further
            exact ⟨w', ran, walked', later, .inr ⟨isTarget, done⟩⟩
          · rw [ready]
            exact ⟨w, rfl, walked, .refl w, .inr ⟨isTarget, ready⟩⟩
      · exact walked₁
    obtain ⟨w₂, looped, walked₂, later₂, done⟩ := loop
    obtain ⟨t₃, left, walked₃, later₃, ready⟩ := walked₂.leave done
    refine ⟨_, ?_, walked₃, later₁.trans (later₂.trans later₃), ready⟩
    unfold initializeGlobal
    rw [entered, ok_bind]
    apply bind_eq_ok.mpr
    refine ⟨w₂, looped, ?_⟩
    rw [left]
    rfl

/-- **Ordering the globals.** -/
theorem orderGlobals_walks (targets : ∀ g, ∀ r ∈ refs.of g, t.IsGlobal r.target) {globals : List Symbol}
    (listed : ∀ s ∈ globals, t.symbol? s.id = some s ∧ s.isGlobal)
    (calm : ∀ g, t.IsGlobal g → t.statusOf g = .unset ∨ t.statusOf g = .ready) :
    ∃ w, globals.foldlM (initializeUnset refs (t.symbols.size + 1)) { table := t } = .ok w ∧
      Walked refs t [] w ∧ ∀ s ∈ globals, w.table.statusOf s.id = .ready := by
  have start : Walked refs t [] { table := t } := by
    refine ⟨calm, .refl t, .refl, by simp, List.nodup_nil, fun g isGlobal _ => (calm g isGlobal).imp_left
      fun unset => ⟨unset, unset⟩, ?_, List.nodup_nil, by simp, by simp, List.nodup_nil⟩
    intro g
    constructor
    · simp
    · rintro ⟨_, unset, ready⟩
      cases unset.symm.trans ready
  have loop : ∃ w, globals.foldlM (initializeUnset refs (t.symbols.size + 1)) { table := t } = .ok w ∧
      Walked refs t [] w ∧ GlobalWalk.Later { table := t } w ∧ ∀ s ∈ globals, w.table.statusOf s.id = .ready := by
    apply steps_walk (I := Walked refs t []) (D := fun w (s : Symbol) => w.table.statusOf s.id = .ready)
    · exact fun later ready => later.ready _ ready
    · intro s inside w walked
      obtain ⟨held, isGlobal⟩ := listed s inside
      obtain ⟨_, held', _⟩ := walked.recolors.isGlobal.mpr ⟨s, held, isGlobal⟩
      simp only [initializeUnset, Table.status_eq held', ok_bind]
      rcases walked.others s.id ⟨s, held, isGlobal⟩ (by simp) with ⟨_, unset⟩ | ready
      · rw [unset]
        exact initializeGlobal_walks targets walked (.root s.id) ⟨s, held, isGlobal⟩ unset rfl
      · rw [ready]
        exact ⟨w, rfl, walked, .refl w, ready⟩
    · exact start
  obtain ⟨w, ran, walked, _, ready⟩ := loop
  exact ⟨w, ran, walked, ready⟩

end Binding

end Quasicode
