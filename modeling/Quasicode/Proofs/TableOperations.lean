import Quasicode.Proofs.HierarchyExtended

/-!
A table after any operations on it. It records what was declared and nothing else: symbols stand
in the order of their declaration and stay as they are, classes are numbered from one on, and a
name stands in a scope for the symbol that was declared last under it. Wherever scopes are hung,
a name is looked up along the scopes above as long as those come to an end.
-/
namespace Quasicode

/-- The kind without the number that a class gets when it is declared. -/
def SymbolKind.unnumbered (kind : SymbolKind) : SymbolKind := kind.mapClass fun c => { c with runtimeId := 0 }

namespace Table

open Relation

/-- An operation on a table. -/
inductive Operation where
  | createScope (outer : ScopeId)
  | enter (scope : ScopeId)
  | resetToRoot
  | link (scope outer : ScopeId)
  | declare (scope : ScopeId) (name : String) (span : Span) (kind : SymbolKind)

/-- What a symbol is declared with. -/
abbrev Declaration := ScopeId × String × Span × SymbolKind

namespace Operation

def run (t : Table) : Operation → Except Fault Table
  | .createScope outer => .ok (t.createScope outer).2
  | .enter scope => t.enter scope
  | .resetToRoot => .ok t.resetToRoot
  | .link scope outer => t.link scope outer
  | .declare scope name span kind => (t.declare scope name span kind).map Prod.snd

/-- The scopes that are named are among the first `count`, and the root stays where it is. -/
def Valid (count : Nat) : Operation → Prop
  | .createScope outer => outer.index < count
  | .enter scope => scope.index < count
  | .resetToRoot => True
  | .link scope outer => scope ≠ .root ∧ scope.index < count ∧ outer.index < count
  | .declare scope _ _ _ => scope.index < count

def scopesAfter (count : Nat) : Operation → Nat
  | .createScope _ => count + 1
  | _ => count

def declared? : Operation → Option Declaration
  | .declare scope name span kind => some (scope, name, span, kind.unnumbered)
  | _ => none

/-- Every operation names only scopes that are there when it is made. -/
def validAll : Nat → List Operation → Prop
  | _, [] => True
  | count, op :: ops => op.Valid count ∧ validAll (op.scopesAfter count) ops

def runAll (t : Table) (ops : List Operation) : Except Fault Table := ops.foldlM run t

end Operation

variable {t t' : Table} {declared : List Declaration} {scope outer id : ScopeId} {name : String}
variable {op : Operation} {ops : List Operation}

/-- The symbol that was declared last under a name in a scope. -/
def lastDeclared (t : Table) (scope : ScopeId) (name : String) : Option SymbolId :=
  (t.symbols.toList.filter fun s => s.scope = scope ∧ s.name = name).getLast?.map Symbol.id

/-- The table holds the given declarations, in their order. -/
structure Records (declared : List Declaration) (t : Table) : Prop where
  /-- A symbol is numbered by its place and has the scope, name and kind that it was declared with. -/
  symbols : t.symbols.toList.map (fun s => (s.id, s.scope, s.name, s.span, s.kind.unnumbered)) = declared.mapIdx
    fun i d => (⟨i⟩, d)
  numbers : (t.symbols.toList.filterMap Symbol.class?).map ClassSymbol.runtimeId = List.range' 1 t.classCount
  names : ∀ {scope}, scope.index < t.scopes.size → ∀ name, t.lookupLocal scope name = .ok (t.lastDeclared scope name)
  placed : ∀ s ∈ t.symbols.toList, s.scope.index < t.scopes.size
  outer : ∀ {scope outer}, t.parent? scope = some (some outer) → outer.index < t.scopes.size

/-! ## Steps -/

theorem records_empty : Table.empty.Records [] := by
  refine ⟨rfl, rfl, fun {scope} inside name => ?_, by simp [empty], fun {scope outer} held => ?_⟩
  · obtain ⟨i⟩ := scope
    obtain rfl : i = 0 := by simpa [empty] using inside
    rfl
  · obtain ⟨i⟩ := scope
    cases i <;> simp [empty, parent?] at held

section Steps

variable (records : t.Records declared)
include records

/-- A step that touches the scopes only leaves the declarations as they are. -/
theorem Records.rescoped (symbols : t'.symbols = t.symbols) (count : t'.classCount = t.classCount)
    (grows : t.scopes.size ≤ t'.scopes.size)
    (names : ∀ {scope}, scope.index < t'.scopes.size → ∀ name,
    t'.lookupLocal scope name = .ok (t.lastDeclared scope name))
    (outer : ∀ {scope outer}, t'.parent? scope = some (some outer) → outer.index < t'.scopes.size) :
    t'.Records declared := by
  refine ⟨symbols ▸ records.symbols, by rw [symbols, count, records.numbers], fun inside name => ?_,
    fun s inside => ?_, outer⟩
  · rw [names inside, lastDeclared, lastDeclared, symbols]
  · exact Nat.lt_of_lt_of_le (records.placed s (symbols ▸ inside)) grows

theorem Records.createScope (inside : outer.index < t.scopes.size) : (t.createScope outer).2.Records declared := by
  have size : (t.createScope outer).2.scopes.size = t.scopes.size + 1 := by simp [Table.createScope]
  refine records.rescoped rfl rfl (by omega) (fun {scope} held name => ?_) fun {scope up} held => ?_
  · rw [createScope_lookup]
    split
    next new =>
      have nothing : t.lastDeclared scope name = none := by
        rw [lastDeclared, List.filter_eq_nil_iff.mpr]
        · rfl
        · intro s inside here
          have placed := records.placed s inside
          rw [(of_decide_eq_true here).1, new] at placed
          exact Nat.lt_irrefl _ placed
      rw [nothing]
    next old =>
      refine records.names (Nat.lt_of_le_of_ne (by omega) fun same => old (ScopeId.ext same)) name
  · rw [createScope_parent] at held
    split at held
    · cases held
      omega
    · have below := records.outer held
      omega

theorem Records.link (inside : scope.index < t.scopes.size) (below : outer.index < t.scopes.size) :
    (Hierarchy.linkScope t scope outer).Records declared := by
  have size : (Hierarchy.linkScope t scope outer).scopes.size = t.scopes.size := by simp [Hierarchy.linkScope]
  refine records.rescoped rfl rfl (by omega) (fun {asked} held name => ?_) fun {asked up} held => ?_
  · rw [Hierarchy.linkScope_lookup]
    exact records.names (size ▸ held) name
  · rw [Hierarchy.linkScope_parent inside] at held
    rw [size]
    split at held
    · cases held
      exact below
    · exact records.outer held

theorem Records.declare (inside : scope.index < t.scopes.size) (name : String) (span : Span) (kind : SymbolKind) :
    ∃ t', t.declare scope name span kind = .ok (⟨t.symbols.size⟩, t') ∧
      t'.Records (declared ++ [(scope, name, span, kind.unnumbered)]) ∧
      t'.scopes.size = t.scopes.size ∧ t.symbols.toList <+: t'.symbols.toList := by
  obtain ⟨t', ran, adds⟩ := declare_total (t := t) inside name span kind
  have size := adds.declares.scopes
  have pushes : t'.symbols.toList = t.symbols.toList ++
      [⟨⟨t.symbols.size⟩, name, span, scope, kind.mapClass fun c => { c with runtimeId := t'.classCount }⟩] := by
    obtain ⟨_, _, placed⟩ := bind_eq_ok.mp ((declare_eq ..).symm.trans ran)
    obtain ⟨_, rfl⟩ := Prod.mk.inj (Except.ok.inj placed)
    simp [count_symbols]
  have length : t.symbols.size = declared.length := by
    simpa using congrArg List.length records.symbols
  refine ⟨t', ran, ⟨?_, ?_, fun {asked} held key => ?_, ?_, fun {asked up} held => ?_⟩, size,
    pushes ▸ List.prefix_append _ _⟩
  · rw [pushes, List.map_append, records.symbols, List.mapIdx_append]
    cases kind <;> simp [length, SymbolKind.unnumbered, SymbolKind.mapClass]
  · rw [pushes, List.filterMap_append, List.map_append, records.numbers, adds.declares.classCount]
    cases kind <;> simp [Symbol.class?, SymbolKind.class?, SymbolKind.mapClass, List.range'_concat, Nat.add_comm]
  · rw [adds.declares.lookup, lastDeclared, pushes, List.filter_append]
    by_cases here : scope = asked ∧ name = key
    · obtain ⟨rfl, rfl⟩ := here
      simp
    · have there : ¬ (asked = scope ∧ key = name) := fun both => here ⟨both.1.symm, both.2.symm⟩
      rw [if_neg there, records.names (size ▸ held), lastDeclared]
      simp [here]
  · rw [pushes, size]
    exact List.forall_mem_append.mpr ⟨records.placed, by simpa using inside⟩
  · rw [adds.parents] at held
    rw [size]
    exact records.outer held

/-- The scope that is worked in is no part of what is recorded. -/
theorem Records.move (current : ScopeId) : Records declared { t with current } :=
  records.rescoped rfl rfl (Nat.le_refl _) records.names records.outer

/-- **One operation** goes through, and if it declares a symbol the table holds one declaration more. -/
theorem Records.step (valid : op.Valid t.scopes.size) :
    ∃ t', op.run t = .ok t' ∧ t'.Records (declared ++ op.declared?.toList) ∧
    t'.scopes.size = op.scopesAfter t.scopes.size ∧ t.symbols.toList <+: t'.symbols.toList := by
  cases op with
  | createScope outer =>
    refine ⟨_, rfl, ?_, Array.size_push _, List.prefix_refl _⟩
    exact (List.append_nil declared).symm ▸ records.createScope valid
  | enter scope =>
    have inside : scope.index < t.scopes.size := valid
    have held : t.scope scope = .ok t.scopes[scope.index] := by simp [Table.scope, inside]
    refine ⟨{ t with current := scope }, by simp [Operation.run, Table.enter, held], ?_, rfl, List.prefix_refl _⟩
    exact (List.append_nil declared).symm ▸ records.move scope
  | resetToRoot => exact ⟨_, rfl, (List.append_nil declared).symm ▸ records.move .root, rfl, List.prefix_refl _⟩
  | link scope outer =>
    obtain ⟨inner, inside, below⟩ := valid
    refine ⟨_, Hierarchy.link_run inner inside, ?_, by simp [Hierarchy.linkScope, Operation.scopesAfter],
      List.prefix_refl _⟩
    exact (List.append_nil declared).symm ▸ records.link inside below
  | declare scope name span kind =>
    obtain ⟨t', ran, after, size, kept⟩ := records.declare valid name span kind
    exact ⟨t', by simp [Operation.run, ran, Except.map], after, size, kept⟩

/-- **Operations** go through one after the other. In the end the table holds what they declare behind what was there,
and the symbols that it held at any point before. -/
theorem Records.run (valid : Operation.validAll t.scopes.size ops) : ∃ t', Operation.runAll t ops = .ok t' ∧
    t'.Records (declared ++ ops.filterMap Operation.declared?) ∧ ∀ front back, ops = front ++ back →
      ∃ before, Operation.runAll t front = .ok before ∧ before.symbols.toList <+: t'.symbols.toList := by
  induction ops generalizing t declared with
  | nil =>
    refine ⟨t, rfl, by simpa using records, fun front back split => ?_⟩
    obtain ⟨rfl, _⟩ := List.append_eq_nil_iff.mp split.symm
    exact ⟨t, rfl, List.prefix_refl _⟩
  | cons op ops ih =>
    obtain ⟨here, rest⟩ := valid
    obtain ⟨t₁, ran, records₁, size, kept⟩ := records.step here
    obtain ⟨t', ran', records', keeps⟩ := ih records₁ (size ▸ rest)
    have runs (more : List Operation) : Operation.runAll t (op :: more) = Operation.runAll t₁ more := by
      rw [Operation.runAll, List.foldlM_cons, ran]
      rfl
    refine ⟨t', (runs ops).trans ran', ?_, fun front back split => ?_⟩
    · rw [List.append_assoc] at records'
      cases declares : op.declared? <;> simpa [List.filterMap_cons, declares] using records'
    · cases front with
      | nil =>
        obtain ⟨_, same, kept'⟩ := keeps [] ops rfl
        cases same
        exact ⟨t, rfl, kept.trans kept'⟩
      | cons _ front =>
        cases split
        obtain ⟨before, ran'', kept'⟩ := keeps front back rfl
        exact ⟨before, (runs front).trans ran'', kept'⟩

end Steps

/-! ## Looking up -/

/-- Where no scope lies above itself, going up comes to an end. -/
theorem Records.above_exists (records : t.Records declared)
    (acyclic : ∀ scope, ¬ TransGen (fun a b => t.parent? a = some (some b)) scope scope)
    (inside : id.index < t.scopes.size) :
    ∃ above, t.Above id above := by
  have claim (i : Fin t.scopes.size) : ∃ above, t.Above ⟨i⟩ above := by
    induction i using (acyclic_wellFounded (fun i : Fin t.scopes.size => ScopeId.mk i) acyclic).induction with
    | _ i ih =>
      have held : t.parent? ⟨i⟩ = some t.scopes[i].parent := by simp [parent?]
      cases up : t.scopes[i].parent with
      | none => exact ⟨[], .top (up ▸ held)⟩
      | some outer =>
        have step : t.parent? ⟨i⟩ = some (some outer) := up ▸ held
        obtain ⟨above, isAbove⟩ := ih ⟨outer.index, records.outer step⟩ (.single step)
        exact ⟨outer :: above, .step step isAbove⟩
  exact claim ⟨id.index, inside⟩

/-! ## Any operations -/

/-- **A table records what was declared in it**, after any operations that name only scopes that are there. -/
theorem operations_recorded (ops : List Operation) (valid : Operation.validAll 1 ops) :
    ∃ t, Operation.runAll .empty ops = .ok t ∧ t.Records (ops.filterMap Operation.declared?) ∧
    (∀ front back, ops = front ++ back → ∃ before, Operation.runAll .empty front = .ok before ∧
      before.symbols.toList <+: t.symbols.toList) ∧
    ((∀ scope, ¬ TransGen (fun a b => t.parent? a = some (some b)) scope scope) → ∀ scope, scope.index < t.scopes.size →
      ∃ above, t.Above scope above ∧
        ∀ name, t.lookupChain scope name = .ok ((scope :: above).findSome?
        fun outer => t.lastDeclared outer name)) := by
  obtain ⟨t, ran, records, keeps⟩ := records_empty.run valid
  refine ⟨t, ran, records, keeps, fun acyclic scope inside => ?_⟩
  obtain ⟨above, isAbove⟩ := records.above_exists acyclic inside
  refine ⟨above, isAbove, fun name => isAbove.lookup (fun inside => records.names inside name) ?_⟩
  exact Nat.lt_succ_of_lt (rises_short isAbove.rises)

/-- A name that is declared in the root and twice in a scope below it, which is asked for from a
scope that is hung there later. -/
theorem operations_recorded_shadowing :
    let ops : List Operation := [.declare .root "x" default (.className false), .createScope .root, .createScope .root,
      .declare ⟨1⟩ "x" default (.className true),
      .declare ⟨1⟩ "x" default (.cls ⟨"A", "A", false, ⟨1⟩, none, [], none, 0, [], []⟩),
      .link ⟨2⟩ ⟨1⟩, .enter ⟨2⟩, .resetToRoot]
    Operation.validAll 1 ops ∧ ∃ t, Operation.runAll .empty ops = .ok t ∧
      t.Records (ops.filterMap Operation.declared?) ∧
      t.classCount = 1 ∧ t.lookupChain ⟨2⟩ "x" = .ok (some ⟨2⟩) ∧ t.lookupChain .root "x" = .ok (some ⟨0⟩) := by
  intro ops
  have valid : Operation.validAll 1 ops := by
    simp [ops, Operation.validAll, Operation.Valid, Operation.scopesAfter, ScopeId.root]
  obtain ⟨t, ran, records, -⟩ := operations_recorded ops valid
  refine ⟨valid, t, ran, records, ?_⟩
  cases ran
  exact ⟨rfl, rfl, rfl⟩

end Table

end Quasicode
