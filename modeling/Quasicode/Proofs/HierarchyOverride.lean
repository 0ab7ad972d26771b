import Quasicode.Proofs.HierarchyDepth

/-!
The run that finds which method overrides which. Going down from a class it knows, for every signature, the
topmost method above; coming back up it carries the methods found below. What it adds to a method, what it carries
and what it reports are each a function of the classes alone.
-/
namespace Quasicode

theorem SymbolKind.mapMethod_mapMethod (f g : MethodSymbol → MethodSymbol) (kind : SymbolKind) :
    (kind.mapMethod f).mapMethod g = kind.mapMethod fun m => g (f m) := by
  cases kind <;> rfl

namespace Table

variable {t t' : Table} {id : SymbolId}
variable {h : SymbolId → MethodSymbol → MethodSymbol} {key : String}

/-- The signature of a method that can be overridden. -/
def signature? (t : Table) (id : SymbolId) : Option String :=
  (t.symbol? id).bind fun s => s.method?.bind fun m => if m.isConstructor then none else some s.name

def methodsOf (t : Table) (id : SymbolId) : List SymbolId := ((t.class? id).map ClassSymbol.methods).getD []

def childrenOf (t : Table) (id : SymbolId) : List SymbolId := ((t.class? id).map ClassSymbol.children).getD []

/-- The methods of one signature in a list of methods. -/
def withSignature (t : Table) (key : String) (ids : List SymbolId) : List SymbolId :=
  ids.filter fun id => t.signature? id = some key

/-- The methods of one signature that a class declares. -/
def declares (t : Table) (key : String) (id : SymbolId) : List SymbolId := t.withSignature key (t.methodsOf id)

/-- The methods of one signature that a class and those below it declare, each class before those below it. -/
def declaredFrom (t : Table) (key : String) : Nat → SymbolId → List SymbolId
  | 0, _ => []
  | limit + 1, id => t.declares key id ++ (t.childrenOf id).flatMap (t.declaredFrom key limit)

/-- The method that a class itself has under a signature. -/
def latest (t : Table) (key : String) (id : SymbolId) : Option SymbolId := (t.declares key id).getLast?

theorem Edited.method_mapped
    (edited : Edited (fun id => SymbolKind.mapMethod (h id)) t t') (id : SymbolId) :
    t'.method? id = (t.method? id).map (h id) := by
  unfold method?
  rw [edited.symbols]
  cases t.symbol? id with
  | none => rfl
  | some s =>
    cases kind : s.kind <;> simp [Symbol.method?, Symbol.mapKind, kind, SymbolKind.mapMethod, SymbolKind.method?]

theorem Edited.class_of_method_mapped
    (edited : Edited (fun id => SymbolKind.mapMethod (h id)) t t') (id : SymbolId) : t'.class? id = t.class? id := by
  unfold class?
  rw [edited.symbols]
  cases t.symbol? id with
  | none => rfl
  | some s =>
    cases kind : s.kind <;> simp [Symbol.class?, Symbol.mapKind, kind, SymbolKind.mapMethod, SymbolKind.class?]

theorem withSignature_append (key : String) (ids more : List SymbolId) :
    t.withSignature key (ids ++ more) = t.withSignature key ids ++ t.withSignature key more :=
  List.filter_append ids more

theorem signature_symbol (signed : t.signature? id = some key) : (t.symbol? id).isSome := by
  obtain ⟨sym, held, _⟩ := Option.bind_eq_some_iff.mp signed
  simp [held]

theorem latest_signature {m : SymbolId} (held : t.latest key id = some m) : t.signature? m = some key := by
  have member := List.mem_of_getLast? held
  simpa using (List.mem_filter.mp member).2

end Table

namespace Hierarchy

open Relation Analysis

variable {t t' : Table} {id m : SymbolId} {key : String} {limit n : Nat} {top : String → Option SymbolId}
variable {signature : String} {ids : List SymbolId} {rest overrides : Overrides} {p : Diagnostic}
variable {gain : SymbolId → List SymbolId}
  {own : OwnMethods} {s : AnalysisState} {above : List Signatures} {order : Order}

/-! ## Overrides by signature -/

/-- No signature has two entries. -/
def Keyed (overrides : Overrides) : Prop := (overrides.map Prod.fst).Nodup

/-- The methods that are held under a signature. -/
def entry (overrides : Overrides) (key : String) : List SymbolId := (overrides.lookup key).getD []

theorem entry_nil : entry [] key = [] := rfl

theorem entry_cons :
    entry ((signature, ids) :: rest) key = if key = signature then ids else entry rest key := by
  by_cases same : key = signature <;> simp [entry, lookup_cons_if, same]

theorem entry_addOverrides :
    entry (addOverrides signature ids overrides) key = entry overrides key ++ if key = signature then ids else [] := by
  induction overrides with
  | nil => simp [addOverrides, entry_cons, entry_nil]
  | cons head rest ih =>
    obtain ⟨s, found⟩ := head
    simp only [addOverrides]
    by_cases same : s = signature
    · by_cases asked : key = s <;> simp_all [entry_cons]
    · rw [if_neg same, entry_cons, entry_cons, ih]
      by_cases asked : key = s <;> simp_all

theorem mem_keys_addOverrides :
    key ∈ (addOverrides signature ids overrides).map Prod.fst ↔ key = signature ∨ key ∈ overrides.map Prod.fst := by
  induction overrides with
  | nil => simp [addOverrides]
  | cons head rest ih =>
    obtain ⟨s, found⟩ := head
    simp only [addOverrides]
    by_cases same : s = signature
    · simp [same]
    · rw [if_neg same, List.map_cons, List.mem_cons, ih, List.map_cons, List.mem_cons]
      exact or_left_comm

theorem keyed_addOverrides (keyed : Keyed overrides) : Keyed (addOverrides signature ids overrides) := by
  induction overrides with
  | nil => simp [addOverrides, Keyed]
  | cons head rest ih =>
    obtain ⟨s, found⟩ := head
    obtain ⟨fresh, keyedRest⟩ := List.nodup_cons.mp keyed
    simp only [addOverrides]
    by_cases same : s = signature
    · rw [if_pos same]
      exact List.nodup_cons.mpr ⟨fresh, keyedRest⟩
    · rw [if_neg same]
      exact List.nodup_cons.mpr ⟨mt mem_keys_addOverrides.mp (not_or.mpr ⟨same, fresh⟩), ih keyedRest⟩

theorem entry_eq_nil_of_notMem (missing : key ∉ overrides.map Prod.fst) : entry overrides key = [] := by
  induction overrides with
  | nil => rfl
  | cons head rest ih =>
    rw [List.map_cons, List.mem_cons, not_or] at missing
    rw [entry_cons, if_neg missing.1, ih missing.2]

theorem entry_perm {overrides' : Overrides} (perm : overrides'.Perm overrides) (keyed : Keyed overrides') :
    entry overrides' key = entry overrides key := by
  induction perm with
  | nil => rfl
  | cons head _ ih => rw [entry_cons, entry_cons, ih (List.nodup_cons.mp keyed).2]
  | swap first second rest =>
    obtain ⟨different, _⟩ := List.nodup_cons.mp keyed
    rw [entry_cons, entry_cons, entry_cons, entry_cons]
    by_cases same : key = second.1 <;> simp_all
  | trans first _ ih ih' => exact (ih keyed).trans (ih' ((first.map Prod.fst).nodup_iff.mp keyed))

/-! ## What is reported -/

/-- What is wrong with a method that overrides another. -/
def overrideReports (ancestor method : MethodSymbol) : List Diagnostic :=
  (if ancestor.isStatic != method.isStatic then
    [⟨.overrideStaticMismatch, method.staticSpan.getD method.nameSpan⟩] else []) ++
  (if ancestor.function.returns != method.function.returns then
    [⟨.overrideReturnMismatch, method.returnSpan.getD method.nameSpan⟩] else [])

/-- What is wrong with a method below the topmost methods `top`. -/
def methodReports (t : Table) (top : String → Option SymbolId) (id : SymbolId) : List Diagnostic :=
  match t.signature? id, t.method? id with
  | some key, some method => (((top key).bind t.method?).map (overrideReports · method)).getD []
  | _, _ => []

theorem methodReports_eq {method : MethodSymbol} (signed : t.signature? m = some key)
    (held : t.method? m = some method) :
    methodReports t top m = (((top key).bind t.method?).map (overrideReports · method)).getD [] := by
  simp [methodReports, signed, held]

theorem mem_methodReports (reported : p ∈ methodReports t top m) :
    ∃ ancestor method, t.method? m = some method ∧ p ∈ overrideReports ancestor method := by
  cases signed : t.signature? m with
  | none => simp [methodReports, signed] at reported
  | some key =>
    cases held : t.method? m with
    | none => simp [methodReports, signed, held] at reported
    | some method =>
      rw [methodReports_eq signed held] at reported
      cases found : (top key).bind t.method? with
      | none => simp [found] at reported
      | some ancestor => exact ⟨ancestor, method, rfl, by simpa [found] using reported⟩

theorem overrideReports_cause {ancestor method : MethodSymbol} (reported : p ∈ overrideReports ancestor method) :
    p.cause = .overrideStaticMismatch ∨ p.cause = .overrideReturnMismatch := by
  rcases List.mem_append.mp reported with static | returns
  · exact .inl (by split at static <;> simp_all)
  · exact .inr (by split at returns <;> simp_all)

/-- The topmost methods as the classes below a class see them. -/
def topBelow (t : Table) (top : String → Option SymbolId) (id : SymbolId) (key : String) : Option SymbolId :=
  (top key).or (t.latest key id)

/-- What is wrong with the methods of a class and of those below it. -/
def reportsFrom (t : Table) : Nat → (String → Option SymbolId) → SymbolId → List Diagnostic
  | 0, _, _ => []
  | limit + 1, top, id =>
    (t.methodsOf id).flatMap (methodReports t top) ++
      (t.childrenOf id).flatMap (reportsFrom t limit (topBelow t top id))

theorem mem_reportsFrom (reported : p ∈ reportsFrom t limit top id) :
    ∃ m ancestor method, t.method? m = some method ∧ p ∈ overrideReports ancestor method := by
  induction limit generalizing top id with
  | zero => cases reported
  | succ limit ih =>
    rcases List.mem_append.mp reported with own | below
    · obtain ⟨m, _, own⟩ := List.mem_flatMap.mp own
      exact ⟨m, mem_methodReports own⟩
    · obtain ⟨child, _, below⟩ := List.mem_flatMap.mp below
      exact ih below

/-- Overriding is all that is reported. -/
theorem reportsFrom_cause (reported : p ∈ reportsFrom t limit top id) :
    p.cause = .overrideStaticMismatch ∨ p.cause = .overrideReturnMismatch := by
  obtain ⟨_, _, _, _, reported⟩ := mem_reportsFrom reported
  exact overrideReports_cause reported

/-! ## What a method gains -/

/-- What a method gains from a class below the class that holds it. -/
def gainBelow (t : Table) (limit : Nat) (holder child m : SymbolId) : List SymbolId :=
  match t.signature? m with
  | none => []
  | some key => if t.latest key holder = some m then t.declaredFrom key limit child else []

/-- What a method gains from the run from a class. -/
def gainFrom (t : Table) : Nat → SymbolId → SymbolId → List SymbolId
  | 0, _, _ => []
  | limit + 1, id, m => (t.childrenOf id).flatMap fun child => gainFrom t limit child m ++ gainBelow t limit id child m

theorem declaredFrom_exists {x : SymbolId} (declared : x ∈ t.declaredFrom key limit id) : (t.symbol? x).isSome := by
  induction limit generalizing id with
  | zero => cases declared
  | succ limit ih =>
    rcases List.mem_append.mp declared with own | below
    · exact Table.signature_symbol (by simpa using (List.mem_filter.mp own).2)
    · obtain ⟨child, _, below⟩ := List.mem_flatMap.mp below
      exact ih below

theorem gainFrom_exists {x : SymbolId} (gained : x ∈ gainFrom t limit id m) : (t.symbol? x).isSome := by
  induction limit generalizing id with
  | zero => cases gained
  | succ limit ih =>
    obtain ⟨child, _, gained⟩ := List.mem_flatMap.mp gained
    rcases List.mem_append.mp gained with below | here
    · exact ih below
    · unfold gainBelow at here
      split at here
      · cases here
      · split at here
        · exact declaredFrom_exists here
        · cases here

/-- Puts methods behind those that override a method. -/
def addOverriders (ids : List SymbolId) : SymbolKind → SymbolKind :=
  SymbolKind.mapMethod fun m => { m with overriders := m.overriders ++ ids }

/-- Between `t` and `t'` every method has gained the overriding methods that `gain` tells. -/
structure Overridden (gain : SymbolId → List SymbolId) (t t' : Table) : Prop where
  edited : Table.Edited (fun id => addOverriders (gain id)) t t'
  scopes : t'.scopes = t.scopes

theorem addOverriders_nil (kind : SymbolKind) : addOverriders [] kind = kind := by
  cases kind <;> simp [addOverriders, SymbolKind.mapMethod]

theorem overridden_refl (t : Table) : Overridden (fun _ => []) t t :=
  ⟨(Table.Edited.refl t).congr fun _ _ _ => (addOverriders_nil _).symm, rfl⟩

theorem Overridden.congr {gain' : SymbolId → List SymbolId} (gained : Overridden gain t t')
    (same : ∀ m, gain m = gain' m) : Overridden gain' t t' :=
  ⟨gained.edited.congr fun id _ _ => by rw [same id], gained.scopes⟩

theorem overridden_edit (gained : Overridden gain t t') :
    Overridden (fun x => gain x ++ if x = m then ids else []) t (t'.edit m (addOverriders ids)) := by
  refine ⟨(gained.edited.trans (Table.Edited.edit t' m (addOverriders ids))).congr fun x sym _ => ?_, gained.scopes⟩
  by_cases same : x = m <;> simp [same, addOverriders, SymbolKind.mapMethod_mapMethod]

theorem Overridden.class_same (gained : Overridden gain t t') : t'.class? id = t.class? id :=
  gained.edited.class_of_method_mapped id

theorem Overridden.method (gained : Overridden gain t t') :
    t'.method? id = (t.method? id).map fun m => { m with overriders := m.overriders ++ gain id } :=
  gained.edited.method_mapped id

/-! ## The runs -/

/-- The methods of a class that have been gone through, and where they have been put. -/
structure Sorted (t : Table) (top : String → Option SymbolId) (ids : List SymbolId) (own : OwnMethods) : Prop where
  all : ∀ key, own.all.lookup key = (t.withSignature key ids).getLast?
  introduced : ∀ key, own.introduced.lookup key =
    if (top key).isSome then none else (t.withSignature key ids).getLast?
  overriding : ∀ key, entry own.overriding key = if (top key).isSome then t.withSignature key ids else []
  keyed : Keyed own.overriding

theorem sorted_nil : Sorted t top [] {} :=
  ⟨fun _ => rfl, fun _ => by simp [Table.withSignature], fun _ => by simp [Table.withSignature, entry],
    List.nodup_nil⟩

theorem withSignature_snoc (signed : t.signature? m = some signature) :
    t.withSignature key (ids ++ [m]) = t.withSignature key ids ++ if key = signature then [m] else [] := by
  rw [Table.withSignature_append]
  by_cases same : key = signature
  · simp [Table.withSignature, signed, same]
  · simp [Table.withSignature, signed, same, Ne.symm same]

theorem withSignature_snoc_unsigned (unsigned : t.signature? m = none) :
    t.withSignature key (ids ++ [m]) = t.withSignature key ids := by
  rw [Table.withSignature_append]
  simp [Table.withSignature, unsigned]

theorem Sorted.skip (sorted : Sorted t top ids own) (unsigned : t.signature? m = none) :
    Sorted t top (ids ++ [m]) own := by
  constructor
  all_goals first | exact sorted.keyed | intro key; rw [withSignature_snoc_unsigned unsigned]
  · exact sorted.all key
  · exact sorted.introduced key
  · exact sorted.overriding key

theorem Sorted.introduce
    (sorted : Sorted t top ids own) (signed : t.signature? m = some signature) (first : top signature = none) :
      Sorted t top (ids ++ [m])
      { own with all := (signature, m) :: own.all, introduced := (signature, m) :: own.introduced } := by
  refine ⟨fun key => ?_, fun key => ?_, fun key => ?_, sorted.keyed⟩
  all_goals rw [withSignature_snoc signed]
  · rw [lookup_cons_if, sorted.all]
    by_cases same : key = signature <;> simp [same]
  · rw [lookup_cons_if, sorted.introduced]
    by_cases same : key = signature <;> simp [same, first]
  · rw [sorted.overriding]
    by_cases same : key = signature <;> simp [same, first]

theorem Sorted.override {ancestor : SymbolId}
    (sorted : Sorted t top ids own) (signed : t.signature? m = some signature) (found : top signature = some ancestor) :
    Sorted t top (ids ++ [m])
      { own with all := (signature, m) :: own.all, overriding := addOverrides signature [m] own.overriding } := by
  refine ⟨fun key => ?_, fun key => ?_, fun key => ?_, keyed_addOverrides sorted.keyed⟩
  all_goals rw [withSignature_snoc signed]
  · rw [lookup_cons_if, sorted.all]
    by_cases same : key = signature <;> simp [same]
  · rw [sorted.introduced]
    by_cases same : key = signature <;> simp [same, found]
  · rw [entry_addOverrides, sorted.overriding]
    by_cases same : key = signature <;> simp [same, found]

theorem checkOverride_run {ancestor method : MethodSymbol} : (checkOverride ancestor method).run s =
      .ok ((), { s with problems := s.problems ++ overrideReports ancestor method }) := by
  unfold checkOverride overrideReports
  cases ancestor.isStatic != method.isStatic <;>
    cases ancestor.function.returns != method.function.returns <;> simp [run_seq run_report, run_report]

/-- The methods above that a run goes by are the topmost ones. -/
structure Above (t : Table) (top : String → Option SymbolId) (above : List Signatures) : Prop where
  found : ∀ key, above.findSome? (·.lookup key) = top key
  exist : ∀ {key ancestor}, top key = some ancestor → (t.symbol? ancestor).isSome

theorem method_addOverriders (sym : Symbol) (ids : List SymbolId) :
    (sym.mapKind (addOverriders ids)).method? =
      sym.method?.map fun m => { m with overriders := m.overriders ++ ids } := by
  cases kind : sym.kind <;>
    simp [Symbol.method?, Symbol.mapKind, addOverriders, kind, SymbolKind.mapMethod, SymbolKind.method?]

/-- What one method adds: nothing if it cannot be overridden, and otherwise an entry of its signature. -/
theorem addMethod_run (gained : Overridden gain t s.table) (isAbove : Above t top above)
    (sorted : Sorted t top ids own) (exists_ : (t.symbol? m).isSome) : ∃ own', (addMethod above own m).run s =
        .ok (own', { s with problems := s.problems ++ methodReports t top m }) ∧
      Sorted t top (ids ++ [m]) own' := by
  obtain ⟨sym, held⟩ := Option.isSome_iff_exists.mp exists_
  have methodHeld : t.method? m = sym.method? := by simp [Table.method?, held]
  unfold addMethod
  rw [run_seq (run_symbol (gained.edited.symbol held)), method_addOverriders]
  cases isMethod : sym.method? with
  | none =>
    have unsigned : t.signature? m = none := by simp [Table.signature?, held, isMethod]
    exact ⟨own, by simp [methodReports, unsigned], sorted.skip unsigned⟩
  | some method =>
    cases constructs : method.isConstructor with
    | true =>
      have unsigned : t.signature? m = none := by simp [Table.signature?, held, isMethod, constructs]
      exact ⟨own, by simp [methodReports, unsigned, constructs], sorted.skip unsigned⟩
    | false =>
      have signed : t.signature? m = some sym.name := by simp [Table.signature?, held, isMethod, constructs]
      have reports := @methodReports_eq _ _ _ top _ signed (methodHeld.trans isMethod)
      have foundAbove := isAbove.found sym.name
      simp only [Option.map_some, constructs, Bool.false_eq_true, if_false, Symbol.mapKind]
      cases found : top sym.name with
      | none =>
        rw [found] at foundAbove
        refine ⟨_, ?_, sorted.introduce signed found⟩
        simp [foundAbove, reports, found]
      | some ancestor =>
        rw [found] at foundAbove
        obtain ⟨ancestorSym, ancestorHeld⟩ := Option.isSome_iff_exists.mp (isAbove.exist found)
        refine ⟨_, ?_, sorted.override signed found⟩
        simp only [foundAbove]
        rw [run_seq (run_symbol (gained.edited.symbol ancestorHeld)), method_addOverriders]
        have theirs : t.method? ancestor = ancestorSym.method? := by simp [Table.method?, ancestorHeld]
        rw [found, Option.bind_some, theirs] at reports
        cases isTheirs : ancestorSym.method? with
        | none => simp [reports, isTheirs]
        | some overridden =>
          rw [isTheirs] at reports
          simp only [Option.map_some]
          rw [run_seq checkOverride_run, reports]
          rfl

theorem addMethods_run {done : List SymbolId} (gained : Overridden gain t s.table)
    (isAbove : Above t top above) (sorted : Sorted t top done own) (exist : ∀ m ∈ ids, (t.symbol? m).isSome) :
    ∃ own', (ids.foldlM (addMethod above) own).run s = .ok
      (own', { s with problems := s.problems ++ ids.flatMap (methodReports t top) }) ∧
      Sorted t top (done ++ ids) own' := by
  induction ids generalizing s done own with
  | nil => exact ⟨own, by simp, by simpa using sorted⟩
  | cons m ids ih =>
    obtain ⟨between, ran, sorted₁⟩ := addMethod_run gained isAbove sorted (exist m (by simp))
    obtain ⟨after, ran₂, sorted₂⟩ := @ih _ { s with problems := s.problems ++ methodReports t top m } _ gained
      sorted₁ fun x inside => exist x (List.mem_cons_of_mem _ inside)
    refine ⟨after, ?_, by simpa using sorted₂⟩
    rw [List.foldlM_cons, run_seq ran, ran₂]
    simp

/-- What the method of a class gains when the class takes over what a class below overrides. -/
def absorbed (t : Table) (own : OwnMethods) (found : Overrides) (m : SymbolId) : List SymbolId :=
  match t.signature? m with
  | none => []
  | some key => if own.all.lookup key = some m then entry found key else []

theorem absorbed_cons_missing (missing : own.all.lookup key = none) :
    absorbed t own ((key, ids) :: rest) m = absorbed t own rest m := by
  unfold absorbed
  cases signed : t.signature? m with
  | none => rfl
  | some asked =>
    by_cases same : asked = key
    · simp [same, missing]
    · simp [entry_cons, same]

theorem absorbed_cons_found {mine : SymbolId}
    (found : own.all.lookup key = some mine) (signed : t.signature? mine = some key) (once : entry rest key = []) :
    absorbed t own ((key, ids) :: rest) m = (if m = mine then ids else []) ++ absorbed t own rest m := by
  by_cases same : m = mine
  · subst same
    simp [absorbed, signed, found, entry_cons, once]
  · unfold absorbed
    cases asked : t.signature? m with
    | none => simp [same]
    | some other =>
      by_cases again : other = key
      · simp [again, found, same, Ne.symm same]
      · simp [same, entry_cons, again]

/-- What a class takes over from a class below: the methods below are carried on unless the class introduces
their signature, and override the method of the class. -/
theorem absorb_run {s : AnalysisState} {gain : SymbolId → List SymbolId} {own : OwnMethods}
    {overrides found : Overrides} (gained : Overridden gain t s.table) (keyed : Keyed overrides)
    (keyedFound : Keyed found) (signed : ∀ {key m}, own.all.lookup key = some m → t.signature? m = some key) :
    ∃ overrides' t', (absorb own overrides found).run s = .ok (overrides', { s with table := t' }) ∧
      Keyed overrides' ∧
      (∀ key, entry overrides' key =
        entry overrides key ++ if (own.introduced.lookup key).isSome then [] else entry found key) ∧
      Overridden (fun m => gain m ++ absorbed t own found m) t t' := by
  induction found generalizing s gain overrides with
  | nil =>
    refine ⟨overrides, s.table, rfl, keyed, by simp [entry_nil], gained.congr fun m => ?_⟩
    unfold absorbed
    split <;> simp [entry_nil]
  | cons head rest ih =>
    obtain ⟨signature, ids⟩ := head
    obtain ⟨fresh, keyedRest⟩ := List.nodup_cons.mp keyedFound
    have once : entry rest signature = [] := entry_eq_nil_of_notMem fresh
    let carried := if (own.introduced.lookup signature).isSome then overrides
      else addOverrides signature ids overrides
    have keyedCarried : Keyed carried := by
      unfold carried
      split
      · exact keyed
      · exact keyed_addOverrides keyed
    have entries (key : String) :
        (entry carried key ++ if (own.introduced.lookup key).isSome then [] else entry rest key) =
        entry overrides key ++
          if (own.introduced.lookup key).isSome then [] else entry ((signature, ids) :: rest) key := by
      unfold carried
      by_cases same : key = signature
      · subst same
        split <;> simp [entry_addOverrides, entry_cons, once]
      · split <;> simp [entry_addOverrides, entry_cons, same]
    unfold absorb
    cases mine : own.all.lookup signature with
    | none =>
      obtain ⟨overrides', t', ran, keyed', entries', gained'⟩ := ih gained keyedCarried keyedRest
      refine ⟨overrides', t', ran, keyed', fun key => (entries' key).trans (entries key), gained'.congr fun m => ?_⟩
      rw [absorbed_cons_missing mine]
    | some method =>
      have exists_ : (s.table.symbol? method).isSome := by
        rw [gained.edited.symbol_exists]
        exact Table.signature_symbol (signed mine)
      obtain ⟨sym, held⟩ := Option.isSome_iff_exists.mp exists_
      obtain ⟨overrides', t', ran, keyed', entries', gained'⟩ :=
        @ih { s with table := s.table.edit method (addOverriders ids) } _ _ (overridden_edit gained) keyedCarried
          keyedRest
      refine ⟨overrides', t', ?_, keyed', fun key => (entries' key).trans (entries key), gained'.congr fun m => ?_⟩
      · rw [run_seq (run_modifySymbol held)]
        exact ran
      · rw [absorbed_cons_found mine (signed mine) once, List.append_assoc]

/-- What the run from a class answers, reports and adds. -/
def OverridesFrom (order : Order) (t : Table) (limit : Nat) (top : String → Option SymbolId) (above : List Signatures)
    (id : SymbolId) : Prop :=
  ∀ {s : AnalysisState} {gain : SymbolId → List SymbolId}, Overridden gain t s.table →
    ∃ overrides t', (findOverrides order limit above id).run s =
        .ok (overrides, ⟨t', s.problems ++ reportsFrom t limit top id⟩) ∧
      Keyed overrides ∧
      (∀ key, entry overrides key = if (top key).isSome then t.declaredFrom key limit id else []) ∧
      Overridden (fun m => gain m ++ gainFrom t limit id m) t t'

theorem Sorted.all_latest (sorted : Sorted t top (t.methodsOf id) own) (key : String) :
    own.all.lookup key = t.latest key id :=
  sorted.all key

theorem Sorted.introduced_latest (sorted : Sorted t top (t.methodsOf id) own) (key : String) :
    own.introduced.lookup key = if (top key).isSome then none else t.latest key id :=
  sorted.introduced key

/-- Below a class, the methods that it introduces are topmost ones too. -/
theorem Above.extend (isAbove : Above t top above)
    (sorted : Sorted t top (t.methodsOf id) own) : Above t (topBelow t top id) (own.introduced :: above) := by
  refine ⟨fun key => ?_, fun {key ancestor} found => ?_⟩
  · rw [List.findSome?_cons, sorted.introduced_latest, isAbove.found, topBelow]
    cases top key with
    | none => cases t.latest key id <;> rfl
    | some ancestor => rfl
  · rcases Option.or_eq_some_iff.mp found with old | ⟨_, own⟩
    · exact isAbove.exist old
    · exact Table.signature_symbol (Table.latest_signature own)

/-- The runs from the classes below a class, one after the other. -/
theorem findOverrides_children {above : List Signatures} {own : OwnMethods} {children : List SymbolId}
    (permutes : ∀ c found, (order c found).Perm found) (sorted : Sorted t top (t.methodsOf id) own)
    (each : ∀ child ∈ children, OverridesFrom order t limit (topBelow t top id) (own.introduced :: above) child)
    {s : AnalysisState} {gain : SymbolId → List SymbolId} {overrides : Overrides}
    (gained : Overridden gain t s.table) (keyed : Keyed overrides) :
    ∃ overrides' t', (children.foldlM (fun overrides child => do
        absorb own overrides (order child (← findOverrides order limit (own.introduced :: above) child)))
          overrides).run s =
        .ok (overrides', ⟨t', s.problems ++ children.flatMap (reportsFrom t limit (topBelow t top id))⟩) ∧
      Keyed overrides' ∧
      (∀ key, entry overrides' key = entry overrides key ++
        if (top key).isSome then children.flatMap (t.declaredFrom key limit) else []) ∧
      Overridden (fun m => gain m ++ children.flatMap fun child =>
        gainFrom t limit child m ++ gainBelow t limit id child m) t t' := by
  induction children generalizing s gain overrides with
  | nil => exact ⟨overrides, s.table, by simp, keyed, by simp, gained.congr (by simp)⟩
  | cons child children ih =>
    obtain ⟨found, t₁, ran, keyedFound, entries, gained₁⟩ := each child (by simp) gained
    have keyedOrder : Keyed (order child found) := ((permutes child found).map Prod.fst).nodup_iff.mpr keyedFound
    have entries (key : String) := (entry_perm (permutes child found) keyedOrder).trans (entries key)
    obtain ⟨carried, t₂, absorbs, keyedCarried, entriesCarried, gained₂⟩ :=
      @absorb_run _ ⟨t₁, s.problems ++ reportsFrom t limit (topBelow t top id) child⟩ _ own overrides
        (order child found) gained₁ keyed keyedOrder fun {key m} held => Table.latest_signature
        ((sorted.all_latest key).symm.trans held)
    obtain ⟨overrides', t₃, ran₃, keyed', entries', gained₃⟩ :=
      @ih (fun x inside => each x (List.mem_cons_of_mem _ inside))
        ⟨t₂, s.problems ++ reportsFrom t limit (topBelow t top id) child⟩ _ carried gained₂ keyedCarried
    refine ⟨overrides', t₃, ?_, keyed', fun key => ?_, gained₃.congr fun m => ?_⟩
    · rw [List.foldlM_cons, run_seq ((run_seq ran).trans absorbs), ran₃]
      simp
    · rw [entries', entriesCarried, entries, sorted.introduced_latest, topBelow]
      cases top key with
      | none => cases t.latest key id <;> simp
      | some ancestor => simp
    · have gained : absorbed t own (order child found) m = gainBelow t limit id child m := by
        unfold absorbed gainBelow
        cases signed : t.signature? m with
        | none => rfl
        | some key =>
          simp only [sorted.all_latest, entries, topBelow]
          by_cases held : t.latest key id = some m
          · simp [held]
          · simp [held]
      simp [gained]

/-- **Overriding.** The run from a class at its depth goes through, and answers, reports and adds what the classes
below it declare. -/
theorem findOverrides_run (permutes : ∀ c found, (order c found).Perm found) (forest : t.Forest)
    (methods : ∀ {id c}, t.class? id = some c → ∀ m ∈ c.methods, (t.symbol? m).isSome)
    (depth : t.DepthOf id n) (enough : t.symbols.size + 1 < limit + n) (isAbove : Above t top above) :
    OverridesFrom order t limit top above id := by
  induction limit generalizing id n top above with
  | zero =>
    have bound := Table.depth_bound depth
    omega
  | succ limit ih =>
    intro s gain gained
    obtain ⟨k, held⟩ := Option.isSome_iff_exists.mp (Table.depth_class depth)
    have ownMethods : t.methodsOf id = k.methods := by simp [Table.methodsOf, held]
    have ownChildren : t.childrenOf id = k.children := by simp [Table.childrenOf, held]
    obtain ⟨sym, found, isClass⟩ := Table.class_symbol (gained.class_same.trans held)
    obtain ⟨own, ran, sorted⟩ := addMethods_run gained isAbove sorted_nil (methods held)
    rw [List.nil_append, ← ownMethods] at sorted
    obtain ⟨overrides, t', ran', keyed, entries, gained'⟩ := @findOverrides_children _ _ limit _ _ above _ k.children
      permutes sorted (fun child inside => ih (.step ((forest.children held).mp inside) depth) (by omega)
        (isAbove.extend sorted)) { s with problems := s.problems ++ k.methods.flatMap (methodReports t top) } _ _
      gained sorted.keyed
    refine ⟨overrides, t', ?_, keyed, fun key => ?_, gained'.congr fun m => ?_⟩
    · simp only [findOverrides]
      rw [run_seq (run_symbol found)]
      simp only [isClass]
      rw [run_seq ran, ran']
      simp [reportsFrom, ownMethods, ownChildren]
    · rw [entries, sorted.overriding]
      cases top key with
      | none => simp
      | some ancestor => simp [Table.declaredFrom, Table.declares, ownChildren]
    · simp [gainFrom, ownChildren]

end Hierarchy

end Quasicode
