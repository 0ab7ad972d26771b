import Quasicode.Symbol.Table

/-!
The symbols of a table, seen as a function of their ids. Every step of an analysis that changes a symbol changes
its kind only, so a run of such steps is described by what it does to the kind of each symbol.
-/
namespace Quasicode

variable {α β : Type}

@[simp] theorem ok_bind (a : α) (f : α → Except Fault β) : (Except.ok a >>= f) = f a := rfl

@[simp] theorem error_bind (e : Fault) (f : α → Except Fault β) : (Except.error e >>= f) = Except.error e := rfl

@[simp] theorem pure_eq_ok (a : α) : (pure a : Except Fault α) = .ok a := rfl

theorem bind_eq_ok {x : Except Fault α} {f : α → Except Fault β} {b : β} :
    (x >>= f) = .ok b ↔ ∃ a, x = .ok a ∧ f a = .ok b := by
  cases x with
  | error fault =>
    rw [error_bind]
    simp
  | ok a => simp

theorem lookup_cons_if [DecidableEq α] {a b : α} {v : β} {entries : List (α × β)} :
    List.lookup a ((b, v) :: entries) = if a = b then some v else entries.lookup a := by
  by_cases same : a = b
  · simp [same]
  · have different : (a == b) = false := by simpa using same
    simp [List.lookup_cons, different, same]

@[ext] theorem SymbolId.ext {a b : SymbolId} (same : a.index = b.index) : a = b := by
  cases a
  cases b
  exact congrArg SymbolId.mk same

theorem SymbolKind.mapClass_mapClass (f g : ClassSymbol → ClassSymbol) (kind : SymbolKind) :
    (kind.mapClass f).mapClass g = kind.mapClass fun c => g (f c) := by
  cases kind <;> rfl

/-- The same symbol with its kind changed by `f`. -/
def Symbol.mapKind (f : SymbolKind → SymbolKind) (s : Symbol) : Symbol := { s with kind := f s.kind }

namespace Table

variable {t t' t'' : Table} {id : SymbolId} {s : Symbol} {f g : SymbolKind → SymbolKind}

def symbol? (t : Table) (id : SymbolId) : Option Symbol := t.symbols[id.index]?

def class? (t : Table) (id : SymbolId) : Option ClassSymbol := (t.symbol? id).bind Symbol.class?

def method? (t : Table) (id : SymbolId) : Option MethodSymbol := (t.symbol? id).bind Symbol.method?

theorem get_ok_iff : t.get id = .ok s ↔ t.symbol? id = some s := by
  unfold get symbol?
  split <;> simp_all

theorem get_symbol (held : t.symbol? id = some s) : t.get id = .ok s := get_ok_iff.mpr held

theorem symbol_bound (held : t.symbol? id = some s) : id.index < t.symbols.size :=
  (Array.getElem?_eq_some_iff.mp held).1

theorem class_symbol {c : ClassSymbol} (held : t.class? id = some c) : ∃ s, t.symbol? id = some s ∧ s.class? = some c :=
  Option.bind_eq_some_iff.mp held

theorem method_symbol {m : MethodSymbol} (held : t.method? id = some m) :
    ∃ s, t.symbol? id = some s ∧ s.method? = some m :=
  Option.bind_eq_some_iff.mp held

/-! ## One change -/

/-- The table with the kind of one symbol changed. -/
def edit (t : Table) (id : SymbolId) (f : SymbolKind → SymbolKind) : Table :=
  { t with symbols := t.symbols.modify id.index (Symbol.mapKind f) }

theorem modify_edit (held : t.symbol? id = some s) : t.modify id f = .ok (t.edit id f) := by
  obtain ⟨bound, value⟩ := Array.getElem?_eq_some_iff.mp held
  simp only [modify, get_symbol held, ok_bind, pure_eq_ok, edit, Except.ok.injEq]
  congr 1
  apply Array.ext_getElem?
  intro i
  rw [Array.getElem?_setIfInBounds, Array.getElem?_modify]
  by_cases same : id.index = i
  · subst same
    simp [bound, value, Symbol.mapKind]
  · simp [same]

/-- A change goes through exactly where there is a symbol to be changed. -/
theorem modify_ok_iff : t.modify id f = .ok t' ↔ (t.symbol? id).isSome ∧ t' = t.edit id f := by
  cases held : t.symbol? id with
  | none =>
    have missing : t.get id = .error .missingSymbol := by
      unfold symbol? at held
      simp [get, held]
    rw [modify, missing, error_bind]
    simp
  | some s => simp [modify_edit held, eq_comm]

@[simp] theorem edit_scopes : (t.edit id f).scopes = t.scopes := rfl

@[simp] theorem edit_size : (t.edit id f).symbols.size = t.symbols.size := by simp [edit]

theorem edit_symbol? (t : Table) (id j : SymbolId) (f : SymbolKind → SymbolKind) :
    (t.edit id f).symbol? j = (t.symbol? j).map fun s => if j = id then s.mapKind f else s := by
  unfold edit symbol?
  rw [Array.getElem?_modify]
  by_cases same : j = id
  · subst same
    simp
  · have elsewhere : id.index ≠ j.index := fun eq => same (SymbolId.ext eq.symm)
    simp [same, elsewhere]

/-! ## Runs of changes -/

/-- Between `t` and `t'` the kind of every symbol has been changed by `f`, and nothing else has. -/
structure Edited (f : SymbolId → SymbolKind → SymbolKind) (t t' : Table) : Prop where
  size : t'.symbols.size = t.symbols.size
  classCount : t'.classCount = t.classCount
  symbols : ∀ id, t'.symbol? id = (t.symbol? id).map (Symbol.mapKind (f id))

namespace Edited

variable {f g : SymbolId → SymbolKind → SymbolKind}
variable {h : SymbolId → ClassSymbol → ClassSymbol}

theorem refl (t : Table) : Edited (fun _ kind => kind) t t :=
  ⟨rfl, rfl, fun id => by cases t.symbol? id <;> rfl⟩

theorem trans (first : Edited f t t') (second : Edited g t' t'') : Edited (fun id kind => g id (f id kind)) t t'' := by
  refine ⟨second.size.trans first.size, second.classCount.trans first.classCount, fun id => ?_⟩
  rw [second.symbols, first.symbols]
  cases t.symbol? id <;> rfl

/-- Changes that agree on the symbols of the table are the same change. -/
theorem congr (edited : Edited f t t') (same : ∀ id s, t.symbol? id = some s → f id s.kind = g id s.kind) :
    Edited g t t' := by
  refine ⟨edited.size, edited.classCount, fun id => ?_⟩
  rw [edited.symbols]
  cases held : t.symbol? id with
  | none => rfl
  | some s => simp [Symbol.mapKind, same id s held]

theorem edit (t : Table) (id : SymbolId) (h : SymbolKind → SymbolKind) :
    Edited (fun j kind => if j = id then h kind else kind) t (t.edit id h) := by
  refine ⟨edit_size, rfl, fun j => ?_⟩
  rw [edit_symbol?]
  cases t.symbol? j with
  | none => rfl
  | some s => by_cases same : j = id <;> simp [same, Symbol.mapKind]

theorem symbol (edited : Edited f t t') (held : t.symbol? id = some s) : t'.symbol? id = some (s.mapKind (f id)) := by
  rw [edited.symbols, held]
  rfl

theorem class_mapped (edited : Edited (fun id => SymbolKind.mapClass (h id)) t t') (id : SymbolId) :
    t'.class? id = (t.class? id).map (h id) := by
  unfold class?
  rw [edited.symbols]
  cases t.symbol? id with
  | none => rfl
  | some s => cases kind : s.kind <;> simp [Symbol.class?, Symbol.mapKind, kind, SymbolKind.mapClass, SymbolKind.class?]

theorem method_of_class_mapped (edited : Edited (fun id => SymbolKind.mapClass (h id)) t t') (id : SymbolId) :
    t'.method? id = t.method? id := by
  unfold method?
  rw [edited.symbols]
  cases t.symbol? id with
  | none => rfl
  | some s =>
    cases kind : s.kind <;> simp [Symbol.method?, Symbol.mapKind, kind, SymbolKind.mapClass, SymbolKind.method?]

theorem symbol_exists (edited : Edited f t t') : (t'.symbol? id).isSome = (t.symbol? id).isSome := by
  rw [edited.symbols, Option.isSome_map]

end Edited

end Table

end Quasicode
