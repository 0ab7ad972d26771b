import Quasicode.Analysis.Basic
import Quasicode.Proofs.TableSymbols

/-!
How the steps of an analysis run. A step that finds what it asks for goes through, and a sequence goes through
when its steps do, each from the state in which the one before it ends.
-/
namespace Quasicode.Analysis

variable {α β : Type} {s s' : AnalysisState} {a : α} {id : SymbolId} {sym : Symbol}

theorem run_seq {x : Analysis α} {f : α → Analysis β} (ran : x.run s = .ok (a, s')) :
    (x >>= f).run s = (f a).run s' := by
  rw [StateT.run_bind, ran]
  rfl

/-- A sequence goes through only if its first step does. -/
theorem run_bind_ok {x : Analysis α} {f : α → Analysis β} {b : β} :
    (x >>= f).run s = .ok (b, s') ↔ ∃ a mid, x.run s = .ok (a, mid) ∧ (f a).run mid = .ok (b, s') := by
  rw [StateT.run_bind, bind_eq_ok]
  constructor
  · rintro ⟨⟨a, mid⟩, first, second⟩
    exact ⟨a, mid, first, second⟩
  · rintro ⟨a, mid, first, second⟩
    exact ⟨(a, mid), first, second⟩

theorem run_lift {e : Except Fault α} (answer : e = .ok a) : (liftM e : Analysis α).run s = .ok (a, s) := by
  subst answer
  rfl

theorem run_report {cause : Cause} {span : Span} :
    (report cause span).run s = .ok ((), { s with problems := s.problems ++ [⟨cause, span⟩] }) := rfl

theorem run_table : (table : Analysis Table).run s = .ok (s.table, s) := rfl

theorem run_query {f : Table → Except Fault α} (answer : f s.table = .ok a) : (query f).run s = .ok (a, s) := by
  simp only [query, StateT.run_bind, StateT.run_get, pure_eq_ok, ok_bind]
  exact run_lift answer

theorem run_update {f : Table → Except Fault (α × Table)} {t : Table} (answer : f s.table = .ok (a, t)) :
    (update f).run s = .ok (a, { s with table := t }) := by
  simp only [update, StateT.run_bind, StateT.run_get, pure_eq_ok, ok_bind, run_lift answer]
  rfl

theorem run_join {b c d : Ty} (joins : Ty.join s.table.classes b c = .ok d) : (join b c).run s = .ok (d, s) :=
  run_query joins

theorem run_symbol (held : s.table.symbol? id = some sym) : (symbol id).run s = .ok (sym, s) :=
  run_query (Table.get_symbol held)

theorem run_modifySymbol {f : SymbolKind → SymbolKind} (held : s.table.symbol? id = some sym) :
    (modifySymbol id f).run s = .ok ((), { s with table := s.table.edit id f }) := by
  apply run_update
  simp [Table.modify_edit held]

/-! ## What a step that goes through has done -/

theorem run_query_ok {f : Table → Except Fault α} : (query f).run s = .ok (a, s') ↔ f s.table = .ok a ∧ s' = s := by
  constructor
  · intro ran
    cases answer : f s.table with
    | error fault => simp [query, answer, StateT.run_bind] at ran
    | ok b =>
      rw [run_query answer] at ran
      cases ran
      exact ⟨rfl, rfl⟩
  · rintro ⟨answer, rfl⟩
    exact run_query answer

theorem run_update_ok {f : Table → Except Fault (α × Table)} :
    (update f).run s = .ok (a, s') ↔ ∃ t, f s.table = .ok (a, t) ∧ s' = { s with table := t } := by
  constructor
  · intro ran
    cases answer : f s.table with
    | error fault => simp [update, answer, StateT.run_bind] at ran
    | ok b =>
      rw [run_update answer] at ran
      cases ran
      exact ⟨b.2, rfl, rfl⟩
  · rintro ⟨t, answer, rfl⟩
    exact run_update answer

theorem run_modifySymbol_ok {f : SymbolKind → SymbolKind} {u : Unit} :
    (modifySymbol id f).run s = .ok (u, s') ↔ ∃ t, s.table.modify id f = .ok t ∧ s' = { s with table := t } := by
  rw [modifySymbol, run_update_ok]
  constructor
  · rintro ⟨_, answer, rfl⟩
    obtain ⟨_, changed, answer⟩ := bind_eq_ok.mp answer
    cases answer
    exact ⟨_, changed, rfl⟩
  · rintro ⟨t, changed, rfl⟩
    exact ⟨t, by rw [changed]; rfl, rfl⟩

end Quasicode.Analysis
