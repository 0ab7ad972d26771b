import Quasicode.Proofs.AnalysisRun

/-!
Invariants of an analysis. A step keeps an invariant if from every state that has it, whenever the step goes through,
it ends in a state that has it too; along with that it is said what the answer of the step is like. What a sequence
or a loop keeps follows from what its parts keep.
-/
namespace Quasicode

/-- The cause is found when the hierarchy of the classes is built. -/
def Cause.ofHierarchy : Cause → Bool
  | .inheritsFromItself _ | .overrideStaticMismatch | .overrideReturnMismatch => true
  | _ => false

namespace Analysis

variable {α β : Type} {I : AnalysisState → Prop} {x : Analysis α} {P Q : α → Prop} {R : β → Prop}

/-- From a state with `I`, the step `x` ends, if it goes through, in a state with `I` and with an answer that has
`Q`. -/
structure Keeps (I : AnalysisState → Prop) (x : Analysis α) (Q : α → Prop) : Prop where
  run : ∀ {s a s'}, I s → x.run s = .ok (a, s') → I s' ∧ Q a

/-- The invariant survives every diagnostic that does not come from the hierarchy of the classes. -/
structure ReportStable (I : AnalysisState → Prop) : Prop where
  report : ∀ {s : AnalysisState} (d : Diagnostic), d.cause.ofHierarchy = false → I s →
    I { s with problems := s.problems ++ [d] }

namespace Keeps

/-! ## Steps -/

theorem pure {a : α} (holds : Q a) : Keeps I (Pure.pure a) Q := by
  refine ⟨fun inv ran => ?_⟩
  cases ran
  exact ⟨inv, holds⟩

theorem done {a : α} : Keeps I (Pure.pure a) fun _ => True := pure trivial

theorem bind {f : α → Analysis β} (first : Keeps I x P) (rest : ∀ a, P a → Keeps I (f a) R) : Keeps I (x >>= f) R := by
  refine ⟨fun inv ran => ?_⟩
  obtain ⟨a, mid, ran, ran'⟩ := run_bind_ok.mp ran
  obtain ⟨inv, holds⟩ := first.run inv ran
  exact (rest a holds).run inv ran'

theorem mono (keeps : Keeps I x P) (implies : ∀ a, P a → Q a) : Keeps I x Q := by
  refine ⟨fun inv ran => ?_⟩
  obtain ⟨inv, holds⟩ := keeps.run inv ran
  exact ⟨inv, implies _ holds⟩

/-- A sequence whose rest does not depend on what the answer of the first step is like. -/
theorem seq {f : α → Analysis β} (first : Keeps I x P) (rest : ∀ a, Keeps I (f a) R) : Keeps I (x >>= f) R :=
  first.bind fun a _ => rest a

theorem fail {fault : Fault} : Keeps I (throw fault : Analysis α) Q := by
  refine ⟨fun _ ran => ?_⟩
  cases ran

theorem query {f : Table → Except Fault α} : Keeps I (Analysis.query f) fun a => ∃ s, I s ∧ f s.table = .ok a := by
  refine ⟨fun inv ran => ?_⟩
  obtain ⟨answer, rfl⟩ := run_query_ok.mp ran
  exact ⟨inv, _, inv, answer⟩

theorem asks {f : Table → Except Fault α} : Keeps I (Analysis.query f) fun _ => True :=
  query.mono fun _ _ => trivial

theorem symbol {id : SymbolId} : Keeps I (Analysis.symbol id) fun sym => ∃ s, I s ∧ s.table.symbol? id = some sym :=
  query.mono fun _ ⟨s, inv, held⟩ => ⟨s, inv, Table.get_ok_iff.mp held⟩

theorem table : Keeps I Analysis.table fun t => ∃ s, I s ∧ t = s.table := by
  refine ⟨fun inv ran => ?_⟩
  cases ran
  exact ⟨inv, _, inv, rfl⟩

theorem update {f : Table → Except Fault (α × Table)}
    (stable : ∀ {s a t}, I s → f s.table = .ok (a, t) → I { s with table := t }) :
    Keeps I (Analysis.update f) fun _ => True := by
  refine ⟨fun inv ran => ?_⟩
  obtain ⟨t, answer, rfl⟩ := run_update_ok.mp ran
  exact ⟨stable inv answer, trivial⟩

/-- A change of the table that answers with nothing. -/
theorem change {f : Table → Except Fault Table}
    (stable : ∀ {s t}, I s → f s.table = .ok t → I { s with table := t }) :
    Keeps I (Analysis.update fun t => do return ((), ← f t)) fun _ => True := by
  refine update fun inv answer => ?_
  obtain ⟨t, changed, answer⟩ := bind_eq_ok.mp answer
  cases answer
  exact stable inv changed

theorem report (stable : ReportStable I) {cause : Cause} {span : Span} (other : cause.ofHierarchy = false) :
    Keeps I (Analysis.report cause span) fun _ => True := by
  refine ⟨fun inv ran => ?_⟩
  cases ran
  exact ⟨stable.report _ other inv, trivial⟩

theorem reports (stable : ReportStable I) {cause : Cause} {span : Span} {a : α}
    (other : cause.ofHierarchy = false) (holds : Q a) :
    Keeps I (do Analysis.report cause span; Pure.pure a) Q :=
  (report stable other).seq fun _ => .pure holds

theorem ite {c : Bool} {y : Analysis α} (whenTrue : c → Keeps I x Q) (whenFalse : c = false → Keeps I y Q) :
    Keeps I (if c then x else y) Q := by
  cases c with
  | true => exact whenTrue rfl
  | false => exact whenFalse rfl

/-! ## Loops -/

section Lists

variable {γ : Type} {xs : List γ}

theorem mapM {f : γ → Analysis β} (each : ∀ x ∈ xs, Keeps I (f x) R) :
    Keeps I (xs.mapM f) fun ys => ∀ y ∈ ys, R y := by
  induction xs with
  | nil => exact .pure (by simp)
  | cons x xs ih =>
    rw [List.mapM_cons]
    refine (each x List.mem_cons_self).bind fun y first => ?_
    refine (ih fun z inside => each z (List.mem_cons_of_mem _ inside)).bind fun ys rest => .pure ?_
    exact List.forall_mem_cons.mpr ⟨first, rest⟩

end Lists

end Keeps

end Analysis

end Quasicode
