import Quasicode.Proofs.AnalysisPhases
import Quasicode.Proofs.LinePositions
import Quasicode.Proofs.SourceRead

/-!
Any number of sources can be analyzed, one after the other with the symbols of those before, and
there is feedback on each of them. Nothing is ever missing: every symbol, scope and place that
is looked up is there, and every position fits a word.
-/
namespace Quasicode

open Analysis

variable {α : Type} {bound : Nat} {t : Table} {source : String}

/-! ## Feedback -/

theorem mapM_total {β : Type} {f : α → Except Fault β} : ∀ {xs : List α}, (∀ x ∈ xs, ∃ y, f x = .ok y) →
    ∃ ys, xs.mapM f = .ok ys
  | [], _ => ⟨[], rfl⟩
  | x :: xs, each => by
    obtain ⟨y, here⟩ := each x List.mem_cons_self
    obtain ⟨ys, rest⟩ := mapM_total fun z inside => each z (List.mem_cons_of_mem _ inside)
    exact ⟨y :: ys, by rw [List.mapM_cons, here, ok_bind, rest, ok_bind, pure_eq_ok]⟩

theorem filterM_total {p : α → Except Fault Bool} {xs : List α} (each : ∀ x ∈ xs, ∃ b, p x = .ok b) :
    ∃ ys, xs.filterM p = .ok ys := by
  have loop : ∀ {xs : List α}, (∀ x ∈ xs, ∃ b, p x = .ok b) → ∀ found, ∃ ys, xs.filterAuxM p found = .ok ys := by
    intro xs
    induction xs with
    | nil => exact fun _ found => ⟨found, rfl⟩
    | cons x xs ih =>
      intro each found
      obtain ⟨b, here⟩ := each x List.mem_cons_self
      obtain ⟨ys, rest⟩ := ih (fun z inside => each z (List.mem_cons_of_mem _ inside)) (cond b (x :: found) found)
      exact ⟨ys, by rw [List.filterAuxM, here, ok_bind, rest]⟩
  obtain ⟨ys, all⟩ := loop each []
  exact ⟨ys.reverse, by rw [List.filterM, all, ok_bind, pure_eq_ok]⟩

/-- The owner of every method is there. -/
theorem Table.isOwnFunction_total {s : Symbol} (sound : t.Sound bound) (inside : s ∈ t.symbols.toList) :
    ∃ b, t.isOwnFunction s = .ok b := by
  unfold isOwnFunction
  cases isMethod : s.method? with
  | none => exact ⟨_, rfl⟩
  | some m =>
    obtain ⟨i, held⟩ := List.getElem?_of_mem inside
    have held : t.symbol? ⟨i⟩ = some s := by simpa [symbol?] using held
    have below : m.owner.index < t.symbols.size := (sound.method_sound held isMethod).owner
    obtain ⟨owner, found⟩ := symbol_exists below
    exact ⟨!owner.class?.any (·.builtin), by simp [isBuiltinClass, get_symbol found]⟩

/-- **There is feedback** on a compiled source if all its problems lie near the source. -/
theorem Compiled.feedback_total {c : Compiled} (sound : c.table.Sound bound)
    (short : source.length < Nat.pow 2 31) (within : ∀ d ∈ c.problems, d.span.Within (Nat.pow 2 31 + 1))
    (file : String) :
    ∃ feedback, c.feedback file source = .ok feedback := by
  obtain ⟨functions, counted⟩ := filterM_total (fun s => Table.isOwnFunction_total (t := c.table) (s := s) sound)
  have words : Nat.pow 2 31 + 1 + 1 < LineMap.wordBound := by decide
  have reported : ∀ problem ∈ c.problems.map Problem.inSource, ∃ report,
      Problem.report file (.ofSource source) problem = .ok report := by
    intro problem inside
    obtain ⟨d, member, rfl⟩ := List.mem_map.mp inside
    have located {offset : Nat} (near : offset ≤ Nat.pow 2 31 + 1) : ∃ position,
        (LineMap.ofSource source).locate offset = .ok position :=
      ⟨_, LineMap.locate_eq (by omega) (by omega)⟩
    obtain ⟨start, isStart⟩ := located (within d member).1
    obtain ⟨stop, isStop⟩ := located (within d member).2
    obtain ⟨report, reported, _⟩ := Problem.report_located file isStart isStop
    exact ⟨report, reported⟩
  obtain ⟨reports, all⟩ := mapM_total reported
  have figures : ∃ figures, c.stats source = .ok figures := by simp [stats, counted]
  obtain ⟨figures, known⟩ := figures
  exact ⟨⟨reports.isEmpty, file, reports, figures⟩, by simp [feedback, known, Feedback.ofProblems, all]⟩

/-! ## Sources -/

/-- The feedback on a source of which an analysis is known. -/
def sourceFeedback (classNames : List String) (source file : String) (analyzed : Analyzed) : Except Fault Feedback := do
  let scanned := scan source
  let parsed ← parse scanned.tokens (Builtin.classNames ++ classNames)
  Compiled.feedback {
    tokens := scanned.tokens
    program := analyzed.program
    order := analyzed.order
    problems := scanned.problems ++ parsed.problems ++ analyzed.problems
    table := analyzed.table } file source

/-- A source is analyzed after any others, and there is feedback on it. -/
theorem analyzeSource_total (classNames : List String) (standing : t.resetToRoot.Standing (Nat.pow 2 31 + 1))
    (short : source.length < Nat.pow 2 31) :
    ∃ analyzed, analyzeSource classNames t source = .ok analyzed ∧ analyzed.table.Standing (Nat.pow 2 31 + 1) ∧
      ∀ file, ∃ feedback, sourceFeedback classNames source file analyzed = .ok feedback := by
  obtain ⟨parsed, read, fresh, within⟩ :=
    source_within source (Builtin.classNames ++ classNames) (Nat.succ_le_succ short)
  obtain ⟨analyzed, ran, standing', within', _⟩ := analyze_total standing fresh
  refine ⟨analyzed, by rw [analyzeSource, read, ok_bind, ran], standing', fun file => ?_⟩
  simp only [sourceFeedback, read, ok_bind]
  exact Compiled.feedback_total standing'.intact.sound short (List.forall_mem_append.mpr ⟨within, within'⟩) file

theorem analyzeAll_total (classNames : List String) :
    ∀ {sources : List String} {t : Table}, t.resetToRoot.Standing (Nat.pow 2 31 + 1) →
    (∀ source ∈ sources, source.length < Nat.pow 2 31) → ∃ results, analyzeAll classNames t sources = .ok results ∧
      List.Forall₂ (fun source analyzed => ∀ file, ∃ feedback,
      sourceFeedback classNames source file analyzed = .ok feedback) sources results
  | [], _, _, _ => ⟨[], rfl, .nil⟩
  | source :: sources, t, standing, short => by
    obtain ⟨analyzed, ran, standing', feedback⟩ :=
      analyzeSource_total classNames standing (short source List.mem_cons_self)
    obtain ⟨results, rest, feedbacks⟩ := analyzeAll_total classNames standing'.reset fun source inside =>
      short source (List.mem_cons_of_mem _ inside)
    exact ⟨analyzed :: results, by rw [analyzeAll, ran, ok_bind, rest, ok_bind, pure_eq_ok], .cons feedback feedbacks⟩

/-- **Every sequence of sources is analyzed**, and there is feedback on each of them. -/
theorem sources_analyzed (classNames sources : List String) (short : ∀ source ∈ sources, source.length < Nat.pow 2 31) :
    ∃ t results, Table.initial = .ok t ∧ analyzeAll classNames t sources = .ok results ∧
      List.Forall₂ (fun source analyzed => ∀ file, ∃ feedback,
        sourceFeedback classNames source file analyzed = .ok feedback) sources results := by
  obtain ⟨t, initial, standing, _⟩ := Table.initial_standing (Nat.pow 2 31 + 1)
  obtain ⟨results, ran, feedback⟩ := analyzeAll_total classNames standing short
  exact ⟨t, results, initial, ran, feedback⟩

/-- A class that an earlier source leaves behind, and a later one that extends itself. -/
def reopenedClass : List String := ["class Point
x: int = 1
end class
", "class Point extends Point
end class
output {new Point()}
"]

theorem reopenedClass_analyzed : (∀ source ∈ reopenedClass, source.length < Nat.pow 2 31) ∧
    ∃ t results, Table.initial = .ok t ∧ analyzeAll ["Point"] t reopenedClass = .ok results ∧
      List.Forall₂ (fun source analyzed => ∀ file, ∃ feedback,
        sourceFeedback ["Point"] source file analyzed = .ok feedback) reopenedClass results := by
  have short : ∀ source ∈ reopenedClass, source.length < Nat.pow 2 31 := by decide
  exact ⟨short, sources_analyzed ["Point"] reopenedClass short⟩

end Quasicode
