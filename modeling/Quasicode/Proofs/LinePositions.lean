import Mathlib.Data.List.Induction
import Quasicode.Proofs.TableSymbols
import Quasicode.Report.Feedback

/-!
Lines and columns. An offset stands on the line after as many newlines as there are before it, and its column counts
from the last of them. A later offset has a later position, so a span that runs forwards is reported forwards.
-/
namespace Quasicode

/-- The order in which positions are read. -/
def Position.Before (p q : Position) : Prop := p.line < q.line ∨ p.line = q.line ∧ p.column < q.column

theorem Position.Before.irrefl (p : Position) : ¬ p.Before p := by
  rintro (below | ⟨_, below⟩)
  · exact Nat.lt_irrefl _ below
  · exact Nat.lt_irrefl _ below

theorem Position.Before.asymm {p q : Position} (before : p.Before q) : ¬ q.Before p := by
  unfold Before at before ⊢
  omega

namespace LineMap

variable {source : String} {k n offset later : Nat} {cs : List Char}

/-! ## Newlines -/

theorem newlineEnds_append (k : Nat) (cs ds : List Char) :
    newlineEnds k (cs ++ ds) = newlineEnds k cs ++ newlineEnds (k + cs.length) ds := by
  induction cs generalizing k with
  | nil => rfl
  | cons c cs ih =>
    have rest := ih (k + 1)
    rw [Nat.add_right_comm, Nat.add_assoc] at rest
    simp only [List.cons_append, newlineEnds, rest, List.length_cons]
    split <;> rfl

theorem newlineEnds_length (k : Nat) (cs : List Char) : (newlineEnds k cs).length = cs.count '\n' := by
  induction cs generalizing k with
  | nil => rfl
  | cons c cs ih =>
    rw [newlineEnds, List.count_cons, ← ih (k + 1)]
    by_cases ends : c = '\n' <;> simp [ends]

theorem newlineEnds_bounds (inside : n ∈ newlineEnds k cs) : k < n ∧ n ≤ k + cs.length := by
  induction cs generalizing k with
  | nil => cases inside
  | cons c cs ih =>
    rw [newlineEnds] at inside
    rw [List.length_cons]
    split at inside
    · rcases List.mem_cons.mp inside with rfl | inside
      · omega
      · have := ih inside
        omega
    · have := ih inside
      omega

/-- The lines that start up to an offset are those that end before it. -/
theorem newlineEnds_take (k offset : Nat) (cs : List Char) :
    (newlineEnds k cs).takeWhile (· ≤ k + offset) = newlineEnds k (cs.take offset) := by
  induction cs generalizing k offset with
  | nil => simp [newlineEnds]
  | cons c cs ih =>
    cases offset with
    | zero =>
      cases ends : newlineEnds k (c :: cs) with
      | nil => rfl
      | cons n ns =>
        have := newlineEnds_bounds (ends ▸ List.mem_cons_self : n ∈ newlineEnds k (c :: cs))
        exact List.takeWhile_cons_of_neg (by simpa using this.1)
    | succ offset =>
      have rest := ih (k + 1) offset
      rw [Nat.add_right_comm, Nat.add_assoc] at rest
      rw [List.take_succ_cons, newlineEnds, newlineEnds, ← rest]
      split
      · exact List.takeWhile_cons_of_pos (by simp)
      · rfl

/-- Where the line of an offset starts. -/
def lineStart (source : String) (offset : Nat) : Nat := (newlineEnds 0 (source.toList.take offset)).getLastD 0

/-- The characters of a text fall into whole lines and the line that is not ended yet. -/
theorem newlineEnds_split (cs : List Char) :
    ∃ whole line, cs = whole ++ line ∧ (whole = [] ∨ whole.getLast? = some '\n') ∧
    '\n' ∉ line ∧ (newlineEnds 0 cs).getLastD 0 = whole.length := by
  induction cs using List.reverseRecOn with
  | nil => exact ⟨[], [], rfl, .inl rfl, List.not_mem_nil, rfl⟩
  | append_singleton cs c ih =>
    obtain ⟨whole, line, rfl, ended, open', start⟩ := ih
    rw [newlineEnds_append]
    by_cases ends : c = '\n'
    · refine ⟨whole ++ line ++ [c], [], (List.append_nil _).symm, .inr ?_, List.not_mem_nil, ?_⟩
      · rw [List.getLast?_concat, ends]
      · simp [newlineEnds, ends, Nat.add_assoc]
    · refine ⟨whole, line ++ [c], List.append_assoc .., ended, ?_, ?_⟩
      · simpa [open'] using Ne.symm ends
      · simpa [newlineEnds, ends] using start

/-! ## Positions -/

theorem succWord_eq (small : n + 1 < wordBound) : succWord n = .ok (n + 1) := by
  have cut : n % wordBound = n := Nat.mod_eq_of_lt (Nat.lt_of_succ_lt small)
  rw [succWord, cut, if_neg (Nat.ne_of_lt small)]

theorem lineStart_le (source : String) (offset : Nat) : lineStart source offset ≤ offset := by
  obtain ⟨whole, line, split, -, -, start⟩ := newlineEnds_split (source.toList.take offset)
  have length := congrArg List.length split
  have := List.length_take_le offset source.toList
  rw [List.length_append] at length
  rw [lineStart, start]
  omega

/-- **The position of an offset**, in a source and at an offset for which words suffice. -/
theorem locate_eq (short : source.length + 1 < wordBound) (near : offset + 1 < wordBound) :
    (ofSource source).locate offset = .ok ⟨(source.toList.take offset).count '\n' + 1,
      offset - lineStart source offset + 1⟩ := by
  have passed : (ofSource source).later.takeWhile (· ≤ offset) = newlineEnds 0 (source.toList.take offset) := by
    simpa [ofSource] using newlineEnds_take 0 offset source.toList
  have few : (source.toList.take offset).count '\n' ≤ source.length := by
    have := List.count_le_length (a := '\n') (l := source.toList.take offset)
    have := List.length_take_le' offset source.toList
    rw [String.length_toList] at this
    omega
  have column : Span.length ⟨lineStart source offset, offset, 0⟩ = .ok (offset - lineStart source offset) :=
    if_neg (Nat.not_lt.mpr (lineStart_le source offset))
  rw [locate, List.takeWhile_cons_of_pos (by simp), passed]
  simp only [newlineEnds_length]
  rw [succWord_eq (by omega), ok_bind, ← lineStart, column, ok_bind, succWord_eq (by omega), ok_bind, pure_eq_ok]

/-- Between two offsets there is a newline, or they stand on one line. -/
theorem position_before (below : offset < later) :
    Position.Before ⟨(source.toList.take offset).count '\n' + 1, offset - lineStart source offset + 1⟩
      ⟨(source.toList.take later).count '\n' + 1, later - lineStart source later + 1⟩ := by
  have more : ∃ rest, source.toList.take later = source.toList.take offset ++ rest := by
    rw [← Nat.add_sub_of_le (Nat.le_of_lt below), List.take_add]
    exact ⟨_, rfl⟩
  obtain ⟨rest, more⟩ := more
  have starts := lineStart_le source offset
  rw [Position.Before, lineStart, lineStart, more, List.count_append, newlineEnds_append]
  rcases Nat.eq_zero_or_pos (rest.count '\n') with none | some
  · have same : newlineEnds (0 + (source.toList.take offset).length) rest = [] := by
      rw [← List.length_eq_zero_iff, newlineEnds_length, none]
    rw [same, List.append_nil, none]
    rw [lineStart] at starts
    exact .inr ⟨rfl, by dsimp only; omega⟩
  · exact .inl (by dsimp only; omega)

theorem wordBound_eq : wordBound = Nat.pow 2 31 + Nat.pow 2 31 := rfl

end LineMap

/-- A problem whose span has positions is reported there. -/
theorem Problem.report_located {lines : LineMap} {d : Diagnostic} {start stop : Position} (file : String)
    (isStart : lines.locate d.span.start = .ok start) (isStop : lines.locate d.span.stop = .ok stop) :
    ∃ report, Problem.report file lines (.inSource d) = .ok report ∧ report.location = some ⟨file, start, stop⟩ := by
  have located : Location.ofSpan file lines d.span = .ok ⟨file, start, stop⟩ := by
    rw [Location.ofSpan, isStart, ok_bind, isStop, ok_bind, pure_eq_ok]
  refine ⟨⟨(Problem.inSource d).code, .error, (Problem.inSource d).message, some ⟨file, start, stop⟩,
    sortSuggestions (Problem.inSource d).suggestions⟩, ?_, rfl⟩
  simp [Problem.report, Problem.span?, located]

open LineMap

/-- **Lines and columns.** The line of an offset is the number of newlines before it and one, and its column is the
distance from the last of them, or from the first character, and one. Offsets have distinct positions, in the order of
the offsets, and a problem is never reported to stop before it starts. -/
theorem offsets_located (source : String) (short : source.length < Nat.pow 2 31) :
    (∀ offset < Nat.pow 2 31, ∃ whole line, source.toList.take offset = whole ++ line ∧
      (whole = [] ∨ whole.getLast? = some '\n') ∧ '\n' ∉ line ∧ whole.length ≤ offset ∧
      (ofSource source).locate offset = .ok ⟨(source.toList.take offset).count '\n' + 1, offset - whole.length + 1⟩) ∧
    (∀ offset later p q, offset < later → later < Nat.pow 2 31 → (ofSource source).locate offset = .ok p →
      (ofSource source).locate later = .ok q → p.Before q) ∧
    (∀ offset offset', offset < Nat.pow 2 31 → offset' < Nat.pow 2 31 →
      (ofSource source).locate offset = (ofSource source).locate offset' → offset = offset') ∧
    ∀ file (d : Diagnostic), d.span.start ≤ d.span.stop → d.span.stop < Nat.pow 2 31 → ∃ report start stop,
      Problem.report file (ofSource source) (.inSource d) = .ok report ∧ report.location = some ⟨file, start, stop⟩ ∧
      (ofSource source).locate d.span.start = .ok start ∧ (ofSource source).locate d.span.stop = .ok stop ∧
      ¬ stop.Before start := by
  have words := wordBound_eq
  have many : 1 < Nat.pow 2 31 := by decide
  have located {offset : Nat} (near : offset < Nat.pow 2 31) : (ofSource source).locate offset =
      .ok ⟨(source.toList.take offset).count '\n' + 1, offset - lineStart source offset + 1⟩ :=
      locate_eq (by omega) (by omega)
  have ordered {offset later : Nat} {p q : Position} (below : offset < later) (near : later < Nat.pow 2 31)
      (isP : (ofSource source).locate offset = .ok p) (isQ : (ofSource source).locate later = .ok q) : p.Before q := by
    cases isP.symm.trans (located (Nat.lt_trans below near))
    cases isQ.symm.trans (located near)
    exact position_before below
  refine ⟨fun offset near => ?_, fun offset later p q => ordered, fun offset offset' near near' same => ?_,
    fun file d forward near => ?_⟩
  · obtain ⟨whole, line, split, ended, unended, start⟩ := newlineEnds_split (source.toList.take offset)
    have start : lineStart source offset = whole.length := start
    exact ⟨whole, line, split, ended, unended, start ▸ lineStart_le source offset, start ▸ located near⟩
  · rcases Nat.lt_trichotomy offset offset' with below | equal | above
    · exact absurd (ordered below near' (same.trans (located near')) (located near')) (Position.Before.irrefl _)
    · exact equal
    · exact absurd (ordered above near (same.symm.trans (located near)) (located near)) (Position.Before.irrefl _)
  · have isStart := located (Nat.lt_of_le_of_lt forward near)
    have isStop := located near
    obtain ⟨report, reported, place⟩ := Problem.report_located file isStart isStop
    refine ⟨report, _, _, reported, place, isStart, isStop, fun reversed => ?_⟩
    rcases Nat.eq_or_lt_of_le forward with equal | below
    · rw [equal] at reversed
      exact Position.Before.irrefl _ reversed
    · exact (ordered below near isStart isStop).asymm reversed

/-- A newline itself, an empty line, and a place past the end. -/
theorem offsets_located_lines : "ab\n\nx".length < Nat.pow 2 31 ∧
    (∀ p q, (ofSource "ab\n\nx").locate 3 = .ok p → (ofSource "ab\n\nx").locate 9 = .ok q → p.Before q) ∧
    (ofSource "ab\n\nx").locate 2 = .ok ⟨1, 3⟩ ∧ (ofSource "ab\n\nx").locate 3 = .ok ⟨2, 1⟩ ∧
    (ofSource "ab\n\nx").locate 9 = .ok ⟨3, 6⟩ := by
  have short : "ab\n\nx".length < Nat.pow 2 31 := by decide
  have ordered := (offsets_located "ab\n\nx" short).2.1
  exact ⟨short, fun p q => ordered 3 9 p q (by decide) (by decide), by decide, by decide, by decide⟩

end Quasicode
