import Quasicode.Flow.Return
import Quasicode.Proofs.FieldPaths

/-!
Guaranteed return is exact. Where every `break` and `continue` belongs to a loop of the body, a body counts as one that
ends if and only if no path through it runs off its end.
-/
namespace Quasicode

/-! ## Everything but a jump can be passed -/

section Possible

variable {t : Table} {first second : Traces}

theorem Traces.possible_seq (one : ∃ es, first es) (two : ∃ es, second es) : ∃ es, first.seq second es := by
  obtain ⟨x, heldX⟩ := one
  obtain ⟨y, heldY⟩ := two
  exact ⟨x ++ y, x, y, heldX, heldY, rfl⟩

theorem targetTraces_possible (target : Expr) : ∃ es, targetTraces t target es := by
  have evaluated := (target.traces_plain t).possible
  unfold targetTraces
  cases target.ownSlot with
  | none => exact evaluated
  | some id =>
    by_cases isField : t.isField id
    · exact ⟨[.assign id], by simp [isField]⟩
    · simpa [isField] using evaluated

theorem targetTracesAll_possible (targets : List Expr) : ∃ es, targetTracesAll t targets es := by
  induction targets with
  | nil => exact ⟨[], rfl⟩
  | cons target _ ih => exact Traces.possible_seq (targetTraces_possible target) ih

theorem Assignment.traces_possible (a : Assignment) : ∃ es, a.traces t es :=
  Traces.possible_seq (a.value.traces_plain t).possible
    (Traces.possible_seq (targetTracesAll_possible a.chained.reverse) (targetTraces_possible a.left))

theorem assignmentTracesAll_possible (parts : List Assignment) : ∃ es, assignmentTracesAll t parts es := by
  induction parts with
  | nil => exact ⟨[], rfl⟩
  | cons a _ ih => exact Traces.possible_seq a.traces_possible ih

theorem Paths.goesPast_past (possible : ∃ es, first es) : first.past.GoesPast := by
  obtain ⟨es, held⟩ := possible
  exact ⟨es, held, rfl⟩

end Possible

/-! ## Jumps -/

mutual

/-- Whether the statement holds a `break` or a `continue` that belongs to no loop of the statement. -/
def Stmt.jumps : Stmt → Bool
  | .leave _ | .next _ => true
  | .branch _ body elseIfs otherwise _ => body.jumps || jumpsInAll elseIfs || jumpsInLast otherwise
  | _ => false

def jumpsIn : List Stmt → Bool
  | [] => false
  | s :: ss => s.jumps || jumpsIn ss

def Block.jumps : Block → Bool
  | ⟨stmts, _, _⟩ => jumpsIn stmts

def ElseIf.jumps : ElseIf → Bool
  | ⟨_, block⟩ => block.jumps

def jumpsInAll : List ElseIf → Bool
  | [] => false
  | e :: es => e.jumps || jumpsInAll es

def jumpsInLast : Option Block → Bool
  | none => false
  | some block => block.jumps

end

/-! ## What goes past a statement -/

theorem Paths.runsOn {paths : Paths} (past : paths.GoesPast) : false = true ↔ ¬ paths.GoesPast := by simp [past]

mutual

/-- **One statement.** It ends if and only if no path goes past it. -/
theorem Stmt.ends_iff (t : Table) : ∀ {s : Stmt}, s.jumps = false → (s.ends ↔ ¬ (s.paths t).GoesPast)
  | .ret value _, _ => by
    refine ⟨fun _ past => ?_, fun _ => rfl⟩
    cases value with
    | none =>
      obtain ⟨_, _, ⟨⟩⟩ := past
    | some value =>
      obtain ⟨_, _, _, _, ⟨_, ⟨⟩⟩, _⟩ := past
  | .exit _, _ => by
    refine ⟨fun _ past => ?_, fun _ => rfl⟩
    obtain ⟨_, _, ⟨⟩⟩ := past
  | .branch condition body elseIfs otherwise _, jumpless => by
    simp only [Stmt.jumps, Bool.or_eq_false_iff] at jumpless
    obtain ⟨⟨inBody, inElseIfs⟩, inLast⟩ := jumpless
    rw [Stmt.paths, Paths.goesPast_after (condition.traces_plain t), Paths.goesPast_either,
      goesPast_elseIfs, not_or, not_or, ← Block.ends_iff t inBody,
      ← endsInAll_iff t inElseIfs, ← otherwise_iff t inLast]
    cases otherwise with
    | none => simp [Stmt.ends]
    | some block => simp [Stmt.ends, and_assoc]
  | .eval value, _ => Paths.runsOn (Paths.goesPast_past (value.traces_plain t).possible)
  | .output values _, _ => Paths.runsOn (Paths.goesPast_past (tracesOfAll_plain t values).possible)
  | .input targets _, _ => Paths.runsOn (Paths.goesPast_past (targetTracesAll_possible targets))
  | .assignAll parts _, _ => Paths.runsOn (Paths.goesPast_past (assignmentTracesAll_possible parts))
  | .assign part, _ => Paths.runsOn (Paths.goesPast_past part.traces_possible)
  | .count _ _ first last _ _, _ =>
    Paths.runsOn ((Paths.goesPast_after ((first.traces_plain t).seq (last.traces_plain t))).mpr
      (Paths.goesPast_loop (Traces.plain_of_eq fun _ => List.not_mem_nil)))
  | .repeatWhile condition _ _, _ => Paths.runsOn (Paths.goesPast_loop (condition.traces_plain t))

theorem endsIn_iff (t : Table) : ∀ {ss : List Stmt}, jumpsIn ss = false → (endsIn ss ↔ ¬ (pathsOfAll t ss).GoesPast)
  | [], _ => by
    have past : (pathsOfAll t []).GoesPast := ⟨[], rfl, rfl⟩
    simp [endsIn, past]
  | s :: ss, jumpless => by
    obtain ⟨here, later⟩ := Bool.or_eq_false_iff.mp jumpless
    rw [pathsOfAll, Paths.goesPast_andThen, Classical.not_and_iff_not_or_not, ← Stmt.ends_iff t here,
      ← endsIn_iff t later, endsIn, Bool.or_eq_true]

theorem Block.ends_iff (t : Table) : ∀ {block : Block}, block.jumps = false → (block.ends ↔ ¬ (block.paths t).GoesPast)
  | ⟨_, _, _⟩, jumpless => endsIn_iff t jumpless

theorem ElseIf.ends_iff (t : Table) : ∀ {e : ElseIf}, e.jumps = false → (e.ends ↔ ¬ (e.paths t).GoesPast)
  | ⟨_, _⟩, jumpless => Block.ends_iff t jumpless

/-- All arms of a branch have to end. -/
theorem endsInAll_iff (t : Table) :
    ∀ {es : List ElseIf}, jumpsInAll es = false → (endsInAll es ↔ ¬ (armPaths t es).GoesPast)
  | [], _ => by
    have none : ¬ (armPaths t []).GoesPast := fun past => past.elim fun _ impossible => impossible
    simp [endsInAll, none]
  | e :: es, jumpless => by
    obtain ⟨here, later⟩ := Bool.or_eq_false_iff.mp jumpless
    rw [armPaths, Paths.goesPast_either, not_or, ← ElseIf.ends_iff t here, ← endsInAll_iff t later,
      endsInAll, Bool.and_eq_true]

/-- Without a last arm a branch can be passed. -/
theorem otherwise_iff (t : Table) : ∀ {otherwise : Option Block}, jumpsInLast otherwise = false →
    (otherwise.any Block.ends ↔ ¬ (otherwisePaths t otherwise).GoesPast)
  | none, _ => by
    have past : (otherwisePaths t none).GoesPast := ⟨[], rfl, rfl⟩
    simp [past]
  | some _, jumpless => Block.ends_iff t jumpless

end

/-- **Guaranteed return.** A body whose `break`s and `continue`s stand inside loops ends if and
only if no path runs off its end. -/
theorem ends_exact (t : Table) {body : List Stmt} (jumpless : jumpsIn body = false) :
    endsIn body = true ↔ ¬ ∃ es, pathsOfAll t body es .past :=
  endsIn_iff t jumpless

/-- A loop that is left, and a branch of which every arm ends. -/
def endingBody : List Stmt :=
  let truth : Expr := .literal ⟨.none, none⟩ (.bool true)
  [.repeatWhile truth ⟨[.branch truth ⟨[.leave .none], none, .none⟩ [] (some ⟨[.ret none .none], none, .none⟩) .none],
   none, .none⟩ .none, .branch truth ⟨[.ret (some truth) .none], none, .none⟩ [⟨truth, ⟨[.exit .none], none, .none⟩⟩]
    (some ⟨[.eval truth, .ret (some truth) .none], none, .none⟩) .none]

theorem endingBody_exact : jumpsIn endingBody = false ∧ endsIn endingBody = true ∧ ¬ ∃ es,
    pathsOfAll .empty endingBody es .past :=
  ⟨by decide, by decide, (ends_exact .empty (by decide)).mp (by decide)⟩

end Quasicode
