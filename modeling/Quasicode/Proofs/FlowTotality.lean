import Quasicode.Flow.Init
import Quasicode.Flow.Return
import Quasicode.Proofs.BoundProgram

/-!
The checks of control flow go through on every program over symbols that are there, and they leave the table as it is.
-/
namespace Quasicode.Flow

open Analysis
open Diagnostic (Plain)

variable {bound : Nat} {t : Table} {unset : Unset}
variable {span : Span} {callee : Callee} {target : Option CallTarget} {f : Function} {program : Program}

/-- The check goes through and leaves the table as it is. -/
abbrev Passes {α : Type} (bound : Nat) (t : Table) (check : Analysis α) : Prop :=
  Answers (Plain bound) t check (fun _ => True)

/-! ## Expressions -/

theorem checkRead_answers {slot : Option SymbolId} (below : ∀ id, slot = some id → id.index < t.symbols.size)
    (within : span.Within bound) :
    Passes bound t (checkRead unset slot span) := by
  unfold checkRead
  cases slot with
  | none => exact .done
  | some id =>
    apply Goes.ite
    · intro _
      apply Goes.askBelow (below id rfl)
      exact fun _ _ => .report ⟨within, rfl⟩ ⟨rfl, trivial⟩
    · exact fun _ => .done

theorem checkMethodCall_answers (below : ∀ id, target.bind anyTarget = some id → id.index < t.symbols.size)
    (within : span.Within bound) :
    Passes bound t (checkMethodCall unset callee target span) := by
  have runs : Passes bound t (runsMethod target) := by
    unfold runsMethod
    split
    · exact .done
    next id isTarget =>
      apply Goes.askBelow (below id isTarget)
      exact fun _ _ => .done
  unfold checkMethodCall
  apply Goes.ite
  · intro _
    apply runs.seq
    intro onObject _
    apply Goes.ite
    · exact fun _ => .report ⟨within, rfl⟩ ⟨rfl, trivial⟩
    · exact fun _ => .done
  · exact fun _ => .done

/-- The method that a call is checked for is one of its slots. -/
theorem anyTarget_slot {info : NodeInfo} {name : Ident} {arguments : List Expr} {id : SymbolId}
    (isTarget : target.bind anyTarget = some id) : id ∈ (Expr.call info callee name arguments target).slots := by
  cases target with
  | none => cases isTarget
  | some target =>
    cases target with
    | unique =>
      cases isTarget
      exact List.mem_singleton.mpr rfl
    | byClass methods =>
      obtain ⟨entry, first, rfl⟩ := Option.map_eq_some_iff.mp isTarget
      exact List.mem_map_of_mem (List.mem_of_mem_head? first)

mutual

theorem checkExpr_answers : ∀ {e : Expr}, e.All (Expr.Placed bound t.symbols.size) →
    Passes bound t (checkExpr unset e)
  | .this _ _, placed => by
    apply Goes.ite
    · exact fun _ => .report ⟨placed.here.within, rfl⟩ ⟨rfl, trivial⟩
    · exact fun _ => .done
  | .var _ _ slot, placed =>
    checkRead_answers (fun id same => placed.slots id (by simp [Expr.slots, same])) placed.here.within
  | .member _ object _ field, ⟨placed, inside⟩ => by
    apply Goes.ite
    · exact fun _ => checkRead_answers (fun id same => placed.slots id (by simp [Expr.slots, same])) placed.within
    · exact fun _ => checkExpr_answers inside
  | .call _ callee _ arguments target, ⟨placed, inCallee, inArguments⟩ => by
    apply (checkCallee_answers inCallee).seq
    intro _ _
    apply (checkExprs_answers inArguments).seq
    intro _ _
    exact checkMethodCall_answers (fun id isTarget => placed.slots id (anyTarget_slot isTarget)) placed.within
  | .group _ _, ⟨_, inside⟩ | .widen _ _, ⟨_, inside⟩ | .unary _ _ _, ⟨_, inside⟩ | .cast _ _ _, ⟨_, inside⟩
  | .isType _ _ _ _, ⟨_, inside⟩ => by
    unfold checkExpr
    exact checkExpr_answers inside
  | .subscript _ _ _, ⟨_, first, second⟩ | .binary _ _ _ _, ⟨_, first, second⟩
  | .logical _ _ _ _, ⟨_, first, second⟩ => by
    unfold checkExpr
    exact (checkExpr_answers first).seq fun _ _ => checkExpr_answers second
  | .arrayLiteral _ _, ⟨_, inside⟩ | .newArray _ _ _, ⟨_, inside⟩ | .newObject _ _ _ _, ⟨_, inside⟩ => by
    unfold checkExpr
    exact checkExprs_answers inside
  | .literal _ _, _ | .classRef _ _ _, _ | .superField _ _ _ _, _ | .assignee _ _ _ _ _, _ => .done

theorem checkExprs_answers : ∀ {es : List Expr}, allOf (Expr.Placed bound t.symbols.size) es →
    Passes bound t (checkExprs unset es)
  | [], _ => .done
  | _ :: _, ⟨first, rest⟩ => (checkExpr_answers first).seq fun _ _ => checkExprs_answers rest

theorem checkCallee_answers : ∀ {callee : Callee}, callee.All (Expr.Placed bound t.symbols.size) →
    Passes bound t (checkCallee unset callee)
  | .object receiver, inside => by
    apply Goes.ite
    · exact fun _ => .done
    · exact fun _ => checkExpr_answers inside
  | .free, _ | .super, _ | .superConstructor, _ => .done

end

/-! ## Statements -/

theorem checkTarget_answers {target : Expr} (placed : target.All (Expr.Placed bound t.symbols.size)) :
    Passes bound t (checkTarget unset target) := by
  have known {id : SymbolId} (below : id.index < t.symbols.size) :
      Passes bound t (isInstanceField id) :=
    Goes.askBelow below fun _ _ => .done
  unfold checkTarget
  split
  next id =>
    apply (known (placed.here.slots id (by simp [Expr.slots]))).seq
    exact fun _ _ => .done
  next id _ =>
    apply (known (placed.here.slots id (by simp [Expr.slots]))).seq
    exact fun _ _ => .done
  · exact .done
  · exact .done
  · exact .done
  · exact (checkExpr_answers placed).seq fun _ _ => .done

theorem checkAssignment_answers {a : Assignment} (placed : (Checks.placed bound t).assignment a) :
    Passes bound t (checkAssignment unset a) := by
  obtain ⟨left, chained, value⟩ := placed
  have targets : Passes bound t (a.chained.reverse.foldlM checkTarget unset) :=
    .foldlM (fun _ _ e inside => checkTarget_answers (chained e (List.mem_reverse.mp inside))) trivial
  unfold checkAssignment
  apply (checkExpr_answers value).seq
  intro _ _
  apply targets.seq
  exact fun _ _ => checkTarget_answers left

mutual

theorem checkStmt_answers : ∀ {unset : Unset} {s : Stmt}, s.Holds (.placed bound t) →
    Passes bound t (checkStmt unset s)
  | unset, .eval _, placed => (checkExpr_answers placed).seq fun _ _ => .done
  | unset, .output _ _, placed => (checkExprs_answers (allOf_iff.mpr placed)).seq fun _ _ => .done
  | unset, .input targets _, placed => by
    have all : Passes bound t (targets.foldlM checkTarget unset) :=
      .foldlM (fun _ _ e inside => checkTarget_answers (placed e inside)) trivial
    exact all.seq fun _ _ => .done
  | unset, .ret value span, ⟨placed, within⟩ => by
    have returned : Passes bound t (value.forM (checkExpr unset)) := by
      cases value with
      | none => exact .done
      | some e => exact checkExpr_answers (placed e rfl)
    apply returned.seq
    intro _ _
    apply Goes.ite
    · exact fun _ => .reports ⟨within, rfl⟩ (.done)
    · exact fun _ => .done
  | _, .exit _, _ | _, .leave _, _ | _, .next _, _ => .done
  | unset, .branch _ _ _ _ _, ⟨condition, body, elseIfs, otherwise⟩ => by
    apply (checkExpr_answers condition).seq
    intro _ _
    apply (checkConditions_answers elseIfs).seq
    intro _ _
    apply (checkBlock_answers body).seq
    intro _ _
    apply (checkElseIfs_answers elseIfs).seq
    intro _ _
    apply (checkOtherwise_answers otherwise).seq
    exact fun _ _ => .done
  | unset, .count _ _ _ _ _ _, ⟨first, last, _, body⟩ => by
    apply (checkExpr_answers first).seq
    intro _ _
    apply (checkExpr_answers last).seq
    intro _ _
    apply (checkBlock_answers body).seq
    exact fun _ _ => .done
  | unset, .repeatWhile _ _ _, ⟨condition, body⟩ => by
    apply (checkExpr_answers condition).seq
    intro _ _
    apply (checkBlock_answers body).seq
    exact fun _ _ => .done
  | unset, .assignAll parts _, placed => by
    have all : Passes bound t (parts.foldlM checkAssignment unset) :=
      .foldlM (fun _ _ a inside => checkAssignment_answers (placed a inside)) trivial
    exact all.seq fun _ _ => .done
  | unset, .assign _, placed => (checkAssignment_answers placed).seq fun _ _ => .done

theorem checkStmts_answers : ∀ {unset : Unset} {ss : List Stmt}, holdsInAll (.placed bound t) ss →
    Passes bound t (checkStmts unset ss)
  | _, [], _ => .done
  | unset, s :: ss, ⟨here, rest⟩ => by
    apply (checkStmt_answers here).seq
    intro after _
    cases after with
    | none => exact Goes.done
    | some unset => exact checkStmts_answers rest

theorem checkBlock_answers : ∀ {unset : Unset} {block : Block}, block.Holds (.placed bound t) →
    Passes bound t (checkBlock unset block)
  | _, ⟨_, _, _⟩, ⟨_, stmts⟩ => checkStmts_answers stmts

theorem checkElseIf_answers : ∀ {unset : Unset} {e : ElseIf}, e.Holds (.placed bound t) →
    Passes bound t (checkElseIf unset e)
  | _, ⟨_, _⟩, ⟨_, block⟩ => checkBlock_answers block

theorem checkElseIfs_answers : ∀ {unset : Unset} {es : List ElseIf}, holdsInElseIfs (.placed bound t) es →
    Passes bound t (checkElseIfs unset es)
  | _, [], _ => .done
  | _, _ :: _, ⟨here, rest⟩ => by
    apply (checkElseIf_answers here).seq
    intro _ _
    apply (checkElseIfs_answers rest).seq
    exact fun _ _ => .done

theorem checkOtherwise_answers :
    ∀ {unset : Unset} {otherwise : Option Block}, holdsInOtherwise (.placed bound t) otherwise →
    Passes bound t (checkOtherwise unset otherwise)
  | _, none, _ => .done
  | _, some _, block => checkBlock_answers block

theorem checkConditions_answers : ∀ {unset : Unset} {es : List ElseIf}, holdsInElseIfs (.placed bound t) es →
    Passes bound t (checkConditions unset es)
  | _, [], _ => by
    unfold checkConditions
    exact .done
  | _, ⟨_, _⟩ :: _, ⟨⟨condition, _⟩, rest⟩ => by
    unfold checkConditions
    exact (checkExpr_answers condition).seq fun _ _ => checkConditions_answers rest

end

/-! ## Programs -/

theorem checkReturns_answers (placed : f.Placed bound t) :
    Passes bound t (checkReturns f) := by
  unfold checkReturns
  cases isSymbol : f.symbol with
  | none => exact .done
  | some id =>
    apply Goes.askBelow (placed.symbol id isSymbol)
    intro s _
    cases s.function? with
    | none => exact .done
    | some signature =>
      apply Goes.ite
      · exact fun _ => .report ⟨placed.endSpan, rfl⟩ ⟨rfl, trivial⟩
      · exact fun _ => .done

/-- **The returns of a program are checked.** -/
theorem checkProgramReturns_answers (placed : ∀ item ∈ program.items, item.Placed bound t) :
    Passes bound t (checkProgramReturns program) := by
  apply Answers.forM
  intro item inside
  have here := placed item inside
  cases item with
  | cls c =>
    apply Goes.ite
    · intro known
      exact Answers.forM fun m inside => checkReturns_answers (here.methods known m inside)
    · exact fun _ => .done
  | function f => exact checkReturns_answers here
  | stmt => exact .done

theorem checkConstructor_answers {required : Unset} (body : holdsInAll (.placed bound t) f.body)
    (endSpan : f.endSpan.Within bound) :
    Passes bound t (checkConstructor required f) := by
  unfold checkConstructor
  apply (checkStmts_answers body).seq
  intro after _
  cases after with
  | none => exact .done
  | some unset =>
    apply Goes.ite
    · exact fun _ => .report ⟨endSpan, rfl⟩ ⟨rfl, trivial⟩
    · exact fun _ => .done

/-- Only a function with a symbol is a constructor. -/
theorem isConstructor_answers (placed : f.Placed bound t) :
    Answers (Plain bound) t (isConstructor f) (fun answer => answer → f.symbol.isSome) := by
  unfold isConstructor
  cases isSymbol : f.symbol with
  | none => exact .pure (by simp) trivial
  | some id =>
    apply Goes.askBelow (placed.symbol id isSymbol)
    exact fun _ _ => .pure ⟨rfl, fun _ => rfl⟩ trivial

theorem checkMethodInit_answers {required : Unset} {m : Method} (placed : m.function.Placed bound t) :
    Passes bound t (do if ← isConstructor m.function then checkConstructor required m.function) := by
  apply (isConstructor_answers placed).seq
  intro answer known
  apply Goes.ite
  · exact fun yes => checkConstructor_answers (placed.body (known yes)) placed.endSpan
  · exact fun _ => .done

theorem checkItemInit_answers : ∀ {item : Item}, item.Placed bound t → Passes bound t (checkItemInit item)
  | .cls c, placed => by
    apply Goes.ite
    · intro checked
      have known : c.symbol.isSome := (Bool.and_eq_true_iff.mp checked).1
      exact Answers.forM fun m inside => checkMethodInit_answers (placed.methods known m inside)
    · exact fun _ => .done
  | .function _, _ | .stmt _, _ => .done

/-- **The constructors of a program are checked.** -/
theorem checkProgramInit_answers (placed : ∀ item ∈ program.items, item.Placed bound t) :
    Passes bound t (checkProgramInit program) :=
  Answers.forM fun item inside => checkItemInit_answers (placed item inside)

end Quasicode.Flow
