import Quasicode.Proofs.AnalysisPhases

/-!
Dispatch in a program without diagnostics. The hierarchy is complete once everything is declared, and every later part
of the analysis leaves classes and methods as they are. So what a call records when it is typed still says, when the
analysis ends, which method the class of an object has.
-/
namespace Quasicode

open Analysis Hierarchy

variable {t : Table} {program : Program} {s s' : AnalysisState} {result : Program × List SymbolId}

/-- **Dispatch is sound.** In a program that is analyzed from the start without diagnostics, what a call records
chooses for every class the method that the class has, unless the call goes to the superclass. -/
theorem call_dispatches {classNames : List String} {source : String} {analyzed : Analyzed}
    {info : NodeInfo} {callee : Callee} {name : Ident} {arguments : List Expr} {target : CallTarget}
    (fresh : Table.initial = .ok t) (ran : analyzeSource classNames t source = .ok analyzed)
    (clean : analyzed.problems = [])
    (inside : Expr.call info callee name arguments (some target) ∈ analyzed.program.calls)
    (direct : callee = .free ∨ ∃ receiver, callee = .object receiver) : analyzed.table.DispatchSound target := by
  obtain ⟨parsed, reads, fresh', -⟩ := source_read source (Builtin.classNames ++ classNames)
  rw [analyzeSource, reads, ok_bind] at ran
  obtain ⟨⟨result, last⟩, runs, answer⟩ := bind_eq_ok.mp ran
  cases answer
  obtain ⟨_, initial, standing, _⟩ := Table.initial_standing (source.length + 2)
  cases fresh.symm.trans initial
  obtain ⟨items, declared, declares, decorates⟩ := analysis_decorates standing fresh' runs
  obtain ⟨settled, typed⟩ :=
    Binding.declareItems_settled standing.intact (Table.initial_declared fresh).resetToRoot fresh' declares
  have since := decorates.since
  have quiet : declared.problems = [] := since.silent clean
  have recorded := Program.All.calls decorates.records _ inside
  have chosen : declared.table.Targets target := by
    rcases direct with rfl | ⟨receiver, rfl⟩
    · exact recorded
    · exact recorded
  obtain ⟨m, callable, rfl⟩ := chosen
  rw [← since.members.target_same]
  exact Table.dispatchSound_targetOf (since.members.settled (settled quiet))
    (since.members.sameMethods.typedBySignature typed) (since.members.callable callable)

/-- A method that the class below the next one overrides, called through an object. -/
def overriddenSource : String :=
  "class A\n  function f() : int\n    return 1\n  end function\nend class\n" ++
  "class B extends A\nend class\n" ++
  "class C extends B\n  function f() : int\n    return 2\n  end function\nend class\n" ++
  "a = new A()\noutput a.f()\n"

/-- The methods by class that a call through an object has recorded. -/
def Expr.methodsByClass? : Expr → Option (List (SymbolId × SymbolId))
  | .call _ (.object _) _ _ (some (.byClass methods)) => some methods
  | _ => none

theorem overridden_call_dispatches : ∃ t analyzed call methods, Table.initial = .ok t ∧
    analyzeSource [] t overriddenSource = .ok analyzed ∧ analyzed.problems = [] ∧ call ∈ analyzed.program.calls ∧
    call.methodsByClass? = some methods ∧ methods.length = 2 ∧ analyzed.table.DispatchSound (.byClass methods) := by
  have evaluated : (do
      let analyzed ← analyzeSource [] (← Table.initial) overriddenSource
      return analyzed.problems.isEmpty && analyzed.program.calls.any fun call =>
        call.methodsByClass?.any (·.length = 2) : Except Fault Bool).toOption = some true := by decide +kernel
  cases fresh : Table.initial with
  | error fault => simp [fresh, Except.toOption] at evaluated
  | ok t =>
    cases ran : analyzeSource [] t overriddenSource with
    | error fault => simp [fresh, ran, Except.toOption] at evaluated
    | ok analyzed =>
      simp only [fresh, ran, ok_bind, pure_eq_ok, Except.toOption, Option.some.injEq, Bool.and_eq_true,
        List.isEmpty_iff, List.any_eq_true, Option.any_eq_true, decide_eq_true_eq] at evaluated
      obtain ⟨clean, call, inside, methods, recorded, two⟩ := evaluated
      refine ⟨t, analyzed, call, methods, rfl, ran, clean, inside, recorded, two, ?_⟩
      unfold Expr.methodsByClass? at recorded
      split at recorded
      next receiver _ _ _ =>
        cases recorded
        exact call_dispatches fresh ran clean inside (.inr ⟨receiver, rfl⟩)
      · cases recorded

end Quasicode
