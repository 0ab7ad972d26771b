import Quasicode.Analysis.Basic

/-!
Guaranteed return: every path through the body of a function with a result ends in a return or an exit. The
body of a loop may not run at all, so loops never count.
-/
namespace Quasicode

mutual

/-- Whether a statement never lets control run past its end. -/
def Stmt.ends : Stmt → Bool
  | .ret _ _ | .exit _ => true
  | .branch _ body elseIfs (some otherwise) _ => body.ends && endsInAll elseIfs && otherwise.ends
  | _ => false
termination_by structural s => s

/-- Whether control never runs past the end of a list of statements. -/
def endsIn : List Stmt → Bool
  | [] => false
  | s :: ss => s.ends || endsIn ss
termination_by structural ss => ss

def Block.ends : Block → Bool
  | ⟨stmts, _, _⟩ => endsIn stmts
termination_by structural block => block

def ElseIf.ends : ElseIf → Bool
  | ⟨_, block⟩ => block.ends
termination_by structural elseIf => elseIf

def endsInAll : List ElseIf → Bool
  | [] => true
  | e :: es => e.ends && endsInAll es
termination_by structural es => es

end

namespace Flow

open Analysis

/-- Reports a function with a result whose body can run past its end. -/
def checkReturns (f : Function) : Analysis Unit := do
  match f.symbol with
  | none => return
  | some id =>
    match (← symbol id).function? with
    | none => return
    | some signature =>
      let ty := signature.returns
      if !ty.isVoid && !ty.isError && !endsIn f.body then
        report (.missingReturn ty.text) f.endSpan

def checkItemReturns : Item → Analysis Unit
  | .function f => checkReturns f
  | .cls c => if c.symbol.isSome then c.methods.forM fun m => checkReturns m.function else return
  | .stmt _ => return

/-- Checks every function and method of a typed program. -/
def checkProgramReturns (program : Program) : Analysis Unit :=
  program.items.forM checkItemReturns

end Flow

end Quasicode
