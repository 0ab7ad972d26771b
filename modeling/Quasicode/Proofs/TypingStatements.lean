import Quasicode.Proofs.RetypedTable
import Quasicode.Proofs.TypingExprs

/-!
Typing of statements. From a table in which every variable before a statement has a type, typing
the statement goes through and leaves one in which every variable after it has. The bare form of
the statement stays as it is. On a quiet run what was bound without a gap is typed without one,
and where a value meets a target or the result of a function, the types agree.
-/
namespace Quasicode

open Binding (Spot)

/-! ## Numbers -/

theorem Expr.Sets.le {bound : Nat} {t : Table} {first last : Nat} {e : Expr}
    (sets : e.Sets bound t first last) : first ≤ last := by
  rcases sets.next with ⟨_, same, _⟩ | ⟨_, same⟩ <;> omega

theorem threads_le {α : Type} {R : Nat → α → Nat → Prop} (each : ∀ {first x last}, R first x last → first ≤ last) :
    ∀ {xs : List α} {first last : Nat}, threads R first xs last → first ≤ last
  | [], _, _, same => Nat.le_of_eq same.symm
  | _ :: _, _, _, ⟨_, here, rest⟩ => Nat.le_trans (each here) (threads_le each rest)

mutual

theorem Stmt.Threads.le {bound : Nat} {t : Table} :
    ∀ {s : Stmt} {first last : Nat}, s.Threads bound t first last → first ≤ last
  | .eval _, _, _, ⟨_, same⟩ | .output _ _, _, _, ⟨_, same⟩ | .input _ _, _, _, ⟨_, same⟩ | .ret _ _, _, _, ⟨_, _, same⟩
  | .leave _, _, _, ⟨_, same⟩ | .next _, _, _, ⟨_, same⟩ | .exit _, _, _, same => Nat.le_of_eq same.symm
  | .branch _ _ _ _ _, _, _, ⟨_, _, _, body, elseIfs, otherwise⟩ =>
    Nat.le_trans body.le (Nat.le_trans (threadsElseIfs_le elseIfs) (threadsOtherwise_le otherwise))
  | .count _ _ _ _ _ _, _, _, ⟨_, _, _, _, le, _, _, body⟩ => Nat.le_trans le body.le
  | .repeatWhile _ _ _, _, _, ⟨_, body⟩ => body.le
  | .assignAll _ _, _, _, parts => threads_le (fun part => part.left.le) parts
  | .assign _, _, _, part => part.left.le

theorem threadsAll_le {bound : Nat} {t : Table} :
    ∀ {ss : List Stmt} {first last : Nat}, threadsAll bound t first ss last → first ≤ last
  | [], _, _, same => Nat.le_of_eq same.symm
  | _ :: _, _, _, ⟨_, here, rest⟩ => Nat.le_trans here.le (threadsAll_le rest)

theorem Block.Threads.le {bound : Nat} {t : Table} :
    ∀ {block : Block} {first last : Nat}, block.Threads bound t first last → first ≤ last
  | ⟨_, _, _⟩, _, _, ⟨_, stmts⟩ => threadsAll_le stmts

theorem ElseIf.Threads.le {bound : Nat} {t : Table} :
    ∀ {e : ElseIf} {first last : Nat}, e.Threads bound t first last → first ≤ last
  | ⟨_, _⟩, _, _, ⟨_, block⟩ => block.le

theorem threadsElseIfs_le {bound : Nat} {t : Table} :
    ∀ {es : List ElseIf} {first last : Nat}, threadsElseIfs bound t first es last → first ≤ last
  | [], _, _, same => Nat.le_of_eq same.symm
  | _ :: _, _, _, ⟨_, here, rest⟩ => Nat.le_trans here.le (threadsElseIfs_le rest)

theorem threadsOtherwise_le {bound : Nat} {t : Table} : ∀ {otherwise : Option Block} {first last : Nat},
    threadsOtherwise bound t first otherwise last → first ≤ last
  | none, _, _, same => Nat.le_of_eq same.symm
  | some _, _, _, block => block.le

end

/-! ## Typed statements -/

/-- A value is returned as the type that the function has, if it has a result. -/
def Typing.Frame.Admits (frame : Typing.Frame) (value : Expr) : Prop :=
  frame.isConstructor = false → frame.returns.isVoid = false → value.type.Agrees frame.returns

/-- The parts of typed statements without a gap; `frame` is the function around them. -/
def Checks.complete (t : Table) (frame : Option Typing.Frame) : Checks where
  value e := e.All (Expr.Complete t)
  assignment a := a.left.All (Expr.Complete t) ∧ (∀ e ∈ a.chained, e.All (Expr.Complete t)) ∧
    a.value.All (Expr.Complete t) ∧ a.value.type.Agrees a.left.type
  returned value := ∀ e, value = some e → e.All (Expr.Complete t) ∧ ∀ f, frame = some f → f.Admits e
  counter _ slot := ∃ id, slot = some id ∧ (t.var? id).isSome
  scope scope := ∃ id, scope = some id ∧ id.index < t.scopes.size
  place _ := True

/-- The nodes of statements are linked, and loops count with variables that can be seen. -/
def Checks.linked (t : Table) (spot : Spot) (cls : Option SymbolId) (object : Bool) : Checks :=
  { Checks.nodes (Expr.Linked t spot cls object) with
    counter := fun _ slot => ∀ id, slot = some id → t.InSight spot.top id }

/-- The parts of typed statements, whatever was reported. -/
def Checks.judged (bound : Nat) (t : Table) : Checks :=
  { Checks.nodes (Expr.Judged bound t) with
    counter := (Checks.placed bound t).counter, scope := (Checks.placed bound t).scope, place :=
      (Checks.placed bound t).place }

/-- The parts of typed statements without a gap, all of them linked. -/
def Checks.finished (t : Table) (spot : Spot) (cls : Option SymbolId) (frame : Option Typing.Frame) : Checks where
  value e := e.All (Expr.Finished t spot cls frame)
  assignment a := (Checks.nodes (Expr.Finished t spot cls frame)).assignment a ∧ a.value.type.Agrees a.left.type
  returned value := ∀ e, value = some e → e.All (Expr.Finished t spot cls frame) ∧ ∀ f, frame = some f → f.Admits e
  counter _ slot := ∃ id, slot = some id ∧ t.InSight spot.top id
  scope scope := ∃ id, scope = some id ∧ id.index < t.scopes.size
  place _ := True

section Checks

variable {bound : Nat} {t : Table} {spot : Spot} {cls : Option SymbolId} {frame : Option Typing.Frame}

theorem Checks.judged_placed : (Checks.judged bound t).Implies (.placed bound t) := by
  have nodes := Checks.nodes_mono (P := Expr.Judged bound t) fun _ judged => judged.toPlaced
  exact ⟨nodes.value, nodes.assignment, nodes.returned, fun _ _ holds => holds,
    fun _ holds => holds, fun _ holds => holds⟩

theorem Checks.judged_noted : (Checks.judged bound t).Implies (.nodes (Expr.Noted t)) := by
  have nodes := Checks.nodes_mono (P := Expr.Judged bound t) fun _ judged => judged.noted
  exact ⟨nodes.value, nodes.assignment, nodes.returned, fun _ _ _ => trivial, fun _ _ => trivial, fun _ _ => trivial⟩

theorem Checks.finished_complete : (Checks.finished t spot cls frame).Implies (.complete t frame) := by
  have nodes := Checks.nodes_mono (P := Expr.Finished t spot cls frame) fun _ finished => finished.toComplete
  refine ⟨nodes.value, fun a holds => ?_, fun _ holds e same => ⟨nodes.value e (holds e same).1, (holds e same).2⟩,
    fun _ _ holds => ?_, fun _ holds => holds, fun _ _ => trivial⟩
  · obtain ⟨left, chained, value⟩ := nodes.assignment a holds.1
    exact ⟨left, chained, value, holds.2⟩
  · obtain ⟨id, same, s, v, held, isVar, _⟩ := holds
    exact ⟨id, same, by simp [Table.var_of held, isVar]⟩

theorem Checks.finished_linked :
    (Checks.finished t spot cls frame).Implies (.linked t spot cls (Typing.hasObject frame)) := by
  have nodes := Checks.nodes_mono (P := Expr.Finished t spot cls frame) fun _ finished => finished.linked
  refine ⟨nodes.value, fun a holds => nodes.assignment a holds.1, fun _ holds e same => nodes.value e (holds e same).1,
    fun _ _ holds id' same' => ?_, fun _ _ => trivial, fun _ _ => trivial⟩
  obtain ⟨id, same, seen⟩ := holds
  cases same.symm.trans same'
  exact seen

end Checks

namespace Typing

open Analysis
open Table (Reached)

variable {bound : Nat} {g : Guess} {t t' : Table} {known : SymbolId → Prop} {context : Context}
variable {value e : Expr} {a : Assignment}

/-- The parts of statements on a quiet run. -/
abbrev Context.finished (t : Table) (spot : Spot) (context : Context) : Checks :=
  .finished t spot context.cls context.frame

/-! ## Parts of statements -/

/-- Once the known variables have types, the expression can be typed. -/
theorem open_reached (reached : Reached bound t known t') (isOpen : g.Open bound t known e) :
    e.All (Expr.Open bound t'.symbols.size (g.sure → t'.HasType ·)) :=
  isOpen.mono fun _ node => ⟨reached.size ▸ node.toPlaced, node.unset, fun id inside =>
    Guess.Settles.hasType (node.ready id inside) reached⟩

theorem typeExpr_reached (reached : Reached bound t known t') (fits : context.Fits t)
    (isOpen : g.Open bound t known e) :
    Answers (Unseen bound g) t' (typeExpr context e) (e.Dresses (Expr.Judged bound t)) (context.Ends t e) := by
  obtain ⟨_, retyped⟩ := reached.retyped
  apply (typeExpr_answers reached.intact (fits.reached reached) (open_reached reached isOpen)).mono
  · exact fun _ typed => ⟨typed.same, typed.all.mono fun _ => (Expr.judged_retyped retyped).mp⟩
  · exact fun _ _ done _ _ met => (done (met.met_retyped retyped)).finished_retyped retyped

theorem widenTo_reached {target : Ty} (reached : Reached bound t known t') (below : target.Below t.symbols.size)
    (judged : value.All (Expr.Judged bound t)) : Answers (Unseen bound g) t' (widenTo target value)
      (fun value' => value'.All (Expr.Judged bound t) ∧ value.Coated value') (Widened target value) := by
  obtain ⟨_, retyped⟩ := reached.retyped
  rw [← reached.size] at below
  apply (widenTo_answers reached.intact below (judged.mono fun _ => (Expr.judged_retyped retyped).mpr)).mono
  · exact fun _ holds => ⟨holds.1.mono fun _ => (Expr.judged_retyped retyped).mp, holds.2⟩
  · exact fun _ _ widened => widened

/-- The type of a variable that is assigned; one that is declared there gets it. -/
theorem assigneeType_goes {id : SymbolId} {typeName : Option TypeName} {first : Bool}
    (reached : Reached bound t known t')
    (below : id.index < t.symbols.size) (fit : ∀ type, typeName = some type → type.Fit bound True)
    (judged : value.All (Expr.Judged bound t)) (settles : first = false → g.Settles t known id)
    (untyped : first → ∃ v, t.var? id = some v ∧ v.type = none) :
    Goes (Unseen bound g) t' (assigneeType id typeName first value)
      (fun ty t'' => Reached bound t (fun j => known j ∨ first ∧ j = id) t'' ∧ ty.Below t.symbols.size) := by
  unfold assigneeType
  apply Goes.ite
  · intro notFirst
    rw [Bool.not_eq_true'] at notFirst
    apply Goes.mono (variableType_answers reached.intact (reached.below.mpr below) ((settles notFirst).hasType reached))
    · rintro ty _ ⟨rfl, _, belowTy⟩
      refine ⟨reached.extend fun _ _ isKnown _ => .inl (isKnown.resolve_right ?_), reached.size ▸ belowTy⟩
      simp_all
    · exact fun _ _ _ _ => trivial
  · intro isFirst
    rw [Bool.not_eq_false'] at isFirst
    obtain ⟨v, held, none⟩ := untyped isFirst
    extract_lets last
    have ends {ty : Ty} (below : ty.Below t.symbols.size) : Goes (Unseen bound g) t' (last ty)
        (fun ty t'' => Reached bound t (fun j => known j ∨ first ∧ j = id) t'' ∧ ty.Below t.symbols.size) := by
      apply (setVariableType_goes reached held none below).seq
      intro _ t'' reached'
      exact .pure ⟨by simpa [isFirst] using reached', below⟩ trivial
    cases typeName with
    | some type =>
      apply (writtenType_answers (t := t') (fit type rfl)).seq
      rintro ty ⟨belowTy, -⟩
      exact ends (reached.size ▸ belowTy)
    | none =>
      apply Goes.ite
      · exact fun _ => .reports ⟨judged.here.within, rfl⟩ (ends (show Ty.error.Below _ from trivial))
      · exact fun _ => ends judged.type

/-! ## Assignments -/

/-- What a target can be: over symbols that are there, and a variable that it declares has no type yet. -/
structure Target (bound : Nat) (g : Guess) (t : Table) (known : SymbolId → Prop) (e : Expr) : Prop where
  placed : e.All (Expr.Placed bound t.symbols.size)
  isOpen : e.declares = none → g.Open bound t known e
  untyped : ∀ id, e.declares = some id → ∃ v, t.var? id = some v ∧ v.type = none

/-- A typed target, and the value that goes there. -/
structure Assigned (bound : Nat) (t : Table) (target value : Expr) (pair : Expr × Expr) : Prop where
  target : target.Dresses (Expr.Judged bound t) pair.1
  judged : pair.2.All (Expr.Judged bound t)
  coated : value.Coated pair.2

/-- **Typing a target**, which gets its type, and the value that goes there. -/
theorem typeTarget_goes {target : Expr} (reached : Reached bound t known t') (fits : context.Fits t)
    (sets : Target bound g t known target) (judged : value.All (Expr.Judged bound t)) :
    Goes (Unseen bound g) t' (typeTarget context target value)
      (fun pair t'' => Reached bound t (fun j => known j ∨ target.declares = some j) t'' ∧
      Assigned bound t target value pair)
      fun pair _ => ∀ {I spot}, target.All (Expr.Met t I spot) → pair.1.All (context.Done t spot) ∧
      pair.2.type.Agrees pair.1.type := by
  unfold typeTarget
  split
  next info name typeName slot first =>
    have placed : (Expr.assignee info name typeName slot first).Placed bound t.symbols.size := sets.placed
    have node {ty : ValueTy} (below : ty.type.Below t.symbols.size) :
        (Expr.assignee info name typeName slot first).Dresses
        (Expr.Judged bound t) ((Expr.assignee info name typeName slot first).typed ty) :=
      ⟨rfl, placed.judged rfl rfl placed.slots below trivial⟩
    cases slot with
    | none =>
      have reached' : Reached bound t
          (fun j => known j ∨ (Expr.assignee info name typeName none first).declares = some j) t' := by
        apply reached.extend
        intro id v isKnown _
        refine .inl (isKnown.resolve_right ?_)
        rcases first with _ | _ | _ <;> simp [Expr.declares]
      refine .pure ⟨reached', node trivial, judged, .same⟩ fun met => ?_
      obtain ⟨_, _, id, impossible, _⟩ := met.filled
      cases impossible
    | some id =>
      have below : id.index < t.symbols.size := placed.slots id (by simp [Expr.slots])
      apply (assigneeType_goes reached below ?_ judged ?_ ?_).seq
      · rintro ty t₁ ⟨reached₁, belowTy⟩
        have known₁ : Reached bound t
            (fun j => known j ∨ (Expr.assignee info name typeName (some id) first).declares = some j) t₁ := by
          apply reached₁.extend
          intro j _ isKnown _
          refine .inl (isKnown.imp_right ?_)
          rcases first with _ | _ | _ <;> simp [Expr.declares, eq_comm]
        apply (widenTo_reached reached₁ belowTy judged).then
        rintro value' ⟨judged', coated⟩
        exact .pure ⟨known₁, node belowTy, judged', coated⟩
          fun widened _ _ met => ⟨⟨⟨rfl, met.filled.2, trivial⟩, met.bound.uses, trivial⟩, widened.agrees⟩
      · exact fun type same => placed.types type (by simp [Expr.writtenTypes, same])
      · intro again
        refine (sets.isOpen ?_).here.ready id (by simp [Expr.asks])
        rcases first with _ | _ | _ <;> first | rfl | cases again
      · intro isFirst
        apply sets.untyped
        rcases first with _ | _ | _ <;> simp_all [Expr.declares]
  next other =>
    have undeclaring : target.declares = none := by
      cases target with
      | assignee => exact (other _ _ _ _ _ rfl).elim
      | _ => rfl
    have reached' : Reached bound t (fun j => known j ∨ target.declares = some j) t' :=
      reached.extend fun _ _ isKnown _ => .inl (isKnown.resolve_right (by simp [undeclaring]))
    apply (typeExpr_reached reached fits (sets.isOpen undeclaring)).then
    intro target' typed
    apply Goes.ite
    · intro isError
      exact .pure ⟨reached', typed, judged, .same⟩ fun done _ _ met => ⟨done met, .inr (.inr isError)⟩
    · intro _
      apply Goes.ite
      · exact fun _ => .reports ⟨typed.all.here.within, rfl⟩ (.pure ⟨reached', typed, judged, .same⟩ trivial)
      · intro _
        apply (widenTo_reached reached typed.all.type judged).then
        rintro value' ⟨judged', coated⟩
        exact .pure ⟨reached', typed, judged', coated⟩ fun widened done _ _ met => ⟨done met, widened.agrees⟩

/-- The targets in the middle declare nothing. -/
theorem typeTargets_goes : ∀ {targets : List Expr} {value : Expr} {t' : Table}, Reached bound t known t' →
    context.Fits t → (∀ e ∈ targets, g.Open bound t known e ∧ e.declares = none) → value.All (Expr.Judged bound t) →
    Goes (Unseen bound g) t' (typeTargets context targets value)
      (fun pair t'' => Reached bound t known t'' ∧ DressesAll (Expr.Judged bound t) targets pair.1 ∧
        pair.2.All (Expr.Judged bound t) ∧ value.Coated pair.2)
      fun pair _ => context.EndAll t targets pair.1
  | [], value, t', reached, _, _, judged => .pure ⟨reached, ⟨rfl, trivial⟩, judged, .same⟩ fun _ => trivial
  | target :: targets, value, t', reached, fits, all, judged => by
    obtain ⟨isOpen, undeclaring⟩ := all target List.mem_cons_self
    unfold typeTargets
    have sets : Target bound g t known target :=
      ⟨isOpen.mono fun _ node => node.toPlaced, fun _ => isOpen, by simp [undeclaring]⟩
    apply (typeTarget_goes reached fits sets judged).bind
    rintro ⟨target', value'⟩ t₁ ⟨reached₁, typed, judged', coated⟩
    have again : Reached bound t known t₁ := reached₁.extend fun _ _ isKnown _ => .inl (.inl isKnown)
    apply (typeTargets_goes again fits (fun e inside => all e (List.mem_cons_of_mem _ inside)) judged').bind
    rintro ⟨targets', value''⟩ t₂ ⟨reached₂, others, judged'', coated'⟩
    exact .pure ⟨reached₂, ⟨congrArg₂ List.cons typed.same others.same, typed.all, others.all⟩,
      judged'', coated.trans coated'⟩ fun rest here _ _ met => ⟨(here met.1).1, rest met.2⟩

/-- **Typing an assignment.** The variable that its left declares has a type afterwards. -/
theorem typeAssignment_goes (reached : Reached bound t known t') (fits : context.Fits t)
    (value : g.Open bound t known a.value) (chained : ∀ e ∈ a.chained, g.Open bound t known e ∧ e.declares = none)
    (left : Target bound g t known a.left) : Goes (Unseen bound g) t' (typeAssignment context a)
      (fun a' t'' => Reached bound t (fun j => known j ∨ a.left.declares = some j) t'' ∧ a.Dresses (.judged bound t) a')
      fun a' _ => ∀ {I spot}, (Checks.met t I spot).assignment a → (context.finished t spot).assignment a' := by
  unfold typeAssignment
  apply (typeExpr_reached reached fits value).then
  intro value' typed
  apply (typeTargets_goes reached fits (fun e inside => chained e (List.mem_reverse.mp inside)) typed.all).bind
  rintro ⟨chained', value''⟩ t₁ ⟨reached₁, middle, judged', coated⟩
  apply (typeTarget_goes reached₁ fits left judged').bind
  rintro ⟨left', last⟩ t₂ ⟨reached₂, first, judged'', coated'⟩
  have coats := coated.trans coated'
  refine .pure ⟨reached₂, Assignment.dresses first middle.reverse ⟨coats.bare.trans typed.same, judged''⟩⟩
    fun doneLeft doneChained done _ _ met => ?_
  obtain ⟨metLeft, metChained, metValue⟩ := met
  obtain ⟨left, agrees⟩ := doneLeft metLeft
  have chained := allOf_iff.mp (doneChained (allOf_reverse.mpr (allOf_iff.mpr metChained)))
  exact ⟨⟨left, fun e inside => chained e (List.mem_reverse.mp inside), coats.finished (done metValue)⟩, agrees⟩

/-- An assignment between two numbers. -/
theorem typeAssignment_threads {first last : Nat} (reached : Reached bound t (·.index < first) t')
    (fits : context.Fits t) (threads : a.Threads bound t first last) (unset : (Checks.nodes Expr.Unset).assignment a)
    (le : last ≤ t.symbols.size) :
    Goes (Unseen bound g) t' (typeAssignment context a)
      (fun a' t'' => Reached bound t (·.index < last) t'' ∧ a.Dresses (.judged bound t) a')
      fun a' _ => ∀ {I spot}, (Checks.met t I spot).assignment a → (context.finished t spot).assignment a' := by
  have early := Nat.le_trans threads.left.le le
  have left : Target bound g t (·.index < first) a.left := by
    refine ⟨threads.left.placed.mono fun _ placed => placed.mono le, fun undeclaring => ?_, fun id declares => ?_⟩
    · rcases threads.left.next with ⟨declares, _⟩ | ⟨_, same⟩
      · cases undeclaring.symm.trans declares
      · exact .before (same ▸ threads.left.placed) unset.1 early
    · rcases threads.left.next with ⟨same, _, untyped⟩ | ⟨none, _⟩
      · cases same.symm.trans declares
        exact untyped
      · cases none.symm.trans declares
  apply (typeAssignment_goes reached fits (.before threads.value unset.2.2 early) (fun e inside =>
    ⟨.before (threads.chained e inside).all (unset.2.1 e inside) early, (threads.chained e inside).undeclaring⟩)
      left).mono
  · rintro a' t'' ⟨reached', typed⟩
    refine ⟨reached'.extend fun id _ isKnown _ => .inl ?_, typed⟩
    rcases threads.left.next with ⟨same, size, _⟩ | ⟨_, size⟩
    · by_cases before : id.index < first
      · exact .inl before
      · refine .inr (same.trans (congrArg some (SymbolId.ext ?_)))
        show first = id.index
        omega
    · exact .inl (size ▸ isKnown)
  · exact fun _ _ _ done => done

/-! ## Other statements -/

section Parts

variable (reached : Reached bound t known t') (fits : context.Fits t)
include reached fits

theorem typeCondition_answers (isOpen : g.Open bound t known e) :
    Answers (Unseen bound g) t' (typeCondition context e) (e.Dresses (Expr.Judged bound t)) (context.Ends t e) := by
  unfold typeCondition
  apply (typeExpr_reached reached fits isOpen).then
  intro e' typed
  apply Goes.ite
  · exact fun _ => .reports ⟨typed.all.here.within, rfl⟩ (.pure ⟨rfl, typed⟩ trivial)
  · exact fun _ => .pure ⟨rfl, typed⟩ fun done => done

theorem typeBound_answers (isOpen : g.Open bound t known e) :
    Answers (Unseen bound g) t' (typeBound context e) (e.Dresses (Expr.Judged bound t)) (context.Ends t e) := by
  unfold typeBound
  apply (typeExpr_reached reached fits isOpen).bind
  intro e' typed
  apply (checkInt_answers typed.all.here.within rfl).seq
  intro _ _
  exact .pure ⟨rfl, typed⟩ fun done => done

theorem typeInput_answers (isOpen : g.Open bound t known e) :
    Answers (Unseen bound g) t' (typeInput context e) (e.Dresses (Expr.Judged bound t)) (context.Ends t e) := by
  unfold typeInput
  apply (typeExpr_reached reached fits isOpen).then
  intro e' typed
  extract_lets ty
  apply Goes.ite
  · exact fun _ => .pure ⟨rfl, typed⟩ fun done => done
  intro _
  apply Goes.ite
  · exact fun _ => .reports ⟨typed.all.here.within, rfl⟩ (.pure ⟨rfl, typed⟩ trivial)
  intro _
  apply isString_answers.seq
  intro _ _
  apply Goes.ite
  · exact fun _ => .reports ⟨typed.all.here.within, rfl⟩ (.pure ⟨rfl, typed⟩ trivial)
  · exact fun _ => .pure ⟨rfl, typed⟩ fun done => done

/-- The value of a return has the type of the result. -/
theorem typeReturnValue_answers (isOpen : g.Open bound t known e) :
    Answers (Unseen bound g) t' (typeReturnValue context e) (e.Dresses (Expr.Judged bound t))
      fun e' => ∀ {I spot}, e.All (Expr.Met t I spot) → e'.All (context.Done t spot) ∧
      ∀ f, context.frame = some f → f.Admits e' := by
  unfold typeReturnValue
  apply (typeExpr_reached reached fits isOpen).then
  intro e' typed
  cases isFrame : context.frame with
  | none => exact .pure ⟨rfl, typed⟩ fun done _ _ met => ⟨done met, by simp⟩
  | some frame =>
    apply Goes.ite
    · intro constructor
      refine .pure ⟨rfl, typed⟩ fun done _ _ met => ⟨done met, ?_⟩
      rintro _ ⟨⟩ other
      cases constructor.symm.trans other
    intro _
    apply Goes.ite
    · intro void
      have admits : ∀ f, some frame = some f → f.Admits e' := by
        rintro _ ⟨⟩ _ other
        cases void.symm.trans other
      apply Goes.ite
      · exact fun _ => .reports ⟨typed.all.here.within, rfl⟩ (.pure ⟨rfl, typed⟩ trivial)
      · exact fun _ => .pure ⟨rfl, typed⟩ fun done _ _ met => ⟨done met, admits⟩
    · intro _
      apply (widenTo_reached reached (fits.returns frame isFrame) typed.all).mono
      · exact fun _ holds => ⟨holds.2.bare.trans typed.same, holds.1⟩
      · rintro e'' ⟨_, coated⟩ widened done _ _ met
        refine ⟨coated.finished (done met), ?_⟩
        rintro _ ⟨⟩ _ _
        exact widened.agrees

theorem typeReturn_answers {value : Option Expr} {span : Span} (isOpen : ∀ e, value = some e → g.Open bound t known e)
    (within : span.Within bound) :
    Answers (Unseen bound g) t' (typeReturn context value span) (DressesOption (.judged bound t) value)
      fun value' => ∀ {I spot}, (Checks.met t I spot).returned value → (context.finished t spot).returned value' := by
  unfold typeReturn
  cases value with
  | some e =>
    apply (typeReturnValue_answers reached fits (isOpen e rfl)).bind
    intro e' typed
    refine .pure ⟨congrArg some typed.same, ?_⟩ fun done _ _ met => ?_
    · rintro _ ⟨⟩
      exact typed.all
    · rintro _ ⟨⟩
      exact done (met e rfl)
  | none =>
    have bare : Answers (Unseen bound g) t' (checkBareReturn context span) (fun _ => True) := by
      unfold checkBareReturn
      cases context.frame with
      | none => exact .done
      | some frame =>
        apply Goes.ite
        · exact fun _ => .report ⟨within, rfl⟩ ⟨rfl, trivial⟩
        · exact fun _ => .done
    apply bare.seq
    intro _ _
    exact .pure ⟨rfl, rfl, nofun⟩ fun _ => nofun

omit fits in
theorem checkCounter_answers {counter : Ident} {slot : Option SymbolId} (within : counter.span.Within bound)
    (below : ∀ id, slot = some id → id.index < t.symbols.size) (settles : ∀ id, slot = some id → g.Settles t known id) :
    Answers (Unseen bound g) t' (checkCounter counter slot) (fun _ => True) := by
  unfold checkCounter
  cases slot with
  | none => exact .done
  | some id =>
    apply (variableType_answers reached.intact (reached.below.mpr (below id rfl))
      ((settles id rfl).hasType reached)).seq
    intro ty _
    apply Goes.ite
    · exact fun _ => .report ⟨within, rfl⟩ ⟨rfl, trivial⟩
    · exact fun _ => .done

end Parts

/-! ## Statements -/

/-- Steps in a row, each of them between two numbers. -/
theorem mapM_reached {α β : Type} {f : α → Analysis β} {R : Nat → α → Nat → Prop} {A B : α → β → Prop}
    (le : ∀ {first x last}, R first x last → first ≤ last) : ∀ {xs : List α} {first last : Nat} {t' : Table},
    (∀ x ∈ xs, ∀ {first last t'}, Reached bound t (·.index < first) t' → R first x last → last ≤ t.symbols.size →
      Goes (Unseen bound g) t' (f x) (fun y t'' => Reached bound t (·.index < last) t'' ∧ A x y) fun y _ => B x y) →
    Reached bound t (·.index < first) t' → threads R first xs last → last ≤ t.symbols.size →
    Goes (Unseen bound g) t' (xs.mapM f) (fun ys t'' => Reached bound t (·.index < last) t'' ∧ List.Forall₂ A xs ys)
      fun ys _ => List.Forall₂ B xs ys
  | [], first, _, t', _, reached, same, _ => .pure ⟨same ▸ reached, .nil⟩ .nil
  | x :: xs, first, last, t', each, reached, ⟨middle, here, rest⟩, size => by
    rw [List.mapM_cons]
    apply (each x List.mem_cons_self reached here (Nat.le_trans (threads_le le rest) size)).bind
    rintro y t₁ ⟨reached₁, holds⟩
    apply (mapM_reached le (fun z inside => each z (List.mem_cons_of_mem _ inside)) reached₁ rest size).bind
    rintro ys t₂ ⟨reached₂, all⟩
    exact .pure ⟨reached₂, .cons holds all⟩ fun others quiet => .cons quiet others

theorem typeExprs_reached {es : List Expr} (reached : Reached bound t known t') (fits : context.Fits t)
    (isOpen : ∀ e ∈ es, g.Open bound t known e) :
    Answers (Unseen bound g) t' (typeExprs context es)
      (Dresses (List.map Expr.bare) (fun es' => ∀ e ∈ es', e.All (Expr.Judged bound t)) es)
      fun es' => ∀ {I spot}, (∀ e ∈ es, e.All (Expr.Met t I spot)) → ∀ e ∈ es', e.All (context.Done t spot) := by
  obtain ⟨_, retyped⟩ := reached.retyped
  apply (typeExprs_answers reached.intact (fits.reached reached)
    (allOf_iff.mpr fun e inside => open_reached reached (isOpen e inside))).mono
  · refine fun _ typed => ⟨?_, fun e inside => (allOf_iff.mp typed.all e inside).mono
      fun _ => (Expr.judged_retyped retyped).mp⟩
    rw [← bareAll_eq, typed.same, bareAll_eq]
  · intro es' _ done _ _ met e inside
    have done := done (allOf_iff.mpr fun e inside => (met e inside).met_retyped retyped)
    exact (allOf_iff.mp done e inside).finished_retyped retyped

/-- The bare forms of what a loop leaves. -/
theorem dresses_map {α : Type} {bare : α → α} {All : α → Prop} {xs ys : List α}
    (all : List.Forall₂ (Dresses bare All) xs ys) :
    Dresses (List.map bare) (fun ys => ∀ y ∈ ys, All y) xs ys := by
  refine ⟨?_, forall_right all fun _ _ typed => typed.all⟩
  induction all with
  | nil => rfl
  | cons here _ ih => exact congrArg₂ List.cons here.same ih

/-- What is known of the left of each pair gives what is known of its right. -/
theorem forall_through {α β : Type} {P : α → Prop} {Q : β → Prop} {xs : List α} {ys : List β}
    (all : List.Forall₂ (fun x y => P x → Q y) xs ys) (holds : ∀ x ∈ xs, P x) : ∀ y ∈ ys, Q y :=
  forall_right ((List.forall₂_and_left _ _).mpr ⟨holds, all⟩) fun _ _ both => both.2 both.1

mutual

/-- **Typing a statement.** -/
theorem typeStmt_goes : ∀ {s : Stmt} {context : Context} {first last : Nat} {t' : Table},
    Reached bound t (·.index < first) t' →
    context.Fits t → s.Threads bound t first last → s.Holds (.nodes Expr.Unset) → last ≤ t.symbols.size →
    Goes (Unseen bound g) t' (typeStmt context s) (fun s' t'' => Reached bound t (·.index < last) t'' ∧
      s.Dresses (.judged bound t) s')
      fun s' _ => ∀ {I spot}, s.Holds (.met t I spot) → s'.Holds (context.finished t spot)
  | .eval value, context, first, _, t', reached, fits, ⟨placed, same⟩, unset, le => by
    subst same
    apply (typeExpr_reached reached fits (.before placed unset le)).then
    intro e typed
    exact .pure ⟨reached, congrArg Stmt.eval typed.same, typed.all⟩ fun done _ _ met => done met
  | .branch condition body elseIfs otherwise span, context, first, last, t', reached, fits,
      ⟨placed, second, third, inBody, inElseIfs, inOtherwise⟩, unset, le => by
    have leThird := Nat.le_trans (threadsOtherwise_le inOtherwise) le
    have leSecond := Nat.le_trans (threadsElseIfs_le inElseIfs) leThird
    apply (typeCondition_answers reached fits (.before placed unset.1 (Nat.le_trans inBody.le leSecond))).then
    intro condition' test
    apply (typeBlock_goes reached fits inBody unset.2.1 leSecond).bind
    rintro body' t₁ ⟨reached₁, inner⟩
    apply (typeElseIfs_goes reached₁ fits inElseIfs unset.2.2.1 leThird).bind
    rintro elseIfs' t₂ ⟨reached₂, others⟩
    apply (typeOtherwise_goes reached₂ fits inOtherwise unset.2.2.2 le).bind
    rintro otherwise' t₃ ⟨reached₃, last⟩
    refine .pure ⟨reached₃, ?_, test.all, inner.all, others.all, last.all⟩
      fun doneLast doneOthers doneBody done _ _ met => ?_
    · simp only [Stmt.bare, test.same, inner.same, others.same, last.same]
    · exact ⟨done met.1, doneBody met.2.1, doneOthers met.2.2.1, doneLast met.2.2.2⟩
  | .output values span, context, first, _, t', reached, fits, ⟨placed, same⟩, unset, le => by
    subst same
    apply (typeExprs_reached reached fits fun e inside => .before (placed e inside) (unset e inside) le).then
    intro es typed
    exact .pure ⟨reached, congrArg (Stmt.output · span) typed.same, typed.all⟩ fun done _ _ met => done met
  | .input targets span, context, first, _, t', reached, fits, ⟨placed, same⟩, unset, le => by
    subst same
    apply (Answers.mapM fun e inside => typeInput_answers reached fits
      (.before (placed e inside) (unset e inside) le)).then
    intro es each
    have typed := dresses_map each
    exact .pure ⟨reached, congrArg (Stmt.input · span) typed.same, typed.all⟩ fun done _ _ met =>
      forall_through (done.imp fun _ _ done met => done met) met
  | .ret value span, context, first, _, t', reached, fits, ⟨placed, within, same⟩, unset, le => by
    subst same
    apply (typeReturn_answers reached fits (fun e same => .before (placed e same) (unset.1 e same) le) within).then
    intro value' typed
    exact .pure ⟨reached, congrArg (Stmt.ret · span) typed.same, typed.all, within⟩
      fun done _ _ met => ⟨done met.1, trivial⟩
  | .count counter slot low high body span, context, first, last, t', reached, fits,
      ⟨placedLow, placedHigh, within, second, leSecond, typed, below, inBody⟩, unset, le => by
    have leFirst := Nat.le_trans leSecond (Nat.le_trans inBody.le le)
    have belowSlot : ∀ id, slot = some id → id.index < t.symbols.size := fun id same =>
      Nat.lt_of_lt_of_le (below id same) (Nat.le_trans inBody.le le)
    apply (typeBound_answers reached fits (.before placedLow unset.1 leFirst)).then
    intro low' typedLow
    apply (typeBound_answers reached fits (.before placedHigh unset.2.1 leFirst)).then
    intro high' typedHigh
    apply (checkCounter_answers (reached.past typed) within belowSlot fun id same _ => .inl (below id same)).seq
    intro _ _
    apply (typeBlock_goes (reached.past typed) fits inBody unset.2.2.2 le).bind
    rintro body' t₁ ⟨reached₁, inner⟩
    refine .pure ⟨reached₁, ?_, typedLow.all, typedHigh.all, ⟨within, belowSlot⟩, inner.all⟩
      fun doneBody doneHigh doneLow _ _ met => ?_
    · simp only [Stmt.bare, typedLow.same, typedHigh.same, inner.same]
    · exact ⟨doneLow met.1, doneHigh met.2.1, met.2.2.1, doneBody met.2.2.2⟩
  | .repeatWhile condition body span, context, first, last, t', reached, fits, ⟨placed, inBody⟩, unset, le => by
    apply (typeCondition_answers reached fits (.before placed unset.1 (Nat.le_trans inBody.le le))).then
    intro condition' test
    apply (typeBlock_goes reached fits inBody unset.2 le).bind
    rintro body' t₁ ⟨reached₁, inner⟩
    refine .pure ⟨reached₁, ?_, test.all, inner.all⟩ fun doneBody done _ _ met => ⟨done met.1, doneBody met.2⟩
    simp only [Stmt.bare, test.same, inner.same]
  | .leave span, _, _, _, _, reached, _, ⟨within, same⟩, _, _
  | .next span, _, _, _, _, reached, _, ⟨within, same⟩, _, _ => by
    subst same
    exact .pure ⟨reached, rfl, within⟩ fun _ => trivial
  | .exit span, _, _, _, _, reached, _, same, _, _ => .pure ⟨same ▸ reached, rfl, trivial⟩ fun _ => trivial
  | .assignAll parts span, context, first, last, t', reached, fits, inParts, unset, le => by
    have each := mapM_reached (g := g) (f := typeAssignment context) (A := fun a => a.Dresses (.judged bound t))
      (B := fun a a' => ∀ {I spot}, (Checks.met t I spot).assignment a → (context.finished t spot).assignment a')
      (fun part => part.left.le) (fun a inside {_ _ _} reached inPart le => typeAssignment_threads reached fits inPart
      (unset a inside) le) reached inParts le
    apply each.bind
    rintro parts' t₁ ⟨reached₁, each⟩
    have typed := dresses_map each
    exact .pure ⟨reached₁, congrArg (Stmt.assignAll · span) typed.same, typed.all⟩ fun done _ _ met =>
      forall_through (done.imp fun _ _ done met => done met) met
  | .assign part, context, first, last, t', reached, fits, inPart, unset, le => by
    apply (typeAssignment_threads reached fits inPart unset le).bind
    rintro part' t₁ ⟨reached₁, typed⟩
    exact .pure ⟨reached₁, congrArg Stmt.assign typed.same, typed.all⟩ fun done _ _ met => done met

theorem typeStmts_goes : ∀ {ss : List Stmt} {context : Context} {first last : Nat} {t' : Table},
    Reached bound t (·.index < first) t' →
    context.Fits t → threadsAll bound t first ss last → holdsInAll (.nodes Expr.Unset) ss → last ≤ t.symbols.size →
    Goes (Unseen bound g) t' (typeStmts context ss) (fun ss' t'' => Reached bound t (·.index < last) t'' ∧
      DressesStmts (.judged bound t) ss ss')
      fun ss' _ => ∀ {I spot}, holdsInAll (.met t I spot) ss → holdsInAll (context.finished t spot) ss'
  | [], _, _, _, _, reached, _, same, _, _ => .pure ⟨same ▸ reached, rfl, trivial⟩ fun _ => trivial
  | s :: ss, context, first, last, t', reached, fits, ⟨middle, here, rest⟩, unset, le => by
    apply (typeStmt_goes reached fits here unset.1 (Nat.le_trans (threadsAll_le rest) le)).bind
    rintro s' t₁ ⟨reached₁, typed⟩
    apply (typeStmts_goes reached₁ fits rest unset.2 le).bind
    rintro ss' t₂ ⟨reached₂, others⟩
    exact .pure ⟨reached₂, congrArg₂ List.cons typed.same others.same, typed.all, others.all⟩ fun others done _ _ met =>
      ⟨done met.1, others met.2⟩

theorem typeBlock_goes : ∀ {block : Block} {context : Context} {first last : Nat} {t' : Table},
    Reached bound t (·.index < first) t' →
    context.Fits t → block.Threads bound t first last → block.Holds (.nodes Expr.Unset) → last ≤ t.symbols.size →
    Goes (Unseen bound g) t' (typeBlock context block)
      (fun block' t'' => Reached bound t (·.index < last) t'' ∧ block.Dresses (.judged bound t) block')
      fun block' _ => ∀ {I spot}, block.Holds (.met t I spot) → block'.Holds (context.finished t spot)
  | ⟨stmts, scope, span⟩, context, first, last, t', reached, fits, ⟨inside, inStmts⟩, unset, le => by
    have nested : Context.Fits t { context with scope := scope.getD context.scope } := by
      refine ⟨?_, fits.cls, fits.returns, fits.apart⟩
      cases scope with
      | none => exact fits.inside
      | some id => exact inside id rfl
    apply (typeStmts_goes reached nested inStmts unset.2 le).bind
    rintro stmts' t₁ ⟨reached₁, typed⟩
    refine .pure ⟨reached₁, congrArg (Block.mk · none span) typed.same, inside, typed.all⟩
      fun done _ _ met => ⟨?_, done met.2⟩
    obtain ⟨id, same⟩ := Option.isSome_iff_exists.mp met.1
    exact ⟨id, same, inside id same⟩

theorem typeElseIf_goes : ∀ {e : ElseIf} {context : Context} {first last : Nat} {t' : Table},
    Reached bound t (·.index < first) t' →
    context.Fits t → e.Threads bound t first last → e.Holds (.nodes Expr.Unset) → last ≤ t.symbols.size →
    Goes (Unseen bound g) t' (typeElseIf context e) (fun e' t'' => Reached bound t (·.index < last) t'' ∧
      e.Dresses (.judged bound t) e')
      fun e' _ => ∀ {I spot}, e.Holds (.met t I spot) → e'.Holds (context.finished t spot)
  | ⟨condition, block⟩, context, first, last, t', reached, fits, ⟨placed, inBlock⟩, unset, le => by
    apply (typeCondition_answers reached fits (.before placed unset.1 (Nat.le_trans inBlock.le le))).then
    intro condition' test
    apply (typeBlock_goes reached fits inBlock unset.2 le).bind
    rintro block' t₁ ⟨reached₁, inner⟩
    exact .pure ⟨reached₁, congrArg₂ ElseIf.mk test.same inner.same, test.all, inner.all⟩ fun doneBlock done _ _ met =>
      ⟨done met.1, doneBlock met.2⟩

theorem typeElseIfs_goes : ∀ {es : List ElseIf} {context : Context} {first last : Nat} {t' : Table},
    Reached bound t (·.index < first) t' →
    context.Fits t → threadsElseIfs bound t first es last → holdsInElseIfs (.nodes Expr.Unset) es →
    last ≤ t.symbols.size → Goes (Unseen bound g) t' (typeElseIfs context es)
      (fun es' t'' => Reached bound t (·.index < last) t'' ∧ DressesElseIfs (.judged bound t) es es')
      fun es' _ => ∀ {I spot}, holdsInElseIfs (.met t I spot) es → holdsInElseIfs (context.finished t spot) es'
  | [], _, _, _, _, reached, _, same, _, _ => .pure ⟨same ▸ reached, rfl, trivial⟩ fun _ => trivial
  | e :: es, context, first, last, t', reached, fits, ⟨middle, here, rest⟩, unset, le => by
    apply (typeElseIf_goes reached fits here unset.1 (Nat.le_trans (threadsElseIfs_le rest) le)).bind
    rintro e' t₁ ⟨reached₁, typed⟩
    apply (typeElseIfs_goes reached₁ fits rest unset.2 le).bind
    rintro es' t₂ ⟨reached₂, others⟩
    exact .pure ⟨reached₂, congrArg₂ List.cons typed.same others.same, typed.all, others.all⟩ fun others done _ _ met =>
      ⟨done met.1, others met.2⟩

theorem typeOtherwise_goes : ∀ {otherwise : Option Block} {context : Context} {first last : Nat} {t' : Table},
    Reached bound t (·.index < first) t' → context.Fits t → threadsOtherwise bound t first otherwise last →
    holdsInOtherwise (.nodes Expr.Unset) otherwise → last ≤ t.symbols.size →
      Goes (Unseen bound g) t' (typeOtherwise context otherwise)
      (fun otherwise' t'' => Reached bound t (·.index < last) t'' ∧
      DressesOtherwise (.judged bound t) otherwise otherwise')
      fun otherwise' _ => ∀ {I spot}, holdsInOtherwise (.met t I spot) otherwise →
      holdsInOtherwise (context.finished t spot) otherwise'
  | none, _, _, _, _, reached, _, same, _, _ => .pure ⟨same ▸ reached, rfl, trivial⟩ fun _ => trivial
  | some block, context, first, last, t', reached, fits, inBlock, unset, le => by
    apply (typeBlock_goes reached fits inBlock unset le).bind
    rintro block' t₁ ⟨reached₁, typed⟩
    exact .pure ⟨reached₁, congrArg some typed.same, typed.all⟩ fun done _ _ met => done met

end

end Typing

end Quasicode
