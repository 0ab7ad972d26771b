import Quasicode.Binding.Stmt
import Quasicode.Proofs.BindNames

/-!
Binding of statements. A statement as it is read is always bound; the table only gains local variables and the scopes of
blocks, and the bound statement lies between the number of symbols before and the number after. Without a diagnostic it
has no empty slot, and it uses nothing but what the body around may use.
-/
namespace Quasicode.Binding

open Analysis
open Table (Persists Advances Binds)
open Diagnostic (Plain)

variable {bound : Nat} {start t t' : Table} {spot : Spot} {context : Context}

/-- At the top level there is neither a class nor a function around. -/
def Spot.outside : Spot := ⟨.root, .topLevel, fun _ => False⟩

theorem underway_top (intact : t.Intact bound) : Underway bound t .outside t .top := by
  refine .begin intact ⟨intact.sound.rootInside, nofun, ?_⟩ (fun _ => False.elim) rfl rfl
  rintro (impossible | impossible) <;> cases impossible

/-- Steps of a loop that move the table along `L`, each of them between the numbers of symbols before and after it. -/
theorem mapM_chain {α β : Type} {xs : List α} {g : α → Analysis β} {L : Table → Table → Prop}
    {P S : Table → α → β → Prop} {Q : Table → Nat → β → Nat → Prop} (refl : ∀ {t₁ t₂}, L t₁ t₂ → L t₂ t₂)
    (trans : ∀ {t₁ t₂ t₃}, L t₁ t₂ → L t₂ t₃ → L t₁ t₃) (persists : ∀ {t₁ t₂}, L t₁ t₂ → Persists t₁ t₂)
    (mono : ∀ {t₁ t₂ x y}, L t₁ t₂ → P t₁ x y → P t₂ x y) (monoQuiet : ∀ {t₁ t₂ x y}, L t₁ t₂ → S t₁ x y → S t₂ x y)
    (each : ∀ x ∈ xs, ∀ t₁, L t t₁ → Goes (Plain bound) t₁ (g x)
      (fun y t' => L t₁ t' ∧ P t' x y ∧ ∀ later, t'.Persists later → Q later t₁.symbols.size y t'.symbols.size)
      fun y t' => S t' x y) (start : L t t) :
    Goes (Plain bound) t (xs.mapM g)
      (fun ys t' => L t t' ∧ List.Forall₂ (P t') xs ys ∧
        ∀ later, t'.Persists later → threads (Q later) t.symbols.size ys t'.symbols.size)
      fun ys t' => List.Forall₂ (S t') xs ys := by
  induction xs generalizing t with
  | nil => exact .pure ⟨start, .nil, fun _ _ => rfl⟩ .nil
  | cons x xs ih =>
    rw [List.mapM_cons]
    apply (each x List.mem_cons_self t start).bind
    rintro y t₁ ⟨step, here, between⟩
    apply (ih (fun x inside t₂ further => each x (List.mem_cons_of_mem _ inside) t₂ (trans step further))
      (refl step)).bind
    rintro ys t₂ ⟨further, others, chain⟩
    refine .pure ⟨trans step further, .cons (mono further here) others, fun later kept => ⟨_, ?_, chain later kept⟩⟩
      fun rest here => .cons (monoQuiet further here) rest
    exact between later ((persists further).trans kept)

/-- What a part of a body becomes: the table goes on, slots are filled, and nothing else is done to the part, which lies
between the numbers of symbols before and after. -/
structure Becomes {α : Type} (start : Table) (bound : Nat) (bare : α → α) (All : α → Prop)
    (Threads : Table → Nat → α → Nat → Prop) (t : Table) (x x' : α) (t' : Table) : Prop where
  binds : Binds start.scopes.size bound t t'
  dressed : Dresses bare All x x'
  threads : ∀ later, t'.Persists later → Threads later t.symbols.size x' t'.symbols.size

/-! ## Parts of statements -/

theorem bindOption_answers {value : Option Expr} (underway : Underway bound start spot t context)
    (fresh : ∀ e, value = some e → e.All (Expr.Fresh bound True)) :
    Answers (Plain bound) t (value.mapM (bindExpr context))
      (fun value' => DressesOption (.nodes Expr.Unset) value value' ∧ ∀ e, value' = some e →
      e.All (Expr.Placed bound t.symbols.size))
      fun value' => ∀ e, value' = some e → e.All (Expr.Met t context.Inherits spot) := by
  cases value with
  | none => exact .pure ⟨⟨rfl, nofun⟩, nofun⟩ nofun
  | some e =>
    apply Answers.map
    apply (bindExpr_answers underway (fresh e rfl)).mono
    · refine fun e' done => ⟨⟨congrArg some done.same, ?_⟩, ?_⟩
      · rintro _ ⟨⟩
        exact done.unset.all
      · rintro _ ⟨⟩
        exact done.placed
    · rintro e' _ met _ ⟨⟩
      exact met

/-- An assignment declares a variable only on its left, and only where the name can be declared. -/
theorem bindAssignment_goes {a : Assignment} (underway : Underway bound start spot t context)
    (writable : context.Writable start) (fresh : a.Fresh bound True) :
    Goes (Plain bound) t (bindAssignment context a)
      (fun a' t' => Binds start.scopes.size bound t t' ∧
        (a'.declares ≠ [] → ∃ name, a.left.assigned? = some name ∧ context.Free t name) ∧
        a.Dresses (.nodes Expr.Unset) a' ∧ ∀ later, t'.Persists later →
        a'.Threads bound later t.symbols.size t'.symbols.size)
      fun a' t' => (Checks.met t' context.Inherits spot).assignment a' := by
  unfold bindAssignment
  apply (bindExpr_answers underway fresh.value).then
  intro value doneValue
  have reversed : allOf (Expr.Fresh bound True) a.chained.reverse :=
    allOf_iff.mpr fun e inside => fresh.chained e (List.mem_reverse.mp inside)
  apply (bindExprs_answers underway reversed).then
  intro chained doneChained
  apply (bindTarget_goes underway writable fresh.left).bind
  rintro left t' ⟨binds, free, dressedLeft, sets⟩
  have inner : ∀ e ∈ chained.reverse, e.Inner bound t.symbols.size :=
    fun e inside => doneChained.inner reversed e (List.mem_reverse.mp inside)
  refine .pure ⟨binds, fun declares => ?_, Assignment.dresses dressedLeft doneChained.unset.reverse doneValue.unset,
      fun later persists => ⟨doneValue.placed, inner, sets later persists⟩⟩
    fun left chained value => ⟨left, fun e inside => ?_, binds.met value⟩
  · apply free
    have none : chained.reverse.filterMap Expr.declares = [] :=
      List.filterMap_eq_nil_iff.mpr fun e inside => (inner e inside).undeclaring
    cases here : left.declares with
    | none => simp [Assignment.declares, Assignment.targets, here, none] at declares
    | some id => rfl
  · exact binds.met (allOf_iff.mp chained e (List.mem_reverse.mp inside))

/-- A counter is a variable that is known already, or a new one with a type. -/
theorem bindCounter_goes {counter : Ident} (underway : Underway bound start spot t context)
    (writable : context.Writable start) (named : counter.Fit bound) :
    Goes (Plain bound) t (bindCounter context counter)
      (fun id t' => Binds start.scopes.size bound t t' ∧ id.index < t'.symbols.size ∧ t'.InSight spot.top id ∧
        ∀ later, t'.Persists later → later.Typed t.symbols.size t'.symbols.size) := by
  have intact := underway.intact
  have inside := underway.valid.inside
  have allows : t.Allows bound context.scope counter.name counter.span
      (.variable { type := some .int, status := .ready, kind := .localVar }) := by
    refine .var inside named ?_ nofun
    rintro _ ⟨⟩
    trivial
  have declares : Goes (Plain bound) t
      (declare context.scope counter.name counter.span
      (.variable { type := some .int, status := .ready, kind := .localVar }))
      (fun id t' => Binds start.scopes.size bound t t' ∧ id.index < t'.symbols.size ∧ t'.InSight spot.top id ∧
        ∀ later, t'.Persists later → later.Typed t.symbols.size t'.symbols.size) := by
    have proper : (SymbolKind.variable { type := some .int, status := .ready, kind := .localVar }).Proper := by
      refine ⟨?_, nofun⟩
      rintro _ _ ⟨⟩ ⟨⟩
      trivial
    obtain ⟨t₁, ran, adds⟩ := Table.declare_total (t := t) inside counter.name counter.span
      (.variable { type := some .int, status := .ready, kind := .localVar })
    have binds : Binds start.scopes.size bound t t₁ :=
      ⟨.declare intact adds allows rfl fun _ => proper, .declare adds rfl fun _ => writable⟩
    have held := adds.held
    refine Goes.update ran ⟨binds, Table.symbol_bound held, .ofLocal held rfl rfl, fun later persists => ?_⟩ trivial
    obtain ⟨v, kept, typed, _⟩ := persists.var_kept (Table.var_of held)
    rw [adds.size]
    exact .single kept (by simp [typed])
  unfold bindCounter
  apply Goes.askChain intact.sound intact.rooted inside
  intro found asked there
  cases found with
  | none => exact declares
  | some id =>
    obtain ⟨s, held, _⟩ := there id rfl
    apply Goes.askSymbol held
    cases isVar : s.var? with
    | none => exact declares
    | some v =>
      exact .pure ⟨.refl intact, Table.symbol_bound held, underway.inSight asked held isVar,
        fun _ _ => .empty (Nat.le_refl _)⟩ trivial

theorem checkReturn_answers {value : Option Expr} {span : Span} (within : span.Within bound) :
    Answers (Plain bound) t (checkReturn context value span) (fun _ => True) := by
  unfold checkReturn
  split
  · exact .report ⟨within, rfl⟩ trivial
  · apply Goes.ite
    · exact fun _ => .report ⟨within, rfl⟩ ⟨rfl, trivial⟩
    · exact fun _ => .done
  · exact .done

/-- A word that may stand only in a loop. -/
theorem checkLoop_goes {cause : Cause} {span : Span} {s : Stmt} (intact : t.Intact bound) (other : cause.isPlain)
    (unset : s.Holds (.nodes Expr.Unset))
    (threads : ∀ later, s.Threads bound later t.symbols.size t.symbols.size)
    (met : s.Holds (.met t context.Inherits spot)) (within : span.Within bound) :
    Goes (Plain bound) t (do
        if !context.inLoop then
          report cause span
        return s)
      (Becomes start bound Stmt.bare (Stmt.Holds (.nodes Expr.Unset)) (Stmt.Threads bound) t s)
      fun s' t' => s'.Holds (.met t' context.Inherits spot) := by
  apply Goes.ite
  · exact fun _ => .reports ⟨within, other⟩ (.pure ⟨.refl intact, ⟨rfl, unset⟩, fun later _ => threads later⟩ trivial)
  · exact fun _ => .pure ⟨.refl intact, ⟨rfl, unset⟩, fun later _ => threads later⟩ met

theorem bindParts_goes {parts : List Assignment} (underway : Underway bound start spot t context)
    (writable : context.Writable start) (fresh : ∀ a ∈ parts, a.Fresh bound True) :
    Goes (Plain bound) t (parts.mapM (bindAssignment context))
      (fun parts' t' => Binds start.scopes.size bound t t' ∧
        List.Forall₂ (Assignment.Dresses (.nodes Expr.Unset)) parts parts' ∧ ∀ later, t'.Persists later →
        threads (fun first a last => Assignment.Threads bound later first a last)
          t.symbols.size parts' t'.symbols.size)
      fun parts' t' => List.Forall₂ (fun _ a => (Checks.met t' context.Inherits spot).assignment a) parts parts' := by
  apply mapM_chain (L := Binds start.scopes.size bound) (P := fun _ => Assignment.Dresses (.nodes Expr.Unset))
    (S := fun t' _ a => (Checks.met t' context.Inherits spot).assignment a) (fun binds => .refl binds.intact)
    (fun first second => first.trans second) (fun binds => binds.persists) (fun _ holds => holds)
    fun binds => binds.checks.assignment _
  · intro a inside t₁ binds
    apply (bindAssignment_goes (underway.mono binds) writable (fresh a inside)).mono
    · rintro a' t' ⟨binds, _, rest⟩
      exact ⟨binds, rest⟩
    · exact fun a' t' _ quiet => quiet
  · exact .refl underway.intact

/-! ## Statements -/

mutual

/-- **Binding a statement.** -/
theorem bindStmt_goes : ∀ {s : Stmt} {t : Table} {context : Context}, Underway bound start spot t context →
    context.Writable start → s.Holds (.fresh bound True) → Goes (Plain bound) t (bindStmt context s)
      (Becomes start bound Stmt.bare (Stmt.Holds (.nodes Expr.Unset)) (Stmt.Threads bound) t s)
      fun s' t' => s'.Holds (.met t' context.Inherits spot)
  | .eval value, t, context, underway, writable, fresh => by
    apply (bindExpr_answers underway fresh).then
    intro e done
    exact .pure ⟨.refl underway.intact, ⟨by simp only [Stmt.bare, done.same], done.unset.all⟩,
      fun _ _ => ⟨done.placed, rfl⟩⟩ fun met => met
  | .branch condition body elseIfs otherwise span, t, context, underway, writable,
      ⟨freshCondition, freshBody, freshElseIfs, freshOtherwise⟩ => by
    apply (bindExpr_answers underway freshCondition).then
    intro condition' done
    apply (bindBlock_goes underway writable freshBody).bind
    rintro body' t₁ ⟨binds₁, dressedBody, threadsBody⟩
    apply (bindElseIfs_goes (underway.mono binds₁) writable freshElseIfs).bind
    rintro elseIfs' t₂ ⟨binds₂, dressedElseIfs, threadsElseIfs⟩
    have binds := binds₁.trans binds₂
    apply (bindOtherwise_goes (underway.mono binds) writable freshOtherwise).bind
    rintro otherwise' t₃ ⟨binds₃, dressedOtherwise, threadsOtherwise⟩
    have same : (Stmt.branch condition' body' elseIfs' otherwise' span).bare =
        (Stmt.branch condition body elseIfs otherwise span).bare := by
      simp only [Stmt.bare, done.same, dressedBody.same, dressedElseIfs.same, dressedOtherwise.same]
    refine .pure ⟨binds.trans binds₃, ⟨same, done.unset.all, dressedBody.all, dressedElseIfs.all, dressedOtherwise.all⟩,
        fun later persists => ⟨done.placed, t₁.symbols.size, t₂.symbols.size, ?_, ?_, threadsOtherwise later persists⟩⟩
      fun last middle first met => ⟨?_, ?_, ?_, last⟩
    · exact threadsBody later ((binds₂.trans binds₃).persists.trans persists)
    · exact threadsElseIfs later (binds₃.persists.trans persists)
    · exact (binds.trans binds₃).met met
    · exact first.mono (binds₂.trans binds₃).checks
    · exact holdsInElseIfs_mono binds₃.checks middle
  | .output values span, t, context, underway, writable, fresh
  | .input values span, t, context, underway, writable, fresh => by
    apply (bindExprs_answers underway (allOf_iff.mpr fresh)).then
    intro es done
    have inner := done.inner (allOf_iff.mpr fresh)
    exact .pure ⟨.refl underway.intact,
      ⟨by simp only [Stmt.bare, ← bareAll_eq, done.same], allOf_iff.mp done.unset.all⟩,
      fun _ _ => ⟨fun e inside => (inner e inside).all, rfl⟩⟩ fun met => allOf_iff.mp met
  | .ret value span, t, context, underway, writable, ⟨fresh, within⟩ => by
    apply (checkReturn_answers within).seq
    intro _ _
    apply (bindOption_answers underway fresh).then
    rintro value' ⟨dressed, placed⟩
    exact .pure ⟨.refl underway.intact, ⟨by simp only [Stmt.bare, dressed.same], dressed.all, trivial⟩,
      fun _ _ => ⟨placed, within, rfl⟩⟩ fun met => ⟨met, trivial⟩
  | .count counter slot first last body span, t, context, underway, writable,
      ⟨freshFirst, freshLast, ⟨named, _⟩, freshBody⟩ => by
    apply (bindExpr_answers underway freshFirst).then
    intro low doneLow
    apply (bindExpr_answers underway freshLast).then
    intro high doneHigh
    apply (bindCounter_goes underway writable named).seq
    rintro id t₁ ⟨binds₁, below, seen, typed⟩
    apply (bindBlock_goes (underway.mono binds₁).inLoop writable freshBody).bind
    rintro body' t₂ ⟨binds₂, dressedBody, threadsBody⟩
    have binds := binds₁.trans binds₂
    have dressed : (Stmt.count counter slot first last body span).Dresses (.nodes Expr.Unset)
        (.count counter (some id) low high body' span) :=
      ⟨by simp only [Stmt.bare, doneLow.same, doneHigh.same, dressedBody.same], doneLow.unset.all, doneHigh.unset.all,
        trivial, dressedBody.all⟩
    refine .pure ⟨binds, dressed, fun later persists => ⟨doneLow.placed, doneHigh.placed, named.within,
        t₁.symbols.size, binds₁.persists.size,
        typed later (binds₂.persists.trans persists), ?_, threadsBody later persists⟩⟩
      fun inside metHigh metLow => ⟨?_, ?_, ⟨id, rfl, seen.mono binds₂.stays⟩, inside⟩
    · rintro _ ⟨⟩
      exact below
    · exact binds.met metLow
    · exact binds.met metHigh
  | .repeatWhile condition body span, t, context, underway, writable, ⟨freshCondition, freshBody⟩ => by
    apply (bindExpr_answers underway freshCondition).then
    intro condition' done
    apply (bindBlock_goes underway.inLoop writable freshBody).bind
    rintro body' t₁ ⟨binds, dressed, threadsBody⟩
    exact .pure ⟨binds, ⟨by simp only [Stmt.bare, done.same, dressed.same], done.unset.all, dressed.all⟩,
      fun later persists => ⟨done.placed, threadsBody later persists⟩⟩
      fun inside met => ⟨binds.met met, inside⟩
  | .leave span, t, context, underway, writable, within =>
    checkLoop_goes underway.intact rfl trivial (fun _ => ⟨within, rfl⟩) trivial within
  | .next span, t, context, underway, writable, within =>
    checkLoop_goes underway.intact rfl trivial (fun _ => ⟨within, rfl⟩) trivial within
  | .exit span, t, context, underway, writable, _ =>
    .pure ⟨.refl underway.intact, ⟨rfl, trivial⟩, fun _ _ => rfl⟩ trivial
  | .assignAll parts span, t, context, underway, writable, fresh => by
    apply (bindParts_goes underway writable fresh).bind
    rintro parts' t' ⟨binds, dressed, threads⟩
    obtain ⟨same, unset⟩ := Dresses.list dressed
    exact .pure ⟨binds, ⟨by simp only [Stmt.bare, same], unset⟩, threads⟩ fun met => forall_right met fun _ _ met => met
  | .assign part, t, context, underway, writable, fresh => by
    apply (bindAssignment_goes underway writable fresh).bind
    rintro a t' ⟨binds, _, dressed, threads⟩
    exact .pure ⟨binds, ⟨by simp only [Stmt.bare, dressed.same], dressed.all⟩, threads⟩ fun met => met

theorem bindStmts_goes : ∀ {ss : List Stmt} {t : Table} {context : Context}, Underway bound start spot t context →
    context.Writable start → holdsInAll (.fresh bound True) ss → Goes (Plain bound) t (bindStmts context ss)
      (Becomes start bound bareStmts (holdsInAll (.nodes Expr.Unset)) (threadsAll bound) t ss)
      fun ss' t' => holdsInAll (.met t' context.Inherits spot) ss'
  | [], t, context, underway, _, _ => .pure ⟨.refl underway.intact, ⟨rfl, trivial⟩, fun _ _ => rfl⟩ trivial
  | s :: ss, t, context, underway, writable, ⟨fresh, others⟩ => by
    apply (bindStmt_goes underway writable fresh).bind
    rintro s' t₁ ⟨binds₁, dressed, threadsHere⟩
    apply (bindStmts_goes (underway.mono binds₁) writable others).bind
    rintro ss' t₂ ⟨binds₂, dressedRest, threadsRest⟩
    refine .pure ⟨binds₁.trans binds₂, ⟨by simp only [bareStmts, dressed.same, dressedRest.same], dressed.all,
      dressedRest.all⟩, fun later persists => ⟨_, ?_, threadsRest later persists⟩⟩
      fun rest here => ⟨here.mono binds₂.checks, rest⟩
    exact threadsHere later (binds₂.persists.trans persists)

theorem bindBlock_goes : ∀ {block : Block} {t : Table} {context : Context}, Underway bound start spot t context →
    context.Writable start → block.Holds (.fresh bound True) → Goes (Plain bound) t (bindBlock context block)
      (Becomes start bound Block.bare (Block.Holds (.nodes Expr.Unset)) (Block.Threads bound) t block)
      fun block' t' => block'.Holds (.met t' context.Inherits spot)
  | ⟨stmts, _, span⟩, t, context, underway, writable, ⟨_, fresh⟩ => by
    apply (createScope_goes underway.intact underway.valid.inside).seq
    rintro _ _ ⟨rfl, rfl, _⟩
    apply (bindStmts_goes underway.nested (.inr underway.binds.scopes) fresh).bind
    rintro stmts' t₂ ⟨binds, dressed, threads⟩
    refine .pure ⟨.trans (.createScope underway.intact underway.valid.inside) binds,
      ⟨by simp only [Block.bare, dressed.same], trivial, dressed.all⟩,
      fun later persists => ⟨?_, threads later persists⟩⟩ fun met => ⟨rfl, met⟩
    rintro _ ⟨⟩
    exact persists.inside (binds.persists.inside underway.nested.valid.inside)

theorem bindElseIf_goes : ∀ {elseIf : ElseIf} {t : Table} {context : Context}, Underway bound start spot t context →
    context.Writable start → elseIf.Holds (.fresh bound True) → Goes (Plain bound) t (bindElseIf context elseIf)
      (Becomes start bound ElseIf.bare (ElseIf.Holds (.nodes Expr.Unset)) (ElseIf.Threads bound) t elseIf)
      fun elseIf' t' => elseIf'.Holds (.met t' context.Inherits spot)
  | ⟨condition, block⟩, t, context, underway, writable, ⟨freshCondition, freshBlock⟩ => by
    apply (bindExpr_answers underway freshCondition).then
    intro condition' done
    apply (bindBlock_goes underway writable freshBlock).bind
    rintro block' t₁ ⟨binds, dressed, threads⟩
    exact .pure ⟨binds, ⟨by simp only [ElseIf.bare, done.same, dressed.same], done.unset.all, dressed.all⟩,
      fun later persists => ⟨done.placed, threads later persists⟩⟩
      fun inside met => ⟨binds.met met, inside⟩

theorem bindElseIfs_goes : ∀ {es : List ElseIf} {t : Table} {context : Context}, Underway bound start spot t context →
    context.Writable start → holdsInElseIfs (.fresh bound True) es → Goes (Plain bound) t (bindElseIfs context es)
      (Becomes start bound bareElseIfs (holdsInElseIfs (.nodes Expr.Unset)) (threadsElseIfs bound) t es)
      fun es' t' => holdsInElseIfs (.met t' context.Inherits spot) es'
  | [], t, context, underway, _, _ => .pure ⟨.refl underway.intact, ⟨rfl, trivial⟩, fun _ _ => rfl⟩ trivial
  | e :: es, t, context, underway, writable, ⟨fresh, others⟩ => by
    apply (bindElseIf_goes underway writable fresh).bind
    rintro e' t₁ ⟨binds₁, dressed, threadsHere⟩
    apply (bindElseIfs_goes (underway.mono binds₁) writable others).bind
    rintro es' t₂ ⟨binds₂, dressedRest, threadsRest⟩
    refine .pure ⟨binds₁.trans binds₂, ⟨by simp only [bareElseIfs, dressed.same, dressedRest.same], dressed.all,
      dressedRest.all⟩, fun later persists => ⟨_, ?_, threadsRest later persists⟩⟩
      fun rest here => ⟨here.mono binds₂.checks, rest⟩
    exact threadsHere later (binds₂.persists.trans persists)

theorem bindOtherwise_goes : ∀ {otherwise : Option Block} {t : Table} {context : Context},
    Underway bound start spot t context → context.Writable start →
    holdsInOtherwise (.fresh bound True) otherwise → Goes (Plain bound) t (bindOtherwise context otherwise)
      (Becomes start bound bareOtherwise (holdsInOtherwise (.nodes Expr.Unset)) (threadsOtherwise bound) t otherwise)
      fun otherwise' t' => holdsInOtherwise (.met t' context.Inherits spot) otherwise'
  | none, t, context, underway, _, _ => .pure ⟨.refl underway.intact, ⟨rfl, trivial⟩, fun _ _ => rfl⟩ trivial
  | some block, t, context, underway, writable, fresh => by
    apply (bindBlock_goes underway writable fresh).bind
    rintro block' t₁ ⟨binds, dressed, threads⟩
    exact .pure ⟨binds, ⟨by simp only [bareOtherwise, dressed.same], dressed.all⟩, threads⟩ fun met => met

end

end Quasicode.Binding
