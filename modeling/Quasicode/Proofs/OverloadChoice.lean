import Quasicode.Proofs.TypingSelection

/-!
Which function a call runs. The best candidates are those of the least level that occurs, and of
these count the ones that the class of the first declares. If only one is left it is selected,
and the arguments fit its parameters, as its level promised.
-/
namespace Quasicode

open Analysis

/-! ## Levels -/

namespace Table

variable (t : Table)

/-- The candidates whose level is the least that occurs, in their order. -/
def best (arguments : List Ty) (candidates : List SymbolId) : List SymbolId :=
  match (candidates.filterMap (t.level arguments)).min? with
  | none => []
  | some least => candidates.filter fun id => t.level arguments id = some least

/-- The best candidates that the class of the first one declares, or that are free functions as it is. -/
def bestOwned (arguments : List Ty) (candidates : List SymbolId) : List SymbolId :=
  (t.best arguments candidates).filter fun id => t.owner? id = (t.best arguments candidates).head?.bind t.owner?

end Table

/-- What is passed for an argument: the argument converted to the type of the parameter, or the argument itself where
there is nothing to convert or an error is to blame. -/
def Expr.Passed (param : Ty) (argument passed : Expr) : Prop :=
  passed = argument ∧ (argument.type.isError || param.isError || argument.type == param) = true ∨
    passed = .widen { span := argument.span, type := some { type := param } } argument

namespace Typing

variable {s : AnalysisState} {id : SymbolId}

/-- The ranks that candidates have come back as their levels. -/
theorem ranked_filter (level : SymbolId → Option Nat) (n : Nat) (candidates : List SymbolId) :
    ((candidates.filterMap fun id => (level id).map (id, ·)).filter fun entry => entry.2 = n).map (·.1) =
      candidates.filter fun id => level id = some n := by
  induction candidates with
  | nil => rfl
  | cons id candidates ih =>
    rw [List.filterMap_cons, List.filter_cons]
    cases isLevel : level id with
    | none => simpa using ih
    | some m =>
      by_cases same : m = n
      · simpa [same] using ih
      · simpa [same] using ih

theorem bestRanked_eq (t : Table) (arguments : List Ty) (candidates : List SymbolId) :
    bestRanked (candidates.filterMap fun id => (t.level arguments id).map (id, ·)) = t.best arguments candidates := by
  have levels : (candidates.filterMap fun id => (t.level arguments id).map (id, ·)).map (·.2) =
      candidates.filterMap (t.level arguments) := by
    rw [List.map_filterMap]
    congr 1
    funext id
    cases t.level arguments id <;> rfl
  unfold bestRanked Table.best
  rw [levels]
  cases (candidates.filterMap (t.level arguments)).min? with
  | none => rfl
  | some least => exact ranked_filter (t.level arguments) least candidates

/-! ## Arguments -/

/-- An argument that fits is passed without a report. -/
theorem widenTo_run (leveled : s.table.Leveled) {param : Ty} {argument : Expr}
    (fits : (s.table.fit argument.type param).isSome) :
    ∃ passed, (widenTo param argument).run s = .ok (passed, s) ∧ argument.Passed param passed := by
  unfold Table.fit at fits
  cases apart : argument.type.isError || param.isError || argument.type == param with
  | true =>
    refine ⟨argument, ?_, .inl ⟨rfl, apart⟩⟩
    simp only [widenTo, apart, if_true]
    rfl
  | false =>
    obtain ⟨joined, found⟩ := leveled.joins argument.type param
    simp only [apart, found, Bool.false_eq_true, if_false, widenTo] at fits ⊢
    rw [run_seq (run_join found)]
    cases wider : joined == param with
    | false => simp [wider, Except.toOption] at fits
    | true => exact ⟨_, rfl, .inr rfl⟩

theorem widenArguments_run (leveled : s.table.Leveled) {arguments : List Expr} {params : List Ty}
    {fits : List Nat} (all : ((arguments.map Expr.type).zip params).mapM
    (fun pair => s.table.fit pair.1 pair.2) = some fits)
    (enough : arguments.length ≤ params.length) : ∃ passed, (widenArguments arguments params).run s = .ok (passed, s) ∧
      List.Forall₂ (fun pair => pair.1.Passed pair.2) (arguments.zip params) passed := by
  induction arguments generalizing params fits with
  | nil => exact ⟨[], by cases params <;> rfl, .nil⟩
  | cons argument arguments ih =>
    cases params with
    | nil => simp at enough
    | cons param params =>
      rw [List.map_cons, List.zip_cons_cons, List.mapM_cons] at all
      obtain ⟨rank, here, all⟩ := Option.bind_eq_some_iff.mp all
      obtain ⟨ranks, later, _⟩ := Option.bind_eq_some_iff.mp all
      obtain ⟨first, ran, passed⟩ := widenTo_run leveled (Option.isSome_iff_exists.mpr ⟨rank, here⟩)
      obtain ⟨rest, ran', passedAll⟩ := ih later (by simpa using enough)
      refine ⟨first :: rest, ?_, .cons passed passedAll⟩
      rw [widenArguments, run_seq ran, run_seq ran']
      rfl

theorem reportSelection_run (arguments : List Expr) (cause : Cause) (span : Span) :
    (reportSelection arguments cause span).run s =
    .ok ((), { s with problems := s.problems ++ if arguments.any (·.type.isError) then [] else [⟨cause, span⟩] }) := by
  unfold reportSelection
  cases arguments.any (·.type.isError) with
  | false => rfl
  | true => simp

/-- **Overload selection.** Let classes lie one deeper than their superclasses, and let every
candidate be in the table and have as many parameters as it takes arguments at most. A function is
selected exactly if it is the only one among the best candidates of its class. Then nothing is
reported, and every argument is passed with the type of its parameter or as it is. Otherwise the
arguments are left alone, and one diagnostic is reported, or none if an argument is to blame. -/
theorem overload_selected (candidates : List SymbolId) (arguments : List Expr) (span : Span) (leveled : s.table.Leveled)
    (known : ∀ id ∈ candidates, (s.table.symbol? id).isSome)
    (sized : ∀ id ∈ candidates, ∀ f, (s.table.symbol? id).bind Symbol.function? = some f →
    f.maxArgs = f.params.length) :
    ∃ answer s', (selectOverload candidates arguments span).run s = .ok (answer, s') ∧ s'.table = s.table ∧
      (∀ c, answer.1 = some c ↔ s.table.bestOwned (arguments.map Expr.type) candidates = [c]) ∧
      (∀ c, answer.1 = some c → s'.problems = s.problems ∧ ∃ f, (s.table.symbol? c).bind Symbol.function? = some f ∧
        arguments.length ≤ f.params.length ∧ List.Forall₂ (fun pair => pair.1.Passed pair.2)
        (arguments.zip f.params) answer.2) ∧
      (answer.1 = none → answer.2 = arguments ∧ s'.problems = s.problems ++ if arguments.any (·.type.isError) then []
          else [⟨if s.table.best (arguments.map Expr.type) candidates = [] then .noMatchingFunction
          else .ambiguousCall, span⟩]) := by
  let types := arguments.map Expr.type
  unfold selectOverload
  rw [run_seq (rankCandidates_run leveled types known), bestRanked_eq]
  unfold Table.bestOwned
  have inBest {id : SymbolId} (inside : id ∈ s.table.best types candidates) : id ∈ candidates ∧
      (s.table.level types id).isSome := by
    unfold Table.best at inside
    split at inside
    · cases inside
    · obtain ⟨among, isLevel⟩ := List.mem_filter.mp inside
      exact ⟨among, by simp [of_decide_eq_true isLevel]⟩
  cases best : s.table.best types candidates with
  | nil =>
    refine ⟨(none, arguments), _, run_seq (reportSelection_run arguments .noMatchingFunction span), rfl,
      ?_, ?_, fun _ => ⟨rfl, ?_⟩⟩
    · simp
    · simp
    · simp
  | cons first others =>
    rw [best] at inBest
    have kept := keepOwner_run (s.table.owner? first) fun id inside => known id (inBest inside).1
    obtain ⟨among, ranked⟩ := inBest List.mem_cons_self
    simp only
    rw [run_seq (ownerOf_known (known first among)), run_seq kept]
    have isFirst : (first :: others).filter (fun id => s.table.owner? id = s.table.owner? first) =
        first :: others.filter fun id => s.table.owner? id = s.table.owner? first := by simp
    rw [List.head?_cons, Option.bind_some, isFirst]
    cases rivals : others.filter fun id => s.table.owner? id = s.table.owner? first with
    | cons second more =>
      rw [if_pos (by simp)]
      refine ⟨(none, arguments), _, run_seq (reportSelection_run arguments .ambiguousCall span), rfl,
        ?_, ?_, fun _ => ⟨rfl, ?_⟩⟩
      · simp
      · simp
      · simp
    | nil =>
      obtain ⟨sym, held⟩ := Option.isSome_iff_exists.mp (known first among)
      obtain ⟨n, isLevel⟩ := Option.isSome_iff_exists.mp ranked
      obtain ⟨f, isFunction, isLevel⟩ := Option.bind_eq_some_iff.mp isLevel
      split at isLevel
      next accepts =>
        obtain ⟨fits, fitsAll, _⟩ := Option.map_eq_some_iff.mp isLevel
        have enough : arguments.length ≤ f.params.length := by
          rw [FunctionSymbol.accepts, sized first among f isFunction] at accepts
          simpa [types] using (Bool.and_eq_true_iff.mp accepts).2
        obtain ⟨passed, ran, passes⟩ := widenArguments_run leveled fitsAll enough
        refine ⟨(some first, passed), s, ?_, rfl, ?_, ?_, ?_⟩
        · rw [held, Option.bind_some] at isFunction
          simp only [List.length_singleton, Nat.lt_irrefl, gt_iff_lt, if_false]
          rw [run_seq (run_symbol held), isFunction, Option.map_some, Option.getD_some, run_seq ran]
          rfl
        · simp
        · rintro _ ⟨⟩
          exact ⟨rfl, f, isFunction, enough, passes⟩
        · simp
      next => cases isLevel

/-- A function of one parameter. -/
def unary (place : Nat) (param : Ty) : Symbol where
  id := ⟨place⟩
  name := "f"
  span := .none
  scope := .root
  kind := .function { returns := .void, params := [param], minArgs := 1, maxArgs := 1 }

def seven : Expr := .literal { span := .none, type := some { type := .int } } (.int 7)

/-- Two overloads that an `int` can be widened for. -/
def wideOverloads : AnalysisState where
  table := { scopes := #[], symbols := #[unary 0 .any, unary 1 .double], current := .root, classCount := 0 }

theorem wideOverloads_selected : wideOverloads.table.Leveled ∧
    ∃ answer s', (selectOverload [⟨0⟩, ⟨1⟩] [seven] .none).run wideOverloads = .ok (answer, s') ∧ answer.1 = some ⟨1⟩ ∧
      s'.problems = [] := by
  have leveled : wideOverloads.table.Leveled := by
    refine ⟨fun {id} c n held _ => ?_⟩
    obtain ⟨i⟩ := id
    rcases i with _ | _ | i <;> cases held
  obtain ⟨answer, s', ran, _, selected, quiet, _⟩ :=
    overload_selected (s := wideOverloads) [⟨0⟩, ⟨1⟩] [seven] .none leveled (by decide)
    fun id inside f isFunction => by rcases List.mem_pair.mp inside with rfl | rfl <;> cases isFunction <;> rfl
  have chosen := (selected ⟨1⟩).mpr (by decide)
  exact ⟨leveled, answer, s', ran, chosen, (quiet ⟨1⟩ chosen).1⟩

end Typing

end Quasicode
