import Quasicode.Proofs.ReadLines

/-!
Reading blocks, functions, classes and programs. The entries of a list never fail, whether they are read or rejected, so
a block leaves the blocks around it as they were and a program is read to its end.
-/
namespace Quasicode

/-- No counter has one of the names. -/
def Checks.counters (names : List String) : Checks where
  value _ := True
  assignment _ := True
  returned _ := True
  counter name _ := name.name ∉ names
  scope _ := True
  place _ := True

/-- The statements of an item, one list for each function. -/
def Item.bodies : Item → List (List Stmt)
  | .cls c => c.methods.map (·.function.body)
  | .function f => [f.body]
  | .stmt s => [[s]]

namespace Parse

variable {κ : Known} {s : State} {n fuel : Nat} {start last next : Span}

theorem Known.checks_fresh : κ.checks.Implies (.fresh κ.bound κ.plain) :=
  ⟨fun _ => id, fun _ => id, fun _ => id, fun _ _ => And.left, fun _ => id, fun _ => id⟩

theorem Known.checks_counters : κ.checks.Implies (.counters κ.classNames) :=
  ⟨fun _ _ => trivial, fun _ _ => trivial, fun _ _ => trivial, fun _ _ => And.right,
    fun _ _ => trivial, fun _ _ => trivial⟩

/-! ## Blocks -/

theorem condition_reads (within : κ.fit → start.Within κ.bound) (enough : 32 * n + 6 ≤ fuel) :
    Reads κ last n 2 (condition fuel start) fun next read => κ.Reads last next read.1 := by
  refine (expr_reads fuel enough).bind fun value _ _ _ reads => .bind .expect fun _ _ _ _ word => ?_
  refine .spanFrom within fun span _ _ => .line (by decide) fun next holds le => ?_
  exact (reads holds).widen le_rfl ((word holds).2.le.trans le)

/-- The expressions of the header of a loop. -/
def LoopHeader.exprs : LoopHeader → List Expr
  | .whileTrue condition => [condition]
  | .counting _ first last => [first, last]

/-- The header of a loop as it is read between two places. -/
structure Known.ReadsHeader (κ : Known) (last next : Span) (header : LoopHeader) : Prop where
  among : InTurn κ.Neat last.stop next.stop header.exprs
  counter : ∀ counter first last, header = .counting counter first last → counter.Fit κ.bound ∧
    counter.name ∉ κ.classNames

theorem loopHeader_reads (within : κ.fit → start.Within κ.bound) (enough : 32 * n + 6 ≤ fuel) :
    Reads κ last n 1 (loopHeader fuel start) fun next read => κ.ReadsHeader last next read.1 := by
  intro s ready below
  unfold loopHeader
  refine .get ?_
  extract_lets token
  have first {kind : TokenKind} [kind.Visible] (here : token.kind = kind) := advances (s := s) here ready
  split
  next here =>
    refine (first here).bind ready fun _ _ _ _ taken => (expr_reads fuel (by omega)).bind fun value _ _ _ reads => ?_
    refine .spanFrom within fun span _ _ => .line (by decide) fun next holds le => ⟨?_, by simp⟩
    have wide := (reads holds).widen (taken holds).2.2.le le
    exact .single wide (Known.Reads.le wide)
  next here =>
    refine (first here).bind ready fun _ _ _ _ taken => (expr_reads fuel (by omega)).bind fun value _ _ _ reads => ?_
    refine .spanFrom within fun span _ _ => .line (by decide) fun next holds le => ⟨?_, by simp⟩
    obtain ⟨rfl, _, follows⟩ := taken holds
    have reads := (reads holds).widen le_rfl le
    have negated : κ.Reads last next (.unary { span := token.span.merge value.span } .not value) :=
      .led follows.toNext reads rfl ⟨rfl, follows.within.merge (Known.Reads.within reads)⟩ rfl
    exact .single negated negated.le
  · refine (Reads.expectIdent.bind fun counter k _ _ named => .get fun s₁ ready₁ _ => ?_) s ready below
    split
    · exact .stop fun holds => (named holds).1.within
    next notClass =>
      refine .bind .expect fun _ k₁ _ _ word => (expr_reads fuel (by omega)).bind fun first k₂ _ _ readsFirst => ?_
      refine .bind .expect fun _ k₃ _ _ word₁ => (expr_reads fuel (by omega)).bind fun final _ _ _ readsFinal => ?_
      refine .spanFrom within fun span _ _ => .line (by decide) fun next holds le => ⟨?_, ?_⟩
      · have := (named holds).2.2.le
        have := (word holds).2.le
        have := (readsFirst holds).le
        have wide := (readsFinal holds).widen (word₁ holds).2.le le
        exact .cons ((readsFirst holds).widen (by omega) le_rfl) (.single wide (Known.Reads.le wide)) (by omega)
      · rintro _ _ _ ⟨⟩
        refine ⟨(named holds).1, fun isClass => notClass ?_⟩
        rw [State.isClassName, (ready₁ holds).classNames]
        simpa using isClass

/-- Nothing is read before a statement that may stand where it does. -/
theorem refuseNested_reads {α : Type} {f : Unit → Parse α} {c : Nat} {Q : Span → α → Prop}
    (rest : Reads κ last n c (f ()) Q) :
    Reads κ last n c (refuseNested >>= f) Q := by
  rw [refuseNested, bind_assoc]
  refine .get fun s _ _ => ?_
  split
  · split
    · rw [bind_assoc]
      exact Reads.advance.bind fun _ _ _ _ taken => .stop fun holds => (taken holds).1
    · exact .stops
    · exact rest
  · exact rest

/-- A block as it is read between two places. -/
structure Known.ReadsBlock (κ : Known) (last next : Span) (block : Block) : Prop where
  holds : block.Holds κ.checks
  spreads : κ.Spreads last next block.exprs

/-- The alternatives of a condition as they are read between two places. -/
structure Known.ReadsElse (κ : Known) (last next : Span) (read : List ElseIf × Option Block) : Prop where
  elseIfs : holdsInElseIfs κ.checks read.1
  otherwise : holdsInOtherwise κ.checks read.2
  spreads : κ.Spreads last next (exprsOfElseIfs read.1 ++ exprsOfOtherwise read.2)

mutual

theorem block_reads : ∀ fuel orElse {n last}, 32 * n + 10 ≤ fuel →
    Reads κ last n 0 (block fuel orElse) (κ.ReadsBlock last)
  | 0, _, _, _, enough => by omega
  | fuel + 1, orElse, n, last, enough => by
    rw [block]
    refine .currentSpan fun start within => ?_
    intro s ready le
    let opened : State := { s with nesting := s.nesting + 1, blocksOpened := s.blocksOpened + 1 }
    have nested (holds : κ.fit) : Ready κ last opened := { ready holds with }
    obtain ⟨stmts, s₁, ran, outcome⟩ :=
      blockEntries_tolerant fuel orElse nested (show 32 * s.ahead.length + 9 ≤ fuel by omega)
    obtain ⟨next, went, good⟩ := outcome.went
    -- The entries never fail, so the block is closed again.
    have closed : Went κ last s next { s₁ with nesting := s.nesting } := by
      refine ⟨went.suffix, went.owner, rfl, fun holds _ => ?_⟩
      obtain ⟨past, ready⟩ := went.ready holds (nested holds)
      exact ⟨past, { ready with }⟩
    have rest : (do
        openBlock
        let stmts ← blockEntries fuel orElse
        closeBlock
        return ({ stmts, scope := none, span := ← spanFrom start } : Block) : Parse Block).run.run s =
          (.ok { stmts, scope := none, span := start.merge s₁.previous.span }, { s₁ with nesting := s.nesting }) := by
      have entered (f : List Stmt → Parse Block) : (openBlock >>= fun _ => blockEntries fuel orElse >>= f).run.run s =
          (blockEntries fuel orElse >>= f).run.run opened := rfl
      rw [entered, run_bind, ran]
      exact closeBlock_run went.nesting
    unfold At
    rw [rest]
    exact .ok closed went.suffix.length_le fun holds => ⟨⟨rfl, (good _ rfl holds).1⟩, (good _ rfl holds).2⟩
termination_by structural fuel => fuel

theorem blockEntries_tolerant : ∀ fuel orElse {s last}, κ.Holds last s → 32 * s.ahead.length + 9 ≤ fuel →
    Tolerant κ last 0 s (blockEntries fuel orElse) fun next stmts => holdsInAll κ.checks stmts ∧
    κ.Spreads last next (exprsOfStmts stmts)
  | 0, _, _, _, _, enough => by omega
  | fuel + 1, orElse, s, last, ready, enough => by
    rw [blockEntries]
    refine .get ?_
    extract_lets closes
    split
    · exact .pure fun _ => ⟨trivial, .nil le_rfl⟩
    next notDone =>
      have more : s.kind ≠ .eof := by
        intro ended
        simp [State.atEnd, ended] at notDone
      have first := entry_tolerant more ready (nestedStmt_reads fuel (by omega) s ready le_rfl)
      refine first.bind ready fun read s₁ _ ready₁ shorter entered => ?_
      refine (blockEntries_tolerant fuel orElse ready₁ (by omega)).bind ready₁
        fun rest s₂ _ _ _ reads => .pure fun holds => ?_
      obtain ⟨le, first⟩ := entered holds
      obtain ⟨rest, spreads⟩ := reads holds
      cases read with
      | none => exact ⟨rest, spreads.widen le le_rfl⟩
      | some stmt =>
        have first := first stmt rfl
        exact ⟨⟨first.holds, rest⟩, first.spreads.append le_rfl spreads⟩
termination_by structural fuel => fuel

theorem nestedStmt_reads : ∀ fuel {n last}, 32 * n + 8 ≤ fuel → Reads κ last n 1 (nestedStmt fuel) (κ.ReadsStmt last)
  | 0, _, _, enough => by omega
  | fuel + 1, n, last, enough => by
    rw [nestedStmt]
    exact refuseNested_reads (stmt_reads fuel (by omega))
termination_by structural fuel => fuel

theorem stmt_reads : ∀ fuel {n last}, 32 * n + 7 ≤ fuel → Reads κ last n 1 (stmt fuel) (κ.ReadsStmt last)
  | 0, _, _, enough => by omega
  | fuel + 1, n, last, enough => by
    rw [stmt]
    refine .currentKind fun kind => ?_
    split
    · refine Reads.advance.bind fun word k _ _ taken =>
        (condition_reads (fun holds => (taken holds).1) (by omega)).bind ?_
      rintro ⟨test, span⟩ k₁ _ _ readsTest
      refine (block_reads fuel true (by omega)).bind fun body k₂ _ _ readsBody => ?_
      refine (elseBranches_reads fuel (by omega)).bind ?_
      rintro ⟨elseIfs, otherwise⟩ _ _ _ readsElse
      refine Reads.expectEnd.bind fun _ _ _ _ ended => .line (by decide) fun next holds le => ?_
      refine ⟨⟨(readsTest holds).fresh, (readsBody holds).holds, (readsElse holds).elseIfs,
        (readsElse holds).otherwise⟩, ?_⟩
      have parts := (readsBody holds).spreads.append le_rfl (readsElse holds).spreads
      exact ((readsTest holds).alone.append le_rfl parts).widen (taken holds).2 ((ended holds).2.trans le)
    · refine Reads.advance.bind fun word k _ _ taken =>
        (loopHeader_reads (fun holds => (taken holds).1) (by omega)).bind ?_
      rintro ⟨header, span⟩ k₁ _ _ readsHeader
      refine (block_reads fuel false (by omega)).bind fun body k₂ _ _ readsBody => ?_
      refine Reads.expectEnd.bind fun _ _ _ _ ended => Reads.expectEol.bind fun _ _ next _ le => ?_
      have spreads (holds : κ.fit) : κ.Spreads last next (header.exprs ++ body.exprs) :=
        ((spreads_of_inTurn (readsHeader holds).among).append le_rfl (readsBody holds).spreads).widen (taken holds).2
          ((ended holds).2.trans (le holds))
      have fresh (holds : κ.fit) (e : Expr) (inside : e ∈ header.exprs) :=
        Known.Reads.fresh ((readsHeader holds).among.each e inside)
      cases header with
      | whileTrue test =>
        exact .pure fun holds =>
          ⟨⟨fresh holds test (by simp [LoopHeader.exprs]), (readsBody holds).holds⟩, spreads holds⟩
      | counting counter first final =>
        refine .pure fun holds =>
          ⟨⟨fresh holds first (by simp [LoopHeader.exprs]), fresh holds final (by simp [LoopHeader.exprs]), ?_,
          (readsBody holds).holds⟩, spreads holds⟩
        obtain ⟨named, notClass⟩ := (readsHeader holds).counter counter first final rfl
        exact ⟨⟨named, rfl⟩, notClass⟩
    · exact simpleStmt_reads (by omega)
termination_by structural fuel => fuel

theorem elseBranches_reads :
    ∀ fuel {n last}, 32 * n + 1 ≤ fuel → Reads κ last n 0 (elseBranches fuel) (κ.ReadsElse last)
  | 0, _, _, enough => by omega
  | fuel + 1, n, last, enough => by
    rw [elseBranches]
    refine .accept (fun k _ _ word => .currentSpan fun start within => ?_)
      (.pure fun _ => ⟨trivial, trivial, .nil le_rfl⟩)
    refine .accept (fun k₁ _ _ word₁ => ?_) ?_
    · refine (condition_reads within (by omega)).bind ?_
      rintro ⟨test, span⟩ k₂ _ _ readsTest
      refine (block_reads fuel true (by omega)).bind fun body k₃ _ _ readsBody => ?_
      refine (elseBranches_reads fuel (by omega)).bind ?_
      rintro ⟨elseIfs, otherwise⟩ _ _ _ readsElse
      refine .pure fun holds => ⟨⟨⟨(readsTest holds).fresh, (readsBody holds).holds⟩, (readsElse holds).elseIfs⟩,
        (readsElse holds).otherwise, ?_⟩
      have parts := (readsBody holds).spreads.append le_rfl (readsElse holds).spreads
      have whole := (readsTest holds).alone.append le_rfl parts
      have le := (word holds).le.trans (word₁ holds).le
      simpa [exprsOfElseIfs, ElseIf.exprs] using whole.widen le le_rfl
    · refine Reads.expectEol.bind fun _ k₁ _ _ le => (block_reads fuel true (by omega)).bind
        fun body _ _ _ readsBody => ?_
      refine .pure fun holds => ⟨trivial, (readsBody holds).holds, ?_⟩
      exact (readsBody holds).spreads.widen ((word holds).le.trans (le holds)) le_rfl
termination_by structural fuel => fuel

end

/-! ## Functions and classes -/

/-- An expression that may be left out. -/
theorem optional_reads {read : Option Expr} (reads : last.stop ≤ next.stop ∧ ∀ e, read = some e → ∃ sign : Span,
    last.stop ≤ sign.stop ∧ κ.Reads sign next e) :
    (∀ e, read = some e → e.All (Expr.Fresh κ.bound κ.plain)) ∧ κ.Spreads last next read.toList := by
  obtain ⟨le, reads⟩ := reads
  cases read with
  | none => exact ⟨by simp, .nil le⟩
  | some e =>
    obtain ⟨sign, before, reads⟩ := reads e rfl
    refine ⟨?_, reads.alone.widen before le_rfl⟩
    rintro _ ⟨⟩
    exact reads.fresh

theorem optionalType_fit {read : Option TypeName}
    (reads : last.stop ≤ next.stop ∧ ∀ type, read = some type → ∃ sign : Span,
    last.stop ≤ sign.stop ∧ κ.ReadsType sign next type) : ∀ type, read = some type → type.Fit κ.bound κ.plain := by
  intro type isRead
  obtain ⟨_, _, reads⟩ := reads.2 type isRead
  exact reads.fit

theorem params_reads : ∀ fuel {n last}, 32 * n + 1 ≤ fuel → Reads κ last n 0 (params fuel) fun next ps =>
    (∀ p ∈ ps, p.Fresh κ.bound κ.plain) ∧ κ.Spreads last next (ps.flatMap (·.default.toList))
  | 0, _, _, enough => by omega
  | fuel + 1, n, last, enough => by
    unfold params
    refine Reads.expectIdent.bind fun name k _ _ named => ?_
    refine .optional (fun k₁ _ _ => requireType_reads fuel (by omega)) fun typeName k₁ _ _ typed => ?_
    refine .optional (fun k₂ _ _ => expr_reads fuel (by omega)) fun default k₂ next _ reads => ?_
    have first (holds : κ.fit) : Param.Fresh κ.bound κ.plain { name, typeName, default } :=
      ⟨(named holds).1, optionalType_fit (typed holds), (optional_reads (reads holds)).1, rfl⟩
    have spreads (holds : κ.fit) : κ.Spreads last next default.toList :=
      (optional_reads (reads holds)).2.widen ((named holds).2.2.le.trans (typed holds).1) le_rfl
    refine .accept (fun k₃ _ _ comma => ?_)
      (.pure fun holds => ⟨by simpa using first holds, by simpa using spreads holds⟩)
    refine (params_reads fuel (by omega)).bind fun rest _ _ _ readsRest => .pure fun holds => ?_
    exact ⟨List.forall_mem_cons.mpr ⟨first holds, (readsRest holds).1⟩,
      (spreads holds).append (comma holds).le (readsRest holds).2⟩

/-- A function as it is read between two places. -/
structure Known.ReadsFunction (κ : Known) (last next : Span) (f : Function) : Prop where
  fresh : f.Fresh κ.bound κ.plain
  counters : holdsInAll (.counters κ.classNames) f.body
  spreads : κ.Spreads last next f.exprs

theorem function_reads (enough : 32 * n ≤ fuel) : Reads κ last n 1 (function fuel) (κ.ReadsFunction last) := by
  unfold function
  refine Reads.advance.bind fun word k _ _ taken => Reads.expectIdent.bind fun name k₁ _ _ named => .bind .expect
    fun _ k₂ opening _ opened => ?_
  refine .atKind fun empty => ?_
  extract_lets rest
  have restReads (ps : List Param) {k₃ : Nat} {here : Span} (le : k₃ ≤ k₂)
      (reads : κ.fit → (∀ p ∈ ps, p.Fresh κ.bound κ.plain) ∧
      κ.Spreads opening here (ps.flatMap (·.default.toList))) : Reads κ here k₃ 0 (rest ps) (κ.ReadsFunction last) := by
    refine .bind .expect fun _ k₄ _ _ closed => .optional (fun k₅ _ _ => requireType_reads fuel (by omega))
      fun returns k₅ _ _ typed => ?_
    refine .spanFrom (fun holds => (taken holds).1) fun span _ _ => Reads.expectEol.bind fun _ k₆ _ _ eol => ?_
    refine (block_reads fuel false (by omega)).bind fun body _ _ _ readsBody => Reads.expectEnd.bind
      fun closing _ _ _ ended => ?_
    refine .spanFrom (fun holds => (ended holds).1) fun endSpan endWithin _ => .line (by decide) fun next holds le => ?_
    have readsBody := readsBody holds
    have before : last.stop ≤ opening.stop :=
      (taken holds).2.trans ((named holds).2.2.le.trans (opened holds).2.le)
    have between := (closed holds).2.le.trans ((typed holds).1.trans (eol holds))
    cases body
    exact ⟨⟨(named holds).1, (reads holds).1, optionalType_fit (typed holds),
        holdsInAll_mono Known.checks_fresh readsBody.holds.2,
        endWithin holds, rfl, rfl, rfl⟩, holdsInAll_mono Known.checks_counters readsBody.holds.2,
      ((reads holds).2.append between readsBody.spreads).widen before ((ended holds).2.trans le)⟩
  split
  · exact restReads [] le_rfl fun _ => ⟨by simp, .nil le_rfl⟩
  · exact (params_reads fuel (by omega)).bind fun ps k₃ _ _ reads => restReads ps (by omega) reads

/-- A field as it is read between two places. -/
structure Known.ReadsField (κ : Known) (last next : Span) (f : Field) : Prop where
  fresh : f.Fresh κ.bound κ.plain
  spreads : κ.Spreads last next f.initializer.toList

theorem field_reads {isStatic : Bool} {visibility : Visibility} (enough : 32 * n ≤ fuel) :
    Reads κ last n 1 (field fuel isStatic visibility) (κ.ReadsField last) := by
  unfold field
  refine Reads.expectIdent.bind fun name k _ _ named => .bind .expect fun _ k₁ _ _ colon => ?_
  refine (requireType_reads fuel (by omega)).past.bind fun type k₂ _ _ typed => ?_
  refine .optional (fun k₃ _ _ => expr_reads fuel (by omega)) fun initializer k₃ here _ reads => ?_
  have ending (k : Nat) : Reads κ here k 0 (do
      expectEol .fieldDeclaration
      return ({ name, isStatic, visibility, typeName := type, initializer } : Field)) (κ.ReadsField last) := by
    refine .line (by decide) fun next holds le => ?_
    obtain ⟨fresh, spreads⟩ := optional_reads (reads holds)
    have before := (named holds).2.2.le.trans (colon holds).2.le
    exact ⟨⟨(named holds).1, (typed holds).2.fit, fresh, rfl⟩, spreads.widen (before.trans (typed holds).1.stop) le⟩
  split
  · exact .report (fun holds => (named holds).1.within) (ending k₃)
  · exact ending k₃

/-- The modifiers of a member as they are read. -/
def Modifiers.Fresh (bound : Nat) (found : Modifiers) : Prop := ∀ span, found.staticSpan = some span → span.Within bound

theorem modifiers_reads : ∀ fuel {n last found}, 32 * n + 1 ≤ fuel → (κ.fit → found.Fresh κ.bound) →
    Reads κ last n 0 (modifiers fuel found) fun _ read => read.Fresh κ.bound
  | 0, _, _, _, enough, _ => by omega
  | fuel + 1, n, last, found, enough, fresh => by
    intro s ready le
    unfold modifiers
    refine .get ?_
    extract_lets token visibility
    have within (holds : κ.fit) : token.span.Within κ.bound := (ready holds).current
    have first {kind : TokenKind} [kind.Visible] (here : token.kind = kind) := advances (s := s) here ready
    have visibilityReads (v : Visibility) {kind : TokenKind} [kind.Visible] (here : token.kind = kind) :
        At κ last 0 s (visibility v) fun _ read => read.Fresh κ.bound := by
      refine (first here).bind ready fun _ k _ _ _ => ?_
      split
      · exact .reject within
      · exact modifiers_reads fuel (by omega) fresh
    split
    next here => exact visibilityReads _ here
    next here => exact visibilityReads _ here
    next here =>
      refine (first here).bind ready fun _ k _ _ _ => ?_
      split
      · exact .reject within
      · refine modifiers_reads fuel (by omega) fun holds => ?_
        rintro _ ⟨⟩
        exact within holds
    · exact Reads.pure fresh s ready le

theorem recoveredField_at {isStatic : Bool} {visibility : Visibility} (ready : κ.Holds last s) (more : s.kind ≠ .eof)
    (enough : 32 * s.ahead.length ≤ fuel) :
    At κ last 1 s (recoveredField fuel isStatic visibility) (Entered last (κ.ReadsField last)) := by
  have field : At κ last 1 s (field fuel isStatic visibility) _ := field_reads enough s ready le_rfl
  obtain ⟨read, s₁, ran, outcome⟩ : Tolerant κ last 1 s (recoveredField fuel isStatic visibility) _ :=
    field.rescued ready more fun _ _ => rfl
  unfold At
  rw [ran]
  exact outcome

/-- The members of a class as they are read between two places, where fields may stand between methods. -/
structure Known.ReadsMembers (κ : Known) (last next : Span) (read : List Method × List Field) : Prop where
  methods : ∀ m ∈ read.1, m.Fresh κ.bound κ.plain
  fields : ∀ f ∈ read.2, f.Fresh κ.bound κ.plain
  counters : ∀ m ∈ read.1, holdsInAll (.counters κ.classNames) m.function.body
  spreads : κ.Spreads last next (read.2.flatMap (·.initializer.toList) ++ read.1.flatMap (·.function.exprs))

theorem members_reads : ∀ fuel {n last}, 32 * n + 9 ≤ fuel → Reads κ last n 0 (members fuel) (κ.ReadsMembers last)
  | 0, _, _, enough => by omega
  | fuel + 1, n, last, enough => by
    unfold members
    refine .get fun s _ _ => ?_
    split
    · exact .pure fun _ => ⟨by simp, by simp, by simp, .nil le_rfl⟩
    intro s₁ ready₁ le₁
    refine Reads.accept_at (fun blank => ?_) fun _ => ?_
    · refine (Reads.advances_eol blank ready₁).bind ready₁ fun _ k _ _ further => (members_reads fuel (by omega)).imp
        fun _ _ holds reads => ?_
      exact ⟨reads.methods, reads.fields, reads.counters, reads.spreads.widen (further holds) le_rfl⟩
    refine ((modifiers_reads fuel (by omega) fun _ => by simp [Modifiers.Fresh]).past.bind
      fun found k _ _ modified => ?_) s₁ ready₁ le₁
    intro s₂ ready le
    refine .currentKind ?_
    split
    · refine (function_reads (by omega)).bind (fun f k₁ _ _ readsFunction => ?_) s₂ ready le
      refine (members_reads fuel (by omega)).bind fun read _ _ _ reads => .pure fun holds => ?_
      obtain ⟨past, fresh⟩ := modified holds
      have first := readsFunction holds
      have rest := reads holds
      refine ⟨List.forall_mem_cons.mpr ⟨⟨first.fresh, fresh⟩, rest.methods⟩, rest.fields,
        List.forall_mem_cons.mpr ⟨first.counters, rest.counters⟩, ?_⟩
      refine ((first.spreads.append le_rfl rest.spreads).widen past.stop le_rfl).perm ?_
      exact List.perm_append_comm_assoc _ _ _
    next here =>
      refine (recoveredField_at ready (by simp [here]) (by omega)).bind ready fun field k₁ _ _ readsField => ?_
      refine (members_reads fuel (by omega)).bind fun read _ _ _ reads => .pure fun holds => ?_
      obtain ⟨le, entered⟩ := readsField holds
      have before := (modified holds).1.stop.trans le
      have rest := reads holds
      cases field with
      | none => exact ⟨rest.methods, rest.fields, rest.counters, rest.spreads.widen before le_rfl⟩
      | some f =>
        have first := entered f rfl
        refine ⟨rest.methods, List.forall_mem_cons.mpr ⟨first.fresh, rest.fields⟩, rest.counters, ?_⟩
        have spreads := (first.spreads.append le_rfl rest.spreads).widen (modified holds).1.stop le_rfl
        simpa using spreads
    · exact Reads.rejects s₂ ready le

/-- An item as it is read between two places. -/
structure Known.ReadsItem (κ : Known) (last next : Span) (item : Item) : Prop where
  fresh : item.Fresh κ.bound
  counters : ∀ body ∈ item.bodies, holdsInAll (.counters κ.classNames) body
  spreads : κ.Spreads last next item.exprs

theorem classRest_reads {name : Ident} {params : List Ident} (within : κ.fit → start.Within κ.bound)
    (named : κ.fit → name.Fit κ.bound) (enough : 32 * n + 9 ≤ fuel) :
    Reads { κ with plain := params = [] } last n 1 (classRest fuel start name params)
      fun next c => κ.ReadsItem last next (.cls c) := by
  have rest {k : Nat} {here : Span} (le : k ≤ n) (superclass : Option TypeName) (typed : κ.fit → last.stop ≤ here.stop ∧
      ∀ type, superclass = some type → type.Fit κ.bound (params = [])) : Reads
      { κ with plain := params = [] } here k 1 (do
        let span ← spanFrom start
        expectEol .classSignature
        let read ← members fuel
        let _ ← expectEnd .«class» .classEnd
        expectEol .endClass
        return ({ name, templateParams := params, superclass, methods := read.1, fields := read.2, span } : Class))
          fun next c =>
          κ.ReadsItem last next (.cls c) := by
    refine .spanFrom within fun span _ _ => Reads.expectEol.bind fun _ k₁ _ _ eol =>
      (members_reads fuel (by omega)).bind fun read _ _ _ reads => ?_
    refine Reads.expectEnd.bind fun _ _ _ _ ended => .line (by decide) fun next holds le => ?_
    have reads := reads holds
    refine ⟨⟨named holds, (typed holds).2, reads.methods, reads.fields, rfl, rfl, rfl, rfl⟩, ?_, ?_⟩
    · exact List.forall_mem_map.mpr reads.counters
    · exact reads.spreads.widen ((typed holds).1.trans (eol holds)) ((ended holds).2.trans le)
  unfold classRest
  refine .accept (fun k _ _ word => .get fun s₁ ready₁ _ => ?_) (rest le_rfl none fun _ => ⟨le_rfl, by simp⟩)
  intro s ready le
  refine ((typeName_at fuel false ready (by omega)).past ready).bind ready fun read k₁ _ _ typed => ?_
  split
  next superName arguments span =>
    refine (rest (by omega) (some (.ofClass superName arguments span)) fun holds => ⟨?_, ?_⟩).fewer (by decide)
    · exact (word holds).le.trans (typed holds).1.stop
    · rintro _ ⟨⟩
      exact ((typed holds).2 _ rfl).1.fit
  next other _ => exact .stop fun holds => ((typed holds).2 other rfl).1.fit.within
  · exact .stop fun holds => (ready₁ holds).previous

theorem templateParams_reads :
    ∀ fuel {n last}, 32 * n + 1 ≤ fuel → Reads κ last n 0 (templateParams fuel) fun _ _ => True
  | 0, _, _, enough => by omega
  | fuel + 1, n, last, enough => by
    unfold templateParams
    refine Reads.expectIdent.bind fun first k _ _ _ => .accept (fun k₁ _ _ _ => ?_) (.pure fun _ => trivial)
    exact (templateParams_reads fuel (by omega)).bind fun _ _ _ _ _ => .pure fun _ => trivial

/-! ## Programs -/

theorem cls_reads (enough : 32 * n ≤ fuel) :
    Reads { κ with plain := True } last n 1 (cls fuel) fun next c => κ.ReadsItem last next (.cls c) := by
  unfold cls
  refine Reads.advance.bind fun word k _ _ taken => Reads.expectIdent.bind fun name k₁ _ _ named => ?_
  have inside {k₂ : Nat} {here : Span} (le : k₂ ≤ k₁) (params : List Ident) (before : κ.fit → last.stop ≤ here.stop) :
      Reads { κ with plain := True } here k₂ 0
        (inClass ⟨name.name, params.map (·.name)⟩ (classRest fuel word.span name params))
        fun next c => κ.ReadsItem last next (.cls c) := by
    have reads : Reads { κ with plain := params = [] } here k₂ 0 (classRest fuel word.span name params) _ :=
      (classRest_reads (fun holds => (taken holds).1) (fun holds => (named holds).1) (by omega)).fewer (by decide)
    refine .inClass (fun none => by simp [none]) (reads.imp fun _ _ holds reads => ?_)
    exact ⟨reads.fresh, reads.counters, reads.spreads.widen (before holds) le_rfl⟩
  have before (holds : κ.fit) := (taken holds).2.trans (named holds).2.2.le
  refine .accept (fun k₂ _ _ opening => ?_) (inside le_rfl [] before)
  refine (templateParams_reads fuel (by omega)).past.bind fun params k₃ _ _ past => .bind .expect
    fun _ k₄ _ _ closing => ?_
  refine inside (by omega) params fun holds => ?_
  exact Nat.le_trans (before holds) (Nat.le_trans (opening holds).le
    ((past holds).1.stop.trans (closing holds).2.le))

theorem item_reads (enough : 32 * n + 7 ≤ fuel) :
    Reads { κ with plain := True } last n 1 (item fuel) (κ.ReadsItem last) := by
  refine refuseNested_reads (.currentKind fun kind => ?_)
  split
  · exact (cls_reads (by omega)).bind fun c _ _ _ reads => .pure reads
  · refine (function_reads (by omega)).bind fun f _ _ _ reads => .pure fun holds => ?_
    exact ⟨(reads holds).fresh, by simpa [Item.bodies] using (reads holds).counters, (reads holds).spreads⟩
  · refine (stmt_reads fuel (by omega)).bind fun stmt _ _ _ reads => .pure fun holds => ?_
    refine ⟨(reads holds).holds.mono Known.checks_fresh, ?_, (reads holds).spreads⟩
    simpa [Item.bodies, holdsInAll] using (reads holds).holds.mono Known.checks_counters

/-- A program is read to the end of the file. -/
theorem items_tolerant : ∀ fuel {s last}, Known.Holds { κ with plain := True } last s → 32 * s.ahead.length + 8 ≤ fuel →
    Tolerant { κ with plain := True } last 0 s (items fuel) fun next read =>
      (∀ item ∈ read, item.Fresh κ.bound ∧ ∀ body ∈ item.bodies, holdsInAll (.counters κ.classNames) body) ∧
        κ.Spreads last next (read.flatMap Item.exprs)
  | 0, _, _, _, enough => by omega
  | fuel + 1, s, last, ready, enough => by
    unfold items
    refine .get ?_
    split
    · exact .pure fun _ => ⟨by simp, .nil le_rfl⟩
    next notDone =>
      have more : s.kind ≠ .eof := by
        intro ended
        simp [State.atEnd, ended] at notDone
      refine (entry_tolerant more ready (item_reads (by omega) s ready le_rfl)).bind ready
        fun read s₁ _ ready₁ shorter entered => ?_
      refine (items_tolerant fuel ready₁ (by omega)).bind ready₁ fun rest s₂ _ _ _ reads => .pure fun holds => ?_
      obtain ⟨le, first⟩ := entered holds
      obtain ⟨each, spreads⟩ := reads holds
      cases read with
      | none => exact ⟨each, spreads.widen le le_rfl⟩
      | some item =>
        have first := first item rfl
        exact ⟨List.forall_mem_cons.mpr ⟨⟨first.fresh, first.counters⟩, each⟩, first.spreads.append le_rfl spreads⟩

end Parse

/-- **Reading ends.** A list of tokens that closes with the end of the file is read to its end within the budget. If the
tokens before it stand one after the other, the program has empty slots and, like everything rejected on the way, places
within the source; no counter has the name of a class, and the expressions stand apart. -/
theorem parse_fresh {tokens : List Token} {bound length : Nat} (builtins : List String)
    (named : ∀ token ∈ tokens, ∀ name, token.kind = .ident name → IsName name)
    (within : ∀ token ∈ tokens, token.span.Within bound)
    (closed : ∃ front last, tokens = front ++ [last] ∧ last.kind = .eof ∧ Parse.Spread length ⟨0, 0, 0⟩ front) :
    ∃ parsed, parse tokens builtins = .ok parsed ∧ (∀ item ∈ parsed.program.items, item.Fresh bound ∧
        ∀ body ∈ item.bodies, holdsInAll (.counters (builtins ++ Parse.declaredClasses tokens)) body) ∧
      (∃ stop, Scattered (Expr.Tidy length) 0 stop (parsed.program.items.flatMap Item.exprs)) ∧
      ∀ d ∈ parsed.problems, d.span.Within bound := by
  obtain ⟨front, last, rfl, ended, spread⟩ := closed
  obtain ⟨first, head, inside⟩ : ∃ first, (front ++ [last]).head? = some first ∧ first ∈ front ++ [last] := by
    cases front with
    | nil => exact ⟨last, rfl, by simp⟩
    | cons first rest => exact ⟨first, rfl, by simp⟩
  let start : Parse.State := {
    previous := first
    ahead := front
    finish := last.span
    classNames := builtins ++ Parse.declaredClasses (front ++ [last]) }
  have begun : Parse.start? (front ++ [last]) builtins = some start := by
    simp [Parse.start?, head, ended, start]
  let κ : Parse.Known := ⟨True, bound, length, start.classNames, True⟩
  have ready : Parse.Ready κ ⟨0, 0, 0⟩ start := by
    refine ⟨?_, ?_, within first inside, within last (by simp), by simp [start], by simp [start], rfl, spread, by simp⟩
    · exact fun token ahead => named token (by simp [show token ∈ front from ahead])
    · exact fun token ahead => within token (by simp [show token ∈ front from ahead])
  have enough : 32 * start.ahead.length + 8 ≤ Parse.budget (front ++ [last]).length := by
    simp only [Parse.budget, List.length_append, List.length_singleton, start]
    omega
  obtain ⟨items, s, ran, outcome⟩ := Parse.items_tolerant (κ := κ) _ (fun _ => ready) enough
  obtain ⟨next, went, good⟩ := outcome.went
  obtain ⟨each, spreads⟩ := good items rfl trivial
  refine ⟨⟨⟨items⟩, s.problems⟩, ?_, each, ⟨next.stop, spreads⟩, (went.ready trivial ready).2.problems⟩
  rw [parse, begun]
  simp only [ran]

end Quasicode
