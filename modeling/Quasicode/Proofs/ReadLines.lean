import Quasicode.Proofs.NodeSpans
import Quasicode.Proofs.ReadSteps

/-!
Reading types, expressions and the statements of a single line. Each function of the grammar asks for a number of steps
beyond those for the tokens ahead: one more than the functions that it calls before it has taken a token. None of these
numbers reaches the factor of `Parse.budget`, so every token that is taken pays for all the calls up to the next one.
What is read has empty slots and places within the source, and its expressions stand where they were read.
-/
namespace Quasicode

/-- From the first place to the second. -/
theorem Span.Next.merge {length : Nat} {last a b : Span} (first : last.Next length a) (second : a.Next length b) :
    last.Next length (a.merge b) ∧ (a.merge b).stop = b.stop := by
  obtain ⟨_, _, _⟩ := first
  obtain ⟨_, _, _⟩ := second
  rw [Span.merge_stop]
  refine ⟨⟨?_, ?_, ?_⟩, by omega⟩
  · rw [Span.merge_start]
    omega
  · rw [Span.merge_start, Span.merge_stop]
    omega
  · rw [Span.merge_stop]
    omega

theorem Span.Next.le {length : Nat} {last span : Span} (next : last.Next length span) : last.stop ≤ span.stop :=
  next.after.trans (Nat.le_of_lt next.forward)

namespace Parse

variable {κ : Known} {s : State} {n fuel hi : Nat} {type : TypeName} {start last mid next token : Span} {e left : Expr}

/-- A node as it is read: its slots are empty, and it covers more than its parts. -/
structure Known.Neat (κ : Known) (e : Expr) : Prop where
  fresh : e.Fresh κ.bound κ.plain
  tidy : e.Tidy κ.length

/-- The expression is as it is read between two places. -/
abbrev Known.Reads (κ : Known) (last next : Span) (e : Expr) : Prop := e.Between κ.Neat last.stop next.stop

/-- The type is as it is read between two places. -/
structure Known.ReadsType (κ : Known) (last next : Span) (type : TypeName) : Prop where
  fit : type.Fit κ.bound κ.plain
  place : last.Next κ.length type.span
  stop : type.span.stop = next.stop

/-! ## Types -/

theorem plainType_visible (here : s.plainType? = some type) : s.kind.Visible := by
  constructor
  · intro ended
    simp [State.plainType?, ended] at here
  · intro ended
    simp [State.plainType?, ended] at here

theorem plainType_span (here : s.plainType? = some type) : type.span = s.current.span := by
  unfold State.plainType? at here
  split at here
  · cases here; rfl
  · cases here; rfl
  · cases here; rfl
  · cases here; rfl
  · split at here
    · cases here; rfl
    split at here
    · cases here; rfl
    · cases here
  · cases here

theorem plainType_fit (ready : Ready κ last s) (here : s.plainType? = some type) : type.Fit κ.bound κ.plain := by
  have within := ready.current
  unfold State.plainType? at here
  split at here
  · cases here
    exact within
  · cases here
    exact within
  · cases here
    exact within
  · cases here
    exact within
  next name kind =>
    have isName := ready.named.current kind
    split at here
    · cases here
      exact ⟨⟨isName, trivial⟩, within⟩
    split at here
    next param =>
      cases here
      refine ⟨⟨isName, fun holds => ?_⟩, within⟩
      unfold State.isTemplateParam at param
      cases held : s.owner with
      | none => simp [held] at param
      | some owner => simp [held, ready.owner holds owner held] at param
    · cases here
  · cases here

theorem State.advance_kind (more : s.kind ≠ .eof) : s.advance.kind = s.second.kind := by
  obtain ⟨rest, ahead⟩ := State.ahead_of_kind more
  unfold State.kind State.current State.second State.advance
  rw [ahead]
  cases rest <;> rfl

theorem arraySuffixes_reads (begins : κ.fit → κ.Next last start) : ∀ fuel {n here type}, 32 * n + 1 ≤ fuel →
    (κ.fit → κ.ReadsType last here type ∧ start.stop ≤ here.stop) →
    Reads κ here n 0 (arraySuffixes fuel start type) (κ.ReadsType last)
  | 0, _, _, _, enough, _ => by omega
  | fuel + 1, n, here, type, enough, reads => by
    intro s ready le
    unfold arraySuffixes
    refine .get ?_
    split
    next both =>
      simp only [Bool.and_eq_true, beq_iff_eq] at both
      obtain ⟨opening, closing⟩ := both
      have more : s.kind ≠ .eof := by simp [opening]
      rw [← State.advance_kind more] at closing
      have shorter := State.advance_shorter more
      have taken : Went κ here s s.current.span s.advance := .taken more
      have step : Outcome κ here 1 (fun next _ => start.Next κ.length next) s (.ok PUnit.unit, s.advance.advance) := by
        refine .ok (taken.trans (.taken (by simp [closing]))) ?_ fun holds => ?_
        · rw [State.advance_ahead s.advance, List.length_tail]
          omega
        · obtain ⟨⟨_, _, _⟩, _⟩ := (ready holds).follows opening
          obtain ⟨⟨_, forward, inside⟩, _⟩ := (taken.ready holds (ready holds)).2.follows closing
          have := (reads holds).2
          exact ⟨by omega, forward, inside⟩
      refine step.bind ready fun _ k next _ further => .spanFrom (fun holds => (begins holds).within)
        fun span within place => ?_
      refine arraySuffixes_reads begins fuel (by omega) fun holds => ?_
      have further := further holds
      have merged := (begins holds).toNext.merge further
      obtain ⟨_, _, _⟩ := further
      rw [← place holds (by omega)] at merged
      exact ⟨⟨⟨(reads holds).1.fit, within holds⟩, merged.1, merged.2⟩, by omega⟩
    · exact Reads.pure (fun holds => (reads holds).1) s ready le

mutual

theorem typeName_at : ∀ fuel arrays {s last}, κ.Holds last s → 32 * s.ahead.length + 1 ≤ fuel →
    At κ last 0 s (typeName? fuel arrays) fun next read => ∀ type, read = some type → κ.ReadsType last next type ∧
      (arrays = false → (∀ named, s.plainType? = some named → named.IsClass) → type.IsClass)
  | 0, _, _, _, _, enough => by omega
  | fuel + 1, arrays, s, last, ready, enough => by
    have start (holds : κ.fit) := (ready holds).current
    have whole {k : Nat} {here : Span} {type : TypeName} (fewer : k + 1 ≤ s.ahead.length)
        (begins : κ.fit → κ.Next last s.current.span)
        (reads : κ.fit → κ.ReadsType last here type ∧ s.current.span.stop ≤ here.stop)
        (isClass : (∀ named, s.plainType? = some named → named.IsClass) → type.IsClass) :
        Reads κ here k 0 (if arrays then return some (← arraySuffixes fuel s.current.span type) else return some type)
          fun next read =>
          ∀ type, read = some type → κ.ReadsType last next type ∧
            (arrays = false → (∀ named, s.plainType? = some named → named.IsClass) → type.IsClass) := by
      split
      next suffixed =>
        refine (arraySuffixes_reads begins fuel (by omega) reads).bind fun read _ _ _ reads => .pure fun holds => ?_
        rintro _ ⟨⟩
        exact ⟨reads holds, fun plain => by simp [plain] at suffixed⟩
      · refine .pure fun holds => ?_
        rintro _ ⟨⟩
        exact ⟨(reads holds).1, fun _ => isClass⟩
    unfold typeName?
    refine .get ?_
    split
    · exact Reads.pure (by simp) s ready le_rfl
    next named here =>
      have fit (holds : κ.fit) := plainType_fit (ready holds) here
      have visible := plainType_visible here
      refine (advances rfl ready).bind ready fun _ k mid fewer taken => ?_
      have begins (holds : κ.fit) : κ.Next last s.current.span := (taken holds).1 ▸ (taken holds).2.2
      intro s₁ ready₁ le₁
      refine .get ?_
      simp only
      split
      next opens =>
        have opening : s₁.kind = .sign .lt := by
          simp only [State.opensTemplate, Bool.and_eq_true, beq_iff_eq] at opens
          exact opens.1
        refine (advances opening ready₁).bind ready₁ fun _ k₁ _ _ opened => ?_
        split
        next name _ span =>
          refine (typeArguments_reads fuel (by omega)).bind fun arguments k₂ _ _ written => ?_
          refine .bind .expect fun _ k₃ _ _ closed => .spanFrom start fun span within place => ?_
          refine whole (by omega) begins (fun holds => ?_) fun _ => ⟨name, arguments, span, rfl⟩
          obtain ⟨same, _⟩ := taken holds
          obtain ⟨_, _, ⟨_, _, _⟩, _⟩ := opened holds
          obtain ⟨written, _⟩ := written holds
          obtain ⟨_, ⟨_, forward, inside⟩, _⟩ := closed holds
          have merged := (begins holds).toNext.merge ⟨by rw [same]; omega, forward, inside⟩
          rw [← place holds (by omega)] at merged
          exact ⟨⟨⟨⟨(fit holds).1.1, written⟩, within holds⟩, merged.1, merged.2⟩, by rw [same]; omega⟩
        · exact .stops
      · refine whole fewer begins (fun holds => ?_) (fun isClass => isClass named here) s₁ ready₁ le₁
        have place : named.span = mid := (plainType_span here).trans (taken holds).1
        exact ⟨⟨fit holds, place ▸ (taken holds).2.2.toNext, by rw [place]⟩, by rw [(taken holds).1]⟩

theorem requireType_reads : ∀ fuel {n last}, 32 * n + 2 ≤ fuel → Reads κ last n 0 (requireType fuel) (κ.ReadsType last)
  | 0, _, _, enough => by omega
  | fuel + 1, n, last, enough => by
    intro s ready le
    unfold requireType
    refine (typeName_at fuel true ready (by omega)).bind ready fun read k _ _ reads => ?_
    split
    next type => exact .pure fun holds => (reads holds type rfl).1
    · exact .currentSpan fun _ within => .reject within

theorem typeArguments_reads : ∀ fuel {n last}, 32 * n + 3 ≤ fuel →
    Reads κ last n 0 (typeArguments fuel) fun next types => TypeName.WrittenAll types ∧ last.stop ≤ next.stop
  | 0, _, _, enough => by omega
  | fuel + 1, n, last, enough => by
    unfold typeArguments
    refine (requireType_reads fuel (by omega)).past.bind fun first k _ _ reads => ?_
    refine .accept (fun k₁ _ _ comma => ?_)
      (.pure fun holds => ⟨⟨(reads holds).2.fit.written, trivial⟩, (reads holds).1.stop⟩)
    refine (typeArguments_reads fuel (by omega)).past.bind fun rest _ _ _ written => .pure fun holds => ?_
    obtain ⟨⟨_, _⟩, reads⟩ := reads holds
    obtain ⟨⟨_, _, _⟩, _⟩ := comma holds
    obtain ⟨_, written, _⟩ := written holds
    exact ⟨⟨reads.fit.written, written⟩, by omega⟩

end

/-! ## The places of expressions -/

namespace Known.Reads

theorem within (reads : κ.Reads last next e) : e.span.Within κ.bound := reads.all.here.fresh.info.within

theorem place (reads : κ.Reads last next e) : last.Next κ.length e.span :=
  ⟨reads.after, reads.all.here.tidy.forward, reads.all.here.tidy.within⟩

theorem le (reads : κ.Reads last next e) : last.stop ≤ next.stop :=
  reads.after.trans ((Nat.le_of_lt reads.place.forward).trans reads.before)

theorem fresh (reads : κ.Reads last next e) : e.All (Expr.Fresh κ.bound κ.plain) :=
  reads.all.mono fun _ neat => neat.fresh

/-- A node that starts with a token and ends with its parts. -/
theorem around (first : last.Next κ.length token) (parts : InTurn κ.Neat token.stop hi e.parts)
    (fresh : e.Fresh κ.bound κ.plain)
    (start : e.span.start = token.start) (stop : hi ≤ e.span.stop) (inside : e.span.stop ≤ κ.length)
    (before : e.span.stop ≤ next.stop) :
    κ.Reads last next e := by
  have tidy : e.Tidy κ.length := parts.around (start ▸ first.forward) stop inside
  exact ⟨Expr.all_iff.mpr ⟨⟨fresh, tidy⟩, fun p part => (parts.each p part).all⟩, start ▸ first.after, before⟩

/-- A node without parts. -/
theorem leaf (place : last.Next κ.length e.span) (parts : e.parts = []) (fresh : e.Fresh κ.bound κ.plain)
    (before : e.span.stop ≤ next.stop) : κ.Reads last next e :=
  .around place (parts ▸ .nil le_rfl) fresh rfl le_rfl place.inside before

/-- A node with a token before its part. -/
theorem led {p : Expr} (first : last.Next κ.length token) (part : κ.Reads token next p) (parts : e.parts = [p])
    (fresh : e.Fresh κ.bound κ.plain) (span : e.span = token.merge p.span) : κ.Reads last next e := by
  have ⟨_, stop⟩ := first.merge part.place
  have here : p.Between κ.Neat token.stop p.span.stop := ⟨part.all, part.after, le_rfl⟩
  have after := part.place.after
  have forward := part.place.forward
  have parts : InTurn κ.Neat token.stop p.span.stop e.parts := parts ▸ .single here (by omega)
  refine .around first parts fresh ?_ ?_ ?_ ?_
  · have := first.forward
    rw [span, Span.merge_start]
    omega
  all_goals rw [span, stop]
  · exact part.place.inside
  · exact part.before

/-- A node with its parts between two tokens. -/
theorem closed (first : last.Next κ.length token) (parts : InTurn κ.Neat token.stop mid.stop e.parts)
    (closing : mid.Next κ.length next)
    (fresh : e.Fresh κ.bound κ.plain) (span : e.span = token.merge next) : κ.Reads last next e := by
  obtain ⟨after, forward, inside⟩ := closing
  have le := parts.le
  have ⟨_, stop⟩ := first.merge ⟨le.trans after, forward, inside⟩
  refine .around first parts fresh ?_ ?_ ?_ ?_
  · have := first.forward
    rw [span, Span.merge_start]
    omega
  all_goals rw [span, stop]
  · omega
  · exact inside

/-- A node that goes on after what its first part belongs to. -/
theorem extended {p : Expr} {es : List Expr} {whole final : Span} (first : last.Next κ.length whole)
    (part : p.All κ.Neat) (start : whole.start ≤ p.span.start) (stop : p.span.stop ≤ whole.stop)
    (rest : InTurn κ.Neat whole.stop final.stop es)
    (further : whole.Next κ.length final) (parts : e.parts = p :: es) (fresh : e.Fresh κ.bound κ.plain)
    (span : e.span = whole.merge final) (before : final.stop ≤ next.stop) : κ.Reads last next e := by
  have ⟨place, same⟩ := first.merge further
  have between : p.Between κ.Neat whole.start whole.stop := ⟨part, start, stop⟩
  obtain ⟨after, forward, inside⟩ := further
  have starts : e.span.start = whole.start := by
    have := first.forward
    rw [span, Span.merge_start]
    omega
  rw [← span] at same
  have tidy : e.Tidy κ.length :=
    between.extended part.here.tidy.forward rest parts (by omega) (by omega) (by omega) (by omega)
  refine ⟨Expr.all_iff.mpr ⟨⟨fresh, tidy⟩, ?_⟩, starts ▸ first.after, same ▸ before⟩
  rw [parts]
  exact List.forall_mem_cons.mpr ⟨part, fun q inside => (rest.each q inside).all⟩

end Known.Reads

/-! ## Expressions -/

theorem applyOperator_reads {op : Operator} {right : Expr} {sign : Span} (first : κ.Reads last mid left)
    (between : mid.Next κ.length sign)
    (second : κ.Reads sign next right) : κ.Reads last next (applyOperator op left right) := by
  have before := first.before
  obtain ⟨after, forward, _⟩ := between
  obtain ⟨after', forward', inside⟩ := second.place
  have rest : InTurn κ.Neat left.span.stop right.span.stop [right] :=
    .single ⟨second.all, by omega, le_rfl⟩ (by omega)
  have further : left.span.Next κ.length right.span := ⟨by omega, forward', inside⟩
  have info : NodeInfo.Fresh κ.bound { span := left.span.merge right.span } := ⟨rfl, first.within.merge second.within⟩
  cases op <;>
    exact .extended first.place first.all le_rfl le_rfl rest further rfl info rfl second.before

theorem finishCall_reads {callee : Expr} {arguments : List Expr} {here : Span} (reads : κ.fit → κ.Reads last mid callee)
    (among : κ.fit → InTurn κ.Neat mid.stop here.stop arguments) :
    Reads κ here n 0 (finishCall callee arguments) (κ.Reads last) := by
  refine .bind .expect fun _ _ next _ closing => .spanFrom (fun holds => (reads holds).within)
    fun span within place => ?_
  have info (holds : κ.fit) : NodeInfo.Fresh κ.bound { span } := ⟨rfl, within holds⟩
  have inside (holds : κ.fit) : InTurn κ.Neat callee.span.stop here.stop arguments :=
    (among holds).widen (reads holds).before le_rfl
  have close (holds : κ.fit) : here.Next κ.length next := (closing holds).2.toNext
  have spans (holds : κ.fit) : span = callee.span.merge next := by
    have := (close holds).forward
    exact place holds (by omega)
  split
  · refine .pure fun holds => ?_
    exact .closed (reads holds).place (inside holds) (close holds) ⟨info holds, (reads holds).all.here.fresh.2.1.within,
      rfl⟩ (spans holds)
  next info' object property slot =>
    refine .pure fun holds => ?_
    obtain ⟨neat, part⟩ := (reads holds).all
    obtain ⟨start, stop, _⟩ := neat.tidy.inside object List.mem_cons_self
    obtain ⟨after, forward, length⟩ := close holds
    have among := inside holds
    have le := among.le
    exact .extended (reads holds).place part start stop (among.widen le_rfl (by omega))
      ⟨le.trans after, forward, length⟩ rfl ⟨info holds, neat.fresh.2.1.within, rfl⟩ (spans holds) le_rfl
  · refine .pure fun holds => ?_
    exact .closed (reads holds).place (inside holds) (close holds) ⟨info holds, (reads holds).all.here.fresh.2.1.within,
      rfl⟩ (spans holds)
  · exact .reject fun holds => (reads holds).within

mutual

theorem expr_reads : ∀ fuel {n last}, 32 * n + 6 ≤ fuel → Reads κ last n 0 (expr fuel) (κ.Reads last)
  | 0, _, _, enough => by omega
  | fuel + 1, n, last, enough => by
    rw [expr]
    exact climb_reads fuel 0 (by omega)
termination_by structural fuel => fuel

theorem climb_reads : ∀ fuel least {n last}, 32 * n + 5 ≤ fuel → Reads κ last n 0 (climb fuel least) (κ.Reads last)
  | 0, _, _, _, enough => by omega
  | fuel + 1, least, n, last, enough => by
    rw [climb]
    exact (unary_reads fuel (by omega)).bind fun left k _ _ reads => operators_reads fuel least (by omega) reads
termination_by structural fuel => fuel

theorem operators_reads : ∀ fuel least {n last here left}, 32 * n + 1 ≤ fuel → (κ.fit → κ.Reads last here left) →
    Reads κ here n 0 (operators fuel least left) (κ.Reads last)
  | 0, _, _, _, _, _, enough, _ => by omega
  | fuel + 1, least, n, last, here, left, enough, reads => by
    intro s ready le
    rw [operators]
    refine .currentKind ?_
    split
    next isTest =>
      have tests : s.kind = .keyword .is := by simpa using isTest
      split
      · exact Reads.pure reads s ready le
      refine (advances tests ready).bind ready fun _ k word _ taken => ?_
      refine (requireType_reads fuel (by omega)).bind fun type k₁ next _ typed => operators_reads fuel least
        (by omega) fun holds => ?_
      have reads := reads holds
      have typed := typed holds
      have before := reads.before
      obtain ⟨_, _, ⟨_, _, _⟩, _⟩ := taken holds
      obtain ⟨_, forward, inside⟩ := typed.place
      exact .extended reads.place reads.all le_rfl le_rfl (.nil (by omega)) ⟨by omega, forward, inside⟩ rfl
        ⟨⟨rfl, reads.within.merge typed.fit.within⟩, typed.fit, rfl⟩ rfl (Nat.le_of_eq typed.stop)
    · split
      · exact Reads.pure reads s ready le
      next precedence binds =>
        split
        · exact Reads.pure reads s ready le
        have visible : s.kind.Visible := ⟨fun ended => by simp [ended, TokenKind.binaryPrecedence] at binds,
          fun ended => by simp [ended, TokenKind.binaryPrecedence] at binds⟩
        refine (advances rfl ready).bind ready fun _ k sign _ taken => ?_
        refine (climb_reads fuel _ (by omega)).bind fun right k₁ _ _ second => ?_
        obtain ⟨op, writes⟩ := TokenKind.operator_of_precedence binds
        simp only [writes]
        exact operators_reads fuel least (by omega) fun holds => applyOperator_reads (reads holds)
          (taken holds).2.2.toNext (second holds)
termination_by structural fuel => fuel

theorem unary_reads : ∀ fuel {n last}, 32 * n + 4 ≤ fuel → Reads κ last n 0 (unary fuel) (κ.Reads last)
  | 0, _, _, enough => by omega
  | fuel + 1, n, last, enough => by
    intro s ready le
    have otherwise := writable_reads fuel (by omega) s ready le
    have start (holds : κ.fit) := (ready holds).current
    have operator (op : UnaryOp) {kind : TokenKind} (here : s.kind = kind) [kind.Visible] : At κ last 0 s (do
        let _ ← advance
        let operand ← unary fuel
        return Expr.unary { span := s.current.span.merge operand.span } op operand) (κ.Reads last) := by
      refine (advances here ready).bind ready fun _ k sign _ taken => ?_
      refine (unary_reads fuel (by omega)).bind fun operand _ _ _ reads => .pure fun holds => ?_
      obtain ⟨same, _, follows⟩ := taken holds
      rw [same]
      exact .led follows.toNext (reads holds) rfl ⟨rfl, follows.within.merge (reads holds).within⟩ rfl
    rw [unary]
    refine .get ?_
    extract_lets _
    split
    next here => exact allocation_at fuel ready here (by omega)
    next here => exact operator .neg here
    next here => exact operator .not here
    next here =>
      have more : s.kind ≠ .eof := by simp [here]
      have shorter := State.advance_shorter more
      have taken : Went κ last s s.current.span s.advance := .taken more
      have typed := typeName_at fuel true (fun holds => (taken.ready holds (ready holds)).2) (by omega)
      unfold At at typed
      generalize (typeName? fuel true).run.run s.advance = p at typed ⊢
      obtain ⟨r, after⟩ := p
      obtain ⟨mid, went, good⟩ := typed.went
      cases r with
      | error stop =>
        obtain ⟨d, rfl, _⟩ := typed.stops stop rfl
        exact otherwise
      | ok read =>
        cases read with
        | none => exact otherwise
        | some target =>
          simp only
          split
          next closes =>
            have closing : after.kind = .sign .rightParen := by simpa using closes
            have ahead : after.ahead.length ≤ s.advance.ahead.length := went.suffix.length_le
            have step : Outcome κ last 1 (fun next _ => s.current.span.stop ≤ next.stop) s
                (.ok PUnit.unit, after.advance) := by
              refine .ok ((taken.trans went).trans (.taken (by simp [closing]))) ?_ fun holds => ?_
              · rw [State.advance_ahead, List.length_tail]
                omega
              · obtain ⟨past, ready⟩ := went.ready holds (taken.ready holds (ready holds)).2
                obtain ⟨⟨_, _, _⟩, _⟩ := ready.follows closing
                have := past.stop
                omega
            refine step.bind ready fun _ k _ _ further => ?_
            refine (unary_reads fuel (by omega)).bind fun value _ _ _ reads => .pure fun holds => ?_
            have reads := (reads holds).widen (further holds) le_rfl
            exact .led ((ready holds).follows here).toNext reads rfl
              ⟨⟨rfl, (start holds).merge (Known.Reads.within reads)⟩, (good _ rfl holds target rfl).1.fit⟩ rfl
          · exact otherwise
    · exact otherwise
termination_by structural fuel => fuel

theorem writable_reads : ∀ fuel {n last}, 32 * n + 3 ≤ fuel → Reads κ last n 0 (writable fuel) (κ.Reads last)
  | 0, _, _, enough => by omega
  | fuel + 1, n, last, enough => by
    rw [writable]
    exact (primary_reads fuel (by omega)).bind fun operand k _ _ reads => suffixes_reads fuel (by omega) reads
termination_by structural fuel => fuel

theorem suffixes_reads : ∀ fuel {n last here operand}, 32 * n + 1 ≤ fuel → (κ.fit → κ.Reads last here operand) →
    Reads κ here n 0 (suffixes fuel operand) (κ.Reads last)
  | 0, _, _, _, _, enough, _ => by omega
  | fuel + 1, n, last, here, operand, enough, reads => by
    rw [suffixes]
    refine .accept (fun k _ _ opening => ?_)
      (.accept (fun k _ _ opening => ?_) (.accept (fun k _ _ opening => ?_) (.pure reads)))
    · refine (arguments_reads fuel (by omega)).bind fun args k₁ _ _ among => ?_
      have widened (holds : κ.fit) := (among holds).widen (opening holds).le le_rfl
      exact (finishCall_reads reads widened).bind fun call k₂ _ _ readsCall => suffixes_reads fuel (by omega) readsCall
    · refine Reads.expectIdent.bind fun property k₁ _ _ named => suffixes_reads fuel (by omega) fun holds => ?_
      have reads := reads holds
      obtain ⟨fit, rfl, ⟨_, forward, inside⟩, _⟩ := named holds
      have := (opening holds).after
      have := (opening holds).forward
      have := reads.before
      exact .extended reads.place reads.all le_rfl le_rfl (.nil (by omega)) ⟨by omega, forward, inside⟩ rfl
        ⟨⟨rfl, reads.within.merge fit.within⟩, fit, rfl⟩ rfl le_rfl
    · refine (expr_reads fuel (by omega)).bind fun index k₁ _ _ readsIndex => ?_
      refine .bind .expect fun _ k₂ _ _ closing => .spanFrom (fun holds => (reads holds).within)
        fun span within place => ?_
      refine suffixes_reads fuel (by omega) fun holds => ?_
      have reads := reads holds
      have index := readsIndex holds
      have := (opening holds).after
      have := (opening holds).forward
      have := reads.before
      have := index.le
      obtain ⟨_, ⟨_, forward, inside⟩, _⟩ := closing holds
      exact .extended reads.place reads.all le_rfl le_rfl (.single (index.widen (by omega) (by omega)) (by omega))
        ⟨by omega, forward, inside⟩ rfl ⟨rfl, within holds⟩ (place holds (by omega)) le_rfl
termination_by structural fuel => fuel

theorem arguments_reads : ∀ fuel {n last}, 32 * n + 8 ≤ fuel →
    Reads κ last n 0 (arguments fuel) fun next es => InTurn κ.Neat last.stop next.stop es
  | 0, _, _, enough => by omega
  | fuel + 1, n, last, enough => by
    rw [arguments]
    refine .atKind fun here => ?_
    split
    · exact .pure fun _ => .nil le_rfl
    · exact exprs_reads fuel (by omega)
termination_by structural fuel => fuel

theorem exprs_reads : ∀ fuel {n last}, 32 * n + 7 ≤ fuel →
    Reads κ last n 0 (exprs fuel) fun next es => InTurn κ.Neat last.stop next.stop es
  | 0, _, _, enough => by omega
  | fuel + 1, n, last, enough => by
    rw [exprs]
    refine (expr_reads fuel (by omega)).bind fun first k _ _ reads => ?_
    refine .accept (fun k₁ _ _ comma => ?_) (.pure fun holds => .single (reads holds) (reads holds).le)
    refine (exprs_reads fuel (by omega)).bind fun rest _ _ _ among => .pure fun holds => ?_
    exact .cons (reads holds) ((among holds).widen (comma holds).le le_rfl) (reads holds).le
termination_by structural fuel => fuel

theorem allocation_at : ∀ fuel {s last}, κ.Holds last s → s.kind = .keyword .new → 32 * s.ahead.length + 3 ≤ fuel →
    At κ last 0 s (allocation fuel) (κ.Reads last)
  | 0, _, _, _, _, enough => by omega
  | fuel + 1, s, last, ready, here, enough => by
    rw [allocation]
    refine (advances here ready).bind ready fun token k word _ taken => .currentSpan fun base baseWithin => ?_
    have start (holds : κ.fit) : token.span.Within κ.bound := (taken holds).2.1 ▸ (taken holds).2.2.within
    intro s₁ ready₁ le₁
    refine ((typeName_at fuel false ready₁ (by omega)).past ready₁).bind ready₁ fun read k₁ _ _ typed => ?_
    split
    · exact .reject baseWithin
    next type =>
      refine .atKind fun opens => ?_
      split
      · have reads (holds : κ.fit) := ((typed holds).2 type rfl).1
        refine (capacities_reads baseWithin fuel (by omega) fun holds => ⟨(reads holds).fit, ?_⟩).past.bind
          fun read _ next _ good => ?_
        · rw [← (reads holds).stop]
          exact (reads holds).place.inside
        refine .spanFrom start fun span within place => .pure fun holds => ?_
        obtain ⟨_, same, first⟩ := taken holds
        obtain ⟨⟨further, _⟩, fit, sizes, inside⟩ := good holds
        have past := (typed holds).1
        have forward := first.forward
        have wide := sizes.widen past.stop le_rfl
        have le := wide.le
        have whole : span = word.merge next := same ▸ place holds (by omega)
        have stop : span.stop = next.stop := by
          rw [whole, Span.merge_stop]
          omega
        refine .around first.toNext wide ⟨⟨rfl, within holds⟩, fit⟩ ?_ (Nat.le_of_eq stop.symm)
          (stop ▸ inside) (Nat.le_of_eq stop)
        have := past.start
        show span.start = word.start
        rw [whole, Span.merge_start]
        omega
      refine .accept (fun k₂ _ _ opening => ?_) (.currentSpan fun _ within => .reject within)
      simp only [if_true]
      split
      next name arguments span =>
        refine (arguments_reads fuel (by omega)).bind fun args k₃ _ _ among => ?_
        refine .bind .expect fun _ k₄ _ _ closing => .spanFrom start fun span within place => .pure fun holds => ?_
        obtain ⟨_, same, first⟩ := taken holds
        obtain ⟨past, typed⟩ := typed holds
        have closing := (closing holds).2.toNext
        have := closing.forward
        have wide := (among holds).widen (past.stop.trans (opening holds).le) le_rfl
        exact .closed first.toNext wide closing ⟨⟨rfl, within holds⟩, (typed _ rfl).1.fit, ⟨_, _, _, rfl⟩, rfl⟩
          (same ▸ place holds (by omega))
      · exact .reject baseWithin
termination_by structural fuel => fuel

theorem capacities_reads {base : Span} (within : κ.fit → base.Within κ.bound) :
    ∀ fuel {n last type}, 32 * n + 1 ≤ fuel →
    (κ.fit → type.Fit κ.bound κ.plain ∧ last.stop ≤ κ.length) → Reads κ last n 0 (capacities fuel base type)
    fun next read =>
      read.1.Fit κ.bound κ.plain ∧ InTurn κ.Neat last.stop next.stop read.2 ∧ next.stop ≤ κ.length
  | 0, _, _, _, enough, _ => by omega
  | fuel + 1, n, last, type, enough, fit => by
    rw [capacities]
    refine .accept (fun k _ _ opening => ?_) (.pure fun holds => ⟨(fit holds).1, .nil le_rfl, (fit holds).2⟩)
    refine (expr_reads fuel (by omega)).bind fun size k₁ _ _ reads => ?_
    refine .bind .expect fun _ k₂ _ _ closing => .spanFrom within fun span spanWithin _ => ?_
    have fit (holds : κ.fit) : (TypeName.array type span).Fit κ.bound κ.plain := ⟨(fit holds).1, spanWithin holds⟩
    refine (capacities_reads within fuel (by omega) fun holds => ⟨fit holds, (closing holds).2.inside⟩).bind
      fun read _ _ _ good => ?_
    refine .pure fun holds => ⟨(good holds).1, ?_, (good holds).2.2⟩
    have first := (reads holds).widen (opening holds).le (closing holds).2.le
    have := (reads holds).le
    have := (opening holds).le
    have := (closing holds).2.le
    exact .cons first (good holds).2.1 (by omega)
termination_by structural fuel => fuel

theorem primary_reads : ∀ fuel {n last}, 32 * n + 2 ≤ fuel → Reads κ last n 0 (primary fuel) (κ.Reads last)
  | 0, _, _, enough => by omega
  | fuel + 1, n, last, enough => by
    intro s ready le
    have start (holds : κ.fit) := (ready holds).current
    have first {kind : TokenKind} [kind.Visible] (here : s.kind = kind) := advances here ready
    rw [primary]
    refine .get ?_
    extract_lets _
    split
    next isLiteral =>
      have visible : s.kind.Visible :=
        ⟨fun ended => by simp [ended, literal?] at isLiteral, fun ended => by simp [ended, literal?] at isLiteral⟩
      refine (first rfl).bind ready fun _ _ _ _ taken => .pure fun holds => ?_
      obtain ⟨rfl, _, follows⟩ := taken holds
      exact .leaf follows.toNext rfl ⟨rfl, start holds⟩ le_rfl
    split
    next here =>
      refine (first here).bind ready fun _ _ _ _ taken => .pure fun holds => ?_
      obtain ⟨rfl, _, follows⟩ := taken holds
      exact .leaf follows.toNext rfl ⟨⟨rfl, start holds⟩, rfl⟩ le_rfl
    next name here =>
      split
      next isClassName =>
        have startsClass : ∀ named, s.plainType? = some named → named.IsClass := by
          intro named plain
          simp only [State.plainType?, here, isClassName, if_true] at plain
          cases plain
          exact ⟨_, _, _, rfl⟩
        refine (typeName_at fuel false ready (by omega)).bind ready fun read k _ _ typed => ?_
        split
        · exact .reject start
        next type =>
          refine .bind .expect fun _ _ _ _ dot => Reads.expectIdent.bind
            fun property _ _ _ named => .pure fun holds => ?_
          obtain ⟨typed, isClass⟩ := typed holds type rfl
          obtain ⟨fit, rfl, ⟨_, forward, inside⟩, _⟩ := named holds
          have := (dot holds).2.le
          have := typed.stop
          have owner : κ.Reads last type.span (.classRef { span := type.span } type none) :=
            .leaf typed.place rfl ⟨⟨rfl, typed.fit.within⟩, typed.fit, isClass rfl startsClass, rfl⟩ le_rfl
          exact .extended typed.place owner.all le_rfl le_rfl (.nil (by omega)) ⟨by omega, forward, inside⟩ rfl
            ⟨⟨rfl, typed.fit.within.merge fit.within⟩, fit, rfl⟩ rfl le_rfl
      · refine (first here).bind ready fun _ _ _ _ taken => .pure fun holds => ?_
        obtain ⟨rfl, _, follows⟩ := taken holds
        exact .leaf follows.toNext rfl ⟨⟨rfl, start holds⟩, ⟨(ready holds).named.current here, start holds⟩, rfl⟩ le_rfl
    next here =>
      refine (first here).bind ready fun _ k brace _ taken => ?_
      have literal {mid next span : Span} {values : List Expr} (holds : κ.fit)
          (among : InTurn κ.Neat brace.stop mid.stop values)
          (closing : mid.Next κ.length next) (within : span.Within κ.bound) (place : 0 < next.stop →
          span = s.current.span.merge next) :
          κ.Reads last next (.arrayLiteral { span } values) := by
        obtain ⟨rfl, _, follows⟩ := taken holds
        have := closing.forward
        exact .closed follows.toNext among closing ⟨rfl, within⟩ (place (by omega))
      refine .accept (fun _ _ _ closing => .spanFrom start fun span within place => .pure fun holds => ?_) ?_
      · exact literal holds (.nil le_rfl) (closing holds).toNext (within holds) (place holds)
      refine (exprs_reads fuel (by omega)).bind fun values _ _ _ among => .bind .expect fun _ _ _ _ closing => ?_
      refine .spanFrom start fun span within place => .pure fun holds => ?_
      exact literal holds (among holds) (closing holds).2.toNext (within holds) (place holds)
    next here =>
      refine (first here).bind ready fun _ k _ _ taken => .accept (fun _ _ _ dot => ?_)
        (.accept (fun k₁ _ _ opening => ?_) .rejects)
      · refine Reads.expectIdent.bind fun property _ _ _ named => .pure fun holds => ?_
        obtain ⟨rfl, _, follows⟩ := taken holds
        obtain ⟨fit, rfl, closing⟩ := named holds
        exact .closed follows.toNext (.nil (dot holds).le) closing.toNext
          ⟨⟨rfl, (start holds).merge fit.within⟩, fit, rfl, rfl⟩ rfl
      · refine (arguments_reads fuel (by omega)).bind fun args _ _ _ among => .bind .expect fun _ _ _ _ closing => ?_
        refine .spanFrom start fun span within place => .pure fun holds => ?_
        obtain ⟨rfl, _, follows⟩ := taken holds
        have closing := (closing holds).2.toNext
        have := closing.forward
        exact .closed follows.toNext ((among holds).widen (opening holds).le le_rfl) closing
          ⟨⟨rfl, within holds⟩, start holds, rfl⟩ (place holds (by omega))
    next here =>
      refine (first here).bind ready fun _ k _ _ taken => ?_
      refine (expr_reads fuel (by omega)).bind fun inner _ _ _ reads => .bind .expect fun _ _ _ _ closing => ?_
      split
      · refine .pure fun holds => ?_
        exact (reads holds).widen (taken holds).2.2.le (closing holds).2.le
      · refine .spanFrom start fun span within place => .pure fun holds => ?_
        obtain ⟨rfl, _, follows⟩ := taken holds
        have closing := (closing holds).2.toNext
        have := closing.forward
        exact .closed follows.toNext (.single (reads holds) (reads holds).le) closing ⟨rfl, within holds⟩
          (place holds (by omega))
    · exact Reads.reject start s ready le
termination_by structural fuel => fuel

end

/-! ## Statements of a single line -/

/-- What statements are like as they are read: no counter has the name of a class. -/
def Known.checks (κ : Known) : Checks :=
  { Checks.fresh κ.bound κ.plain with
    counter := fun name slot => (name.Fit κ.bound ∧ slot = none) ∧ name.name ∉ κ.classNames }

/-- Expressions as they are read between two places. -/
abbrev Known.Spreads (κ : Known) (last next : Span) (es : List Expr) : Prop :=
  Scattered (Expr.Tidy κ.length) last.stop next.stop es

theorem Known.Reads.tidy (reads : κ.Reads last next e) : e.Between (Expr.Tidy κ.length) last.stop next.stop :=
  reads.imp fun _ neat => neat.tidy

theorem Known.Reads.alone (reads : κ.Reads last next e) : κ.Spreads last next [e] := .single reads.tidy reads.le

theorem spreads_of_inTurn {es : List Expr} (among : InTurn κ.Neat last.stop next.stop es) : κ.Spreads last next es :=
  (among.imp fun _ neat => neat.tidy).scattered

/-- An assignment as it is read between two places. -/
structure Known.ReadsAssignment (κ : Known) (last next : Span) (a : Assignment) : Prop where
  fresh : a.Fresh κ.bound κ.plain
  spreads : κ.Spreads last next a.exprs

/-- A statement as it is read between two places. -/
structure Known.ReadsStmt (κ : Known) (last next : Span) (stmt : Stmt) : Prop where
  holds : stmt.Holds κ.checks
  spreads : κ.Spreads last next stmt.exprs

theorem chain_reads : ∀ fuel {n last here value}, 32 * n + 1 ≤ fuel → (κ.fit → κ.Reads last here value) →
    Reads κ here n 0 (chain fuel value) fun next read => InTurn κ.Neat last.stop next.stop (read.1 ++ [read.2])
  | 0, _, _, _, _, enough, _ => by omega
  | fuel + 1, n, last, here, value, enough, reads => by
    unfold chain
    refine .accept (fun k _ _ sign => ?_) (.pure fun holds => .single (reads holds) (reads holds).le)
    refine (expr_reads fuel (by omega)).bind fun following k₁ _ _ readsNext => ?_
    refine (chain_reads fuel (by omega) readsNext).bind fun read _ _ _ among => .pure fun holds => ?_
    exact .cons (reads holds) ((among holds).widen (sign holds).le le_rfl) (reads holds).le

theorem toAssignee_reads {here : Span} {typeName : Option TypeName} (reads : κ.Reads last mid left)
    (le : mid.stop ≤ here.stop) (typed : ∀ type, typeName = some type → κ.ReadsType mid here type) :
      (toAssignee typeName left).FreshTarget κ.bound κ.plain ∧
      (toAssignee typeName left).Between (Expr.Tidy κ.length) last.stop here.stop := by
  unfold toAssignee
  split
  next info name slot =>
    obtain ⟨infoFresh, named, _⟩ := reads.all.here.fresh
    have place : last.Next κ.length info.span := reads.place
    have before : info.span.stop ≤ mid.stop := reads.before
    cases typeName with
    | none =>
      refine ⟨⟨⟨rfl, infoFresh.within⟩, named, by simp, rfl, rfl⟩, ?_, place.after, before.trans le⟩
      exact ⟨place.forward, place.inside, by simp [Expr.parts], by simp [Expr.parts]⟩
    | some type =>
      have typed := typed type rfl
      obtain ⟨after, forward, inside⟩ := typed.place
      obtain ⟨place, stop⟩ := place.merge ⟨before.trans after, forward, inside⟩
      refine ⟨⟨⟨rfl, infoFresh.within.merge typed.fit.within⟩, named, ?_, rfl, rfl⟩, ?_, place.after,
        Nat.le_of_eq (stop.trans typed.stop)⟩
      · rintro _ ⟨⟩
        exact typed.fit
      · exact ⟨place.forward, place.inside, by simp [Expr.parts], by simp [Expr.parts]⟩
  next other notVar =>
    refine ⟨?_, (reads.widen le_rfl le).imp fun _ neat => neat.tidy⟩
    unfold Expr.FreshTarget
    split
    · exact reads.all.here.fresh.elim
    · exact Known.Reads.fresh reads

theorem assignment_reads (enough : 32 * n ≤ fuel) (reads : κ.fit → κ.Reads last mid left) :
    Reads κ mid n 0 (assignment fuel left) (κ.ReadsAssignment last) := by
  have rest {k : Nat} {here : Span} (le : k ≤ n) (typeName : Option TypeName)
      (typed : κ.fit → mid.stop ≤ here.stop ∧ ∀ type, typeName = some type → κ.ReadsType mid here type) :
      Reads κ here k 0 (do
        let _ ← expect (.sign .eq) .equalsSign
        let first ← expr fuel
        let read ← chain fuel first
        let left := toAssignee typeName left
        return ({ left, chained := read.1, value := read.2, span := left.span.merge read.2.span } : Assignment))
          (κ.ReadsAssignment last) := by
    refine .bind .expect fun _ k₁ _ _ sign => (expr_reads fuel (by omega)).bind fun first k₂ _ _ readsFirst => ?_
    refine (chain_reads fuel (by omega) readsFirst).bind fun read _ next _ among => .pure fun holds => ?_
    obtain ⟨le, typed⟩ := typed holds
    obtain ⟨fresh, between⟩ := toAssignee_reads (reads holds) le typed
    have values := (among holds).widen (sign holds).2.le le_rfl
    have freshAll (e : Expr) (inside : e ∈ read.1 ++ [read.2]) : e.All (Expr.Fresh κ.bound κ.plain) :=
      Known.Reads.fresh ((among holds).each e inside)
    exact ⟨⟨fresh, fun e inside => freshAll e (by simp [inside]), freshAll read.2 (by simp)⟩,
      (InTurn.cons between (values.imp fun _ neat => neat.tidy) ((reads holds).le.trans le)).scattered⟩
  unfold assignment
  refine .accept (fun k colon _ after => ?_) (rest le_rfl none fun _ => ⟨le_rfl, by simp⟩)
  refine .get fun s ready _ => (requireType_reads fuel (by omega)).past.bind fun type k₁ here _ typed => ?_
  have typed (holds : κ.fit) : mid.stop ≤ here.stop ∧ ∀ other, some type = some other → κ.ReadsType mid here other := by
    obtain ⟨past, typed⟩ := typed holds
    have le := (after holds).le
    refine ⟨le.trans past.stop, ?_⟩
    rintro _ ⟨⟩
    exact ⟨typed.fit, ⟨le.trans typed.place.after, typed.place.forward, typed.place.inside⟩, typed.stop⟩
  split
  · exact .report (fun holds => (ready holds).previous) (rest (by omega) (some type) typed)
  · exact rest (by omega) (some type) typed

theorem moreAssignments_reads :
    ∀ fuel {n last}, 32 * n + 1 ≤ fuel → Reads κ last n 0 (moreAssignments fuel) fun next parts =>
    (∀ a ∈ parts, a.Fresh κ.bound κ.plain) ∧ κ.Spreads last next (parts.flatMap Assignment.exprs)
  | 0, _, _, enough => by omega
  | fuel + 1, n, last, enough => by
    unfold moreAssignments
    refine .accept (fun k _ _ comma => ?_) (.pure fun _ => ⟨by simp, .nil le_rfl⟩)
    refine (writable_reads fuel (by omega)).bind fun left k₁ _ _ reads => ?_
    refine (assignment_reads (by omega) reads).bind fun part k₂ _ _ first => ?_
    refine (moreAssignments_reads fuel (by omega)).bind fun parts _ _ _ rest => .pure fun holds => ?_
    refine ⟨List.forall_mem_cons.mpr ⟨(first holds).fresh, (rest holds).1⟩, ?_⟩
    exact ((first holds).spreads.widen (comma holds).le le_rfl).append le_rfl (rest holds).2

theorem exprOrAssignment_reads (enough : 32 * n + 6 ≤ fuel) :
    Reads κ last n 1 (exprOrAssignment fuel) (κ.ReadsStmt last) := by
  unfold exprOrAssignment
  refine (expr_reads fuel enough).bind fun value k _ _ reads => .currentKind fun kind => ?_
  split
  · refine (assignment_reads (by omega) reads).bind fun part k₁ _ _ first => .atKind fun comma => ?_
    split
    · refine (moreAssignments_reads fuel (by omega)).bind fun parts _ _ _ rest => ?_
      refine .spanFrom (fun holds => (reads holds).within) fun span _ _ => .line (by decide) fun next holds le => ?_
      exact ⟨List.forall_mem_cons.mpr ⟨(first holds).fresh, (rest holds).1⟩,
        ((first holds).spreads.append le_rfl (rest holds).2).widen le_rfl le⟩
    · exact .line (by decide) fun next holds le => ⟨(first holds).fresh, (first holds).spreads.widen le_rfl le⟩
  · exact .line (by decide) fun next holds le => ⟨(reads holds).fresh, (reads holds).alone.widen le_rfl le⟩

theorem targets_reads : ∀ fuel {n last}, 32 * n + 4 ≤ fuel →
    Reads κ last n 0 (targets fuel) fun next es => InTurn κ.Neat last.stop next.stop es
  | 0, _, _, enough => by omega
  | fuel + 1, n, last, enough => by
    unfold targets
    refine (writable_reads fuel (by omega)).bind fun first k _ _ reads => ?_
    refine .accept (fun k₁ _ _ comma => ?_) (.pure fun holds => .single (reads holds) (reads holds).le)
    refine (targets_reads fuel (by omega)).bind fun rest _ _ _ among => .pure fun holds => ?_
    exact .cons (reads holds) ((among holds).widen (comma holds).le le_rfl) (reads holds).le

theorem simpleStmt_reads (enough : 32 * n + 6 ≤ fuel) : Reads κ last n 1 (simpleStmt fuel) (κ.ReadsStmt last) := by
  intro s ready le
  unfold simpleStmt
  refine .get ?_
  extract_lets token
  have within (holds : κ.fit) : token.span.Within κ.bound := (ready holds).current
  have first {kind : TokenKind} [kind.Visible] (here : token.kind = kind) := advances (s := s) here ready
  -- The statements of a single word.
  have word (stmt : Stmt) (good : κ.fit → stmt.Holds κ.checks) (empty : stmt.exprs = []) : At κ last 1 s (do
      let _ ← advance
      expectEol (.jump token.lexeme)
      return stmt) (κ.ReadsStmt last) := by
    refine (Reads.advance.bind fun _ _ _ _ taken => .line (by decide) fun next holds le => ?_) s ready le
    exact ⟨good holds, empty ▸ .nil ((taken holds).2.trans le)⟩
  -- The statements of a word with expressions after it.
  have values (stmt : List Expr → Span → Stmt) {ending : LineEnding} {k : Nat} {here mid : Span} (es : List Expr)
      (after : κ.fit → κ.Next last mid)
      (among : κ.fit → InTurn κ.Neat mid.stop here.stop es) (exprs : ∀ span, (stmt es span).exprs = es)
      (good : ∀ span, (∀ e ∈ es, e.All (Expr.Fresh κ.bound κ.plain)) → (stmt es span).Holds κ.checks) :
      Reads κ here k 0 (do
        let span ← spanFrom token.span
        expectEol ending
        return stmt es span) (κ.ReadsStmt last) := by
    refine .spanFrom within fun span _ _ => .line (by decide) fun next holds le => ?_
    have among := (among holds).widen (after holds).le le
    refine ⟨good span fun e inside => (among.each e inside).all.mono fun _ neat => neat.fresh, ?_⟩
    rw [exprs]
    exact spreads_of_inTurn among
  split
  next here =>
    refine (first here).bind ready fun _ k _ _ taken => (exprs_reads fuel (by omega)).bind fun es _ _ _ among => ?_
    exact values .output es (fun holds => (taken holds).2.2) among (fun _ => rfl) fun _ fresh => fresh
  next here =>
    refine (first here).bind ready fun _ k _ _ taken => (targets_reads fuel (by omega)).bind fun es _ _ _ among => ?_
    exact values .input es (fun holds => (taken holds).2.2) among (fun _ => rfl) fun _ fresh => fresh
  next here =>
    have rest (k : Nat) (here : Span) (value : Option Expr)
      (fresh : κ.fit → InTurn κ.Neat last.stop here.stop value.toList) : Reads κ here k 0 (do
        let span ← spanFrom token.span
        expectEol .returnStatement
        return Stmt.ret value span) (κ.ReadsStmt last) := by
      refine .spanFrom within fun span spanWithin _ => .line (by decide) fun next holds le => ?_
      have among := (fresh holds).widen le_rfl le
      refine ⟨⟨fun e isValue => (among.each e ?_).all.mono fun _ neat => neat.fresh, spanWithin holds⟩,
        spreads_of_inTurn among⟩
      simp [isValue]
    refine (first here).bind ready fun _ k _ _ taken => .atKind fun ends => ?_
    have le (holds : κ.fit) := (taken holds).2.2.le
    split
    · exact rest k _ none fun holds => .nil (le holds)
    · refine (expr_reads fuel (by omega)).bind fun value k₁ _ _ reads => rest k₁ _ (some value) fun holds => ?_
      exact .single ((reads holds).widen (le holds) le_rfl) ((le holds).trans (reads holds).le)
  · exact word _ within rfl
  · exact word _ within rfl
  · exact word _ (fun _ => trivial) rfl
  · exact exprOrAssignment_reads enough s ready le

end Parse

end Quasicode
