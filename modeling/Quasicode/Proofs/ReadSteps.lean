import Mathlib.Order.Nat
import Quasicode.Proofs.FreshProgram
import Quasicode.Proofs.ReadProgram

/-!
Steps of reading. A step that can take as many steps as the tokens ahead ask for does not stop for want of them: it
succeeds, or it rejects what it reads at a place within the source. In either case it takes no token back, and leaves
the classes and blocks around it as they were. What is read from tokens that are in place is in place too.
-/
namespace Quasicode

/-- The kind of a token that ends neither a line nor the file. -/
class TokenKind.Visible (kind : TokenKind) : Prop where
  inner : kind ≠ .eof
  inLine : kind ≠ .eol

instance {word : Keyword} : (TokenKind.keyword word).Visible := ⟨nofun, nofun⟩

instance {sign : Sign} : (TokenKind.sign sign).Visible := ⟨nofun, nofun⟩

instance {name : String} : (TokenKind.ident name).Visible := ⟨nofun, nofun⟩

/-- The second place comes after the first, and it covers some of a text of this length. -/
structure Span.Next (length : Nat) (last span : Span) : Prop where
  after : last.stop ≤ span.start
  forward : span.start < span.stop
  inside : span.stop ≤ length

/-- The second place neither starts nor ends before the first. -/
structure Span.Past (last next : Span) : Prop where
  start : last.start ≤ next.start
  stop : last.stop ≤ next.stop

theorem Span.Past.trans {a b c : Span} (first : a.Past b) (second : b.Past c) : a.Past c :=
  ⟨first.start.trans second.start, first.stop.trans second.stop⟩

namespace Parse

variable {α β : Type}

/-- The tokens stand one after the other behind the place `last`, and all but the ends of lines
cover some of a text of this length. -/
def Spread (length : Nat) : Span → List Token → Prop
  | _, [] => True
  | last, token :: tokens =>
    last.Past token.span ∧ (token.kind ≠ .eol → last.Next length token.span) ∧ Spread length token.span tokens

/-- What is known of the tokens: the rest only if they are `fit`. If `plain` holds, no template
parameter can be named. -/
structure Known where
  fit : Prop
  bound : Nat
  length : Nat
  classNames : List String
  plain : Prop

/-- A token that is not the end of a line stands behind the place `last`. -/
structure Known.Next (κ : Known) (last span : Span) : Prop extends Span.Next κ.length last span where
  within : span.Within κ.bound

/-- Reading can go on behind the place `last`: what lies ahead is in place. -/
structure Ready (κ : Known) (last : Span) (s : State) : Prop where
  named : Named s
  places : ∀ token ∈ s.ahead, token.span.Within κ.bound
  previous : s.previous.span.Within κ.bound
  finish : s.finish.Within κ.bound
  problems : ∀ d ∈ s.problems, d.span.Within κ.bound
  owner : κ.plain → ∀ owner, s.owner = some owner → owner.params = []
  classNames : s.classNames = κ.classNames
  spread : Spread κ.length last s.ahead
  behind : 0 < last.stop → s.previous.span = last

/-- What is known if reading can go on from `s`. -/
abbrev Known.Holds (κ : Known) (last : Span) (s : State) : Prop := κ.fit → Ready κ last s

/-- Reading has come from `s` to `s₁`, and behind the place `next`. -/
structure Went (κ : Known) (last : Span) (s : State) (next : Span) (s₁ : State) : Prop where
  suffix : s₁.ahead <:+ s.ahead
  owner : s₁.owner = s.owner ∨ s₁.owner = none
  nesting : s₁.nesting = s.nesting
  ready : κ.fit → Ready κ last s → last.Past next ∧ Ready κ next s₁

/-- What a step that takes `count` tokens at least comes to. -/
structure Outcome (κ : Known) (last : Span) (count : Nat) (Q : Span → α → Prop) (s : State)
    (p : Except Stop α × State) : Prop where
  counts : ∀ a, p.1 = .ok a → p.2.ahead.length + count ≤ s.ahead.length
  went : ∃ next, Went κ last s next p.2 ∧ ∀ a, p.1 = .ok a → κ.fit → Q next a
  stops : ∀ stop, p.1 = .error stop → ∃ d, stop = .rejected d ∧ (κ.fit → d.span.Within κ.bound)

/-- The step from a given state. -/
abbrev At (κ : Known) (last : Span) (count : Nat) (s : State) (x : Parse α) (Q : Span → α → Prop) : Prop :=
  Outcome κ last count Q s (x.run.run s)

/-- The step from every state with `n` tokens ahead at most. -/
def Reads (κ : Known) (last : Span) (n count : Nat) (x : Parse α) (Q : Span → α → Prop) : Prop :=
  ∀ s, κ.Holds last s → s.ahead.length ≤ n → At κ last count s x Q

variable {κ : Known} {s s₁ s₂ : State} {last next next₁ : Span} {n c c₁ : Nat} {x : Parse α} {Q R : Span → α → Prop}

/-! ## Tokens -/

namespace State

theorem ahead_of_kind (here : s.kind ≠ .eof) : ∃ rest, s.ahead = s.current :: rest := by
  unfold State.kind State.current at here
  unfold State.current
  split at here
  · exact absurd rfl here
  next token rest ahead => exact ⟨rest, by rw [ahead]⟩

theorem advance_ahead (s : State) : s.advance.ahead = s.ahead.tail := by
  unfold State.advance
  split <;> simp [*]

theorem advance_shorter (here : s.kind ≠ .eof) : s.advance.ahead.length + 1 ≤ s.ahead.length := by
  obtain ⟨rest, ahead⟩ := ahead_of_kind here
  simp [State.advance, ahead]

end State

theorem Ready.current (ready : Ready κ last s) : s.current.span.Within κ.bound := by
  unfold State.current
  split
  · exact ready.finish
  next token rest ahead => exact ready.places token (by simp [ahead])

/-- The tokens behind one of them. -/
theorem Spread.behind {length : Nat} {token : Token} {rest tokens : List Token} (spread : Spread length last tokens)
    (suffix : token :: rest <:+ tokens) : last.Past token.span ∧ Spread length token.span rest := by
  induction tokens generalizing last with
  | nil => simp at suffix
  | cons first tokens ih =>
    rcases List.suffix_cons_iff.mp suffix with same | suffix
    · cases same
      exact ⟨spread.1, spread.2.2⟩
    · obtain ⟨further, behind⟩ := ih spread.2.2 suffix
      exact ⟨spread.1.trans further, behind⟩

namespace Went

theorem refl (s : State) : Went κ last s last s :=
  ⟨List.suffix_rfl, .inl rfl, rfl, fun _ ready => ⟨⟨le_rfl, le_rfl⟩, ready⟩⟩

theorem trans (first : Went κ last s next s₁) (second : Went κ next s₁ next₁ s₂) : Went κ last s next₁ s₂ := by
  refine ⟨second.suffix.trans first.suffix, ?_, second.nesting.trans first.nesting, fun fit ready => ?_⟩
  · rcases second.owner with same | none
    · rw [same]
      exact first.owner
    · exact .inr none
  · obtain ⟨past, ready⟩ := first.ready fit ready
    obtain ⟨further, ready⟩ := second.ready fit ready
    exact ⟨past.trans further, ready⟩

/-- Tokens were taken, at least one of them, and nothing else has changed. -/
theorem past (behind : s₁.previous :: s₁.ahead <:+ s.ahead)
    (rest : s₁ = { s with previous := s₁.previous, ahead := s₁.ahead }) :
    Went κ last s s₁.previous.span s₁ := by
  have suffix : s₁.ahead <:+ s.ahead := (List.suffix_cons _ _).trans behind
  refine ⟨suffix, .inl (by rw [rest]), by rw [rest], fun _ ready => ?_⟩
  obtain ⟨further, spread⟩ := ready.spread.behind behind
  refine ⟨further, fun token inside => ready.named token (suffix.subset inside),
    fun token inside => ready.places token (suffix.subset inside),
    ready.places _ (behind.subset List.mem_cons_self), ?_, ?_, ?_, ?_, spread, fun _ => rfl⟩
  all_goals rw [rest]
  · exact ready.finish
  · exact ready.problems
  · exact ready.owner
  · exact ready.classNames

/-- Tokens were taken and nothing else has changed. -/
theorem onward (behind : s₁.previous :: s₁.ahead <:+ s.previous :: s.ahead)
    (rest : s₁ = { s with previous := s₁.previous, ahead := s₁.ahead }) : ∃ next, Went κ last s next s₁ := by
  rcases List.suffix_cons_iff.mp behind with same | suffix
  · have unmoved : s₁ = s := by rw [rest, (List.cons.inj same).1, (List.cons.inj same).2]
    subst unmoved
    exact ⟨last, .refl _⟩
  · exact ⟨_, .past suffix rest⟩

theorem taken (more : s.kind ≠ .eof) : Went κ last s s.current.span s.advance := by
  obtain ⟨rest, ahead⟩ := State.ahead_of_kind more
  have advanced : s.advance = { s with previous := s.current, ahead := rest } := by
    unfold State.advance
    rw [ahead]
  rw [advanced]
  exact @past κ s { s with previous := s.current, ahead := rest } last (ahead ▸ List.suffix_rfl) rfl

theorem advance (s : State) : ∃ next, Went κ last s next s.advance := by
  unfold State.advance
  split
  · exact ⟨last, .refl s⟩
  next token rest ahead =>
    exact ⟨token.span, @past κ s { s with previous := token, ahead := rest } last (ahead ▸ List.suffix_rfl) rfl⟩

theorem report {d : Diagnostic} (within : κ.fit → d.span.Within κ.bound) : Went κ last s last (s.report d) := by
  refine ⟨List.suffix_rfl, .inl rfl, rfl, fun fit ready => ⟨⟨le_rfl, le_rfl⟩, { ready with problems := ?_ }⟩⟩
  exact List.forall_mem_append.mpr ⟨ready.problems, by simpa using within fit⟩

end Went

/-! ## Rules -/

theorem run_bind (x : Parse α) (f : α → Parse β) (s : State) :
    (x >>= f).run.run s = match x.run.run s with
      | (.ok a, s₁) => (f a).run.run s₁
      | (.error stop, s₁) => (.error stop, s₁) := by
  have unfolded : (x >>= f).run.run s = (ExceptT.bindCont f (x.run.run s).1).run (x.run.run s).2 := rfl
  rw [unfolded]
  cases x.run.run s with
  | mk r s₁ => cases r <;> rfl

namespace Outcome

variable {p : Except Stop α × State}

theorem ok {a : α} (went : Went κ last s next s₁) (counts : s₁.ahead.length + c ≤ s.ahead.length)
    (good : κ.fit → Q next a) :
    Outcome κ last c Q s (.ok a, s₁) := by
  refine ⟨fun _ _ => counts, ⟨next, went, ?_⟩, ?_⟩
  · rintro _ ⟨⟩
    exact good
  · rintro _ ⟨⟩

theorem rejected {d : Diagnostic} (within : κ.fit → d.span.Within κ.bound) :
    Outcome κ last c Q s (.error (.rejected d), s) := by
  refine ⟨?_, ⟨last, .refl s, ?_⟩, ?_⟩
  · rintro _ ⟨⟩
  · rintro _ ⟨⟩
  · rintro _ ⟨⟩
    exact ⟨d, rfl, within⟩

theorem fewer (outcome : Outcome κ last c₁ Q s p) (le : c ≤ c₁) : Outcome κ last c Q s p :=
  ⟨fun a isOk => (Nat.add_le_add_left le _).trans (outcome.counts a isOk), outcome.went, outcome.stops⟩

theorem imp (outcome : Outcome κ last c Q s p) (implies : ∀ next a, κ.fit → Q next a → R next a) :
    Outcome κ last c R s p := by
  obtain ⟨next, went, good⟩ := outcome.went
  exact ⟨outcome.counts, ⟨next, went, fun a isOk fit => implies next a fit (good a isOk fit)⟩, outcome.stops⟩

theorem past (outcome : Outcome κ last c Q s p) (ready : κ.Holds last s) :
    Outcome κ last c (fun next a => last.Past next ∧ Q next a) s p := by
  obtain ⟨next, went, good⟩ := outcome.went
  exact ⟨outcome.counts, ⟨next, went, fun a isOk fit => ⟨(went.ready fit (ready fit)).1, good a isOk fit⟩⟩,
    outcome.stops⟩

theorem bind {x : Parse β} {f : β → Parse α} {S : Span → β → Prop} (first : At κ last c₁ s x S) (ready : κ.Holds last s)
    (rest : ∀ a k next, k + c₁ ≤ s.ahead.length → (κ.fit → S next a) → Reads κ next k (c - c₁) (f a) Q) :
    At κ last c s (x >>= f) Q := by
  unfold At at first ⊢
  rw [run_bind]
  generalize x.run.run s = p at first ⊢
  obtain ⟨r, s₁⟩ := p
  obtain ⟨next, went, good⟩ := first.went
  cases r with
  | error stop =>
    refine ⟨?_, ⟨next, went, ?_⟩, ?_⟩
    · rintro _ ⟨⟩
    · rintro _ ⟨⟩
    · rintro _ ⟨⟩
      exact first.stops stop rfl
  | ok a =>
    have counts : s₁.ahead.length + c₁ ≤ s.ahead.length := first.counts a rfl
    have follows := rest a s₁.ahead.length next counts (good a rfl) s₁
      (fun fit => (went.ready fit (ready fit)).2) le_rfl
    obtain ⟨next₁, went₁, good₁⟩ := follows.went
    refine ⟨fun b isOk => ?_, ⟨next₁, went.trans went₁, good₁⟩, follows.stops⟩
    have further := follows.counts b isOk
    simp only at further ⊢
    omega

theorem get {f : State → Parse α} (rest : At κ last c s (f s) Q) : At κ last c s (MonadState.get >>= f) Q := rest

theorem currentKind {f : TokenKind → Parse α} (rest : At κ last c s (f s.kind) Q) :
    At κ last c s (Parse.currentKind >>= f) Q := rest

end Outcome

variable {kind : TokenKind} {error : GrammarError} {cause : Cause} {span start : Span}

theorem Ready.follows (ready : Ready κ last s) (here : s.kind = kind) [visible : kind.Visible] :
    κ.Next last s.current.span := by
  subst here
  obtain ⟨rest, ahead⟩ := State.ahead_of_kind visible.inner
  have spread := ready.spread
  rw [ahead] at spread
  exact ⟨spread.2.1 visible.inLine, ready.current⟩

/-- The next token is taken. -/
theorem advances (here : s.kind = kind) (ready : κ.Holds last s) [visible : kind.Visible] :
    At κ last 1 s advance fun next token => s.current.span = next ∧ token.span = next ∧ κ.Next last next := by
  have more : s.kind ≠ .eof := here ▸ visible.inner
  exact .ok (.taken more) (State.advance_shorter more) fun fit => ⟨rfl, rfl, (ready fit).follows here⟩

namespace Reads

variable {f : β → Parse α} {u : Parse β} {S : Span → β → Prop}

theorem bind (first : Reads κ last n c₁ u S)
    (rest : ∀ a k next, k + c₁ ≤ n → (κ.fit → S next a) → Reads κ next k (c - c₁) (f a) Q) :
    Reads κ last n c (u >>= f) Q :=
  fun s ready le => (first s ready le).bind ready fun a k next fewer good => rest a k next (fewer.trans le) good

theorem fewer (reads : Reads κ last n c₁ x Q) (le : c ≤ c₁) : Reads κ last n c x Q :=
  fun s ready below => (reads s ready below).fewer le

theorem past (reads : Reads κ last n c x Q) : Reads κ last n c x fun next a => last.Past next ∧ Q next a :=
  fun s ready below => (reads s ready below).past ready

theorem imp (reads : Reads κ last n c x Q) (implies : ∀ next a, κ.fit → Q next a → R next a) : Reads κ last n c x R :=
  fun s ready below => (reads s ready below).imp implies

theorem pure {a : α} (good : κ.fit → Q last a) : Reads κ last n 0 (Pure.pure a) Q :=
  fun s _ _ => .ok (.refl s) le_rfl good

theorem reject (within : κ.fit → span.Within κ.bound) : Reads κ last n c (rejectAt cause span : Parse α) Q :=
  fun _ _ _ => .rejected within

theorem rejects : Reads κ last n c (Parse.reject error : Parse α) Q := fun _ ready _ => .rejected
  fun fit => (ready fit).current

/-- Nothing follows a rejection. -/
theorem stop (within : κ.fit → span.Within κ.bound) : Reads κ last n c ((rejectAt cause span : Parse β) >>= f) Q :=
  fun _ _ _ => .rejected within

theorem stops : Reads κ last n c ((Parse.reject error : Parse β) >>= f) Q := fun _ ready _ => .rejected
  fun fit => (ready fit).current

theorem get {f : State → Parse α}
    (rest : ∀ s, κ.Holds last s → s.ahead.length ≤ n → Reads κ last n c (f s) Q) :
    Reads κ last n c (MonadState.get >>= f) Q :=
  fun s ready le => rest s ready le s ready le

theorem advance : Reads κ last n 0 Parse.advance fun next token => token.span.Within κ.bound ∧
    last.stop ≤ next.stop := by
  intro s ready _
  obtain ⟨next, went⟩ := Went.advance s
  refine .ok went ?_ fun fit => ⟨(ready fit).current, (went.ready fit (ready fit)).1.stop⟩
  rw [State.advance_ahead, List.length_tail]
  omega

theorem currentSpan {f : Span → Parse α} (rest : ∀ span, (κ.fit → span.Within κ.bound) → Reads κ last n c (f span) Q) :
    Reads κ last n c (Parse.currentSpan >>= f) Q :=
  fun s ready le => rest s.current.span (fun fit => (ready fit).current) s ready le

theorem currentKind {f : TokenKind → Parse α} (rest : ∀ kind, Reads κ last n c (f kind) Q) :
    Reads κ last n c (Parse.currentKind >>= f) Q :=
  fun s ready le => rest s.kind s ready le

theorem atKind {f : Bool → Parse α} (rest : ∀ here, Reads κ last n c (f here) Q) :
    Reads κ last n c (Parse.atKind kind >>= f) Q :=
  fun s ready le => rest (s.kind == kind) s ready le

/-- The place of what was read since `start`. -/
theorem spanFrom {f : Span → Parse α} (within : κ.fit → start.Within κ.bound)
    (rest : ∀ span, (κ.fit → span.Within κ.bound) → (κ.fit → 0 < last.stop → span = start.merge last) →
    Reads κ last n c (f span) Q) :
    Reads κ last n c (Parse.spanFrom start >>= f) Q := by
  refine fun s ready le => rest _ (fun fit => (within fit).merge (ready fit).previous) (fun fit later => ?_) s ready le
  rw [(ready fit).behind later]

theorem report {f : Unit → Parse α} (within : κ.fit → span.Within κ.bound) (rest : Reads κ last n c (f ()) Q) :
    Reads κ last n c (Parse.report error span >>= f) Q := by
  intro s ready le
  have went : Went κ last s last (s.report (.grammar error span)) := .report within
  have outcome := rest _ (fun fit => (went.ready fit (ready fit)).2) le
  obtain ⟨next, further, good⟩ := outcome.went
  exact ⟨outcome.counts, ⟨next, went.trans further, good⟩, outcome.stops⟩

theorem accept_at {f : Bool → Parse α} (taken : s.kind = kind → At κ last c s (Parse.advance >>= fun _ => f true) Q)
    (left : s.kind ≠ kind → At κ last c s (f false) Q) : At κ last c s (Parse.accept kind >>= f) Q := by
  have asked : (Parse.accept kind >>= f).run.run s =
      ((if s.kind == kind then (do let _ ← Parse.advance; return true) else (return false : Parse Bool)) >>=
      f).run.run s := rfl
  unfold At
  rw [asked]
  by_cases here : s.kind = kind
  · simp only [here, beq_self_eq_true, if_true, bind_assoc, pure_bind]
    exact taken here
  · simp only [beq_false_of_ne here, Bool.false_eq_true, if_false, pure_bind]
    exact left here

/-- A token that is taken if it is there. -/
theorem accept {f : Bool → Parse α}
    (taken : ∀ k next, k + 1 ≤ n → (κ.fit → κ.Next last next) → Reads κ next k (c - 1) (f true) Q)
    (left : Reads κ last n c (f false) Q) [kind.Visible] : Reads κ last n c (Parse.accept kind >>= f) Q := by
  refine fun s ready le => accept_at (fun here => ?_) fun _ => left s ready le
  exact (advances here ready).bind ready fun _ k next fewer good => taken k next (by omega) fun fit => (good fit).2.2

theorem expect_at {Q : Span → Token → Prop} (taken : s.kind = kind → At κ last c s Parse.advance Q)
    (ready : κ.Holds last s) : At κ last c s (Parse.expect kind error) Q := by
  have asked : (Parse.expect kind error).run.run s = (if s.kind == kind then Parse.advance
      else Parse.reject error).run.run s := rfl
  unfold At
  rw [asked]
  by_cases here : s.kind = kind
  · simp only [here, beq_self_eq_true, if_true]
    exact taken here
  · simp only [beq_false_of_ne here, Bool.false_eq_true, if_false]
    exact rejects (n := s.ahead.length) s ready le_rfl

theorem expect [kind.Visible] : Reads κ last n 1 (Parse.expect kind error) fun next token => token.span = next ∧
    κ.Next last next :=
  fun _ ready _ => expect_at (fun here => (advances here ready).imp fun _ _ _ good => good.2) ready

/-- The end of a line is taken. -/
theorem advances_eol (here : s.kind = .eol) (ready : κ.Holds last s) :
    At κ last 1 s Parse.advance fun next _ => last.stop ≤ next.stop := by
  have more : s.kind ≠ .eof := by simp [here]
  exact .ok (.taken more) (State.advance_shorter more) fun fit => ((Went.taken more).ready fit (ready fit)).1.stop

theorem expectEol {after : LineEnding} :
    Reads κ last n 1 (Parse.expectEol after) fun next _ => last.stop ≤ next.stop := by
  have taken : Reads κ last n 1 (Parse.expect .eol (.lineEnd after)) fun next _ => last.stop ≤ next.stop :=
    fun _ ready _ => expect_at (fun here => advances_eol here ready) ready
  exact taken.bind fun _ _ _ _ further => .pure further

/-- The end of a line, after which nothing more is read. -/
theorem line {after : LineEnding} {a : α} (le : c ≤ 1) (good : ∀ next, κ.fit → last.stop ≤ next.stop → Q next a) :
    Reads κ last n c (Parse.expectEol after >>= fun _ => Pure.pure a) Q :=
  (Reads.bind expectEol fun _ _ next _ further => pure fun fit => good next fit (further fit)).fewer le

theorem expectEnd {word : Keyword} :
    Reads κ last n 2 (Parse.expectEnd word error) fun next span => span.Within κ.bound ∧ last.stop ≤ next.stop := by
  refine Reads.bind expect fun _ _ _ _ first => expect.bind fun _ _ _ _ second => .pure fun fit => ?_
  obtain ⟨rfl, first⟩ := first fit
  have second := (second fit).2
  have := first.after
  have := first.forward
  have := second.after
  have := second.forward
  exact ⟨first.within, by omega⟩

theorem expectIdent : Reads κ last n 1 (Parse.expectIdent error) fun next ident =>
    ident.Fit κ.bound ∧ ident.span = next ∧ κ.Next last next := by
  intro s ready le
  unfold Parse.expectIdent
  refine .get ?_
  extract_lets token
  split
  next name here =>
    have isName : s.kind = .ident name := here
    refine (advances isName ready).bind ready fun _ _ _ _ good => .pure fun fit => ?_
    exact ⟨⟨(ready fit).named.current isName, (ready fit).current⟩, (good fit).1, (good fit).2.2⟩
  · exact rejects s ready le

/-- Something that is read after a sign, if the sign is there. -/
theorem optional {rest : Option β → Parse α} {S : Span → Span → β → Prop}
    (reads : ∀ k sign, k + 1 ≤ n → Reads κ sign k 0 u (S sign)) (follows : ∀ read k next, k ≤ n →
      (κ.fit → last.stop ≤ next.stop ∧ ∀ b, read = some b → ∃ sign, last.stop ≤ sign.stop ∧ S sign next b) →
      Reads κ next k c (rest read) Q) [kind.Visible] :
    Reads κ last n c (do
      if ← Parse.accept kind then
        let b ← u
        let read ← Pure.pure (some b)
        rest read
      else
        let read ← Pure.pure none
        rest read) Q := by
  refine .accept (fun k sign fewer after => ?_) (follows none n last le_rfl fun _ => ⟨le_rfl, by simp⟩)
  refine (reads k sign fewer).past.bind fun b k₁ next fewer₁ good => ?_
  refine (follows (some b) k₁ next (by omega) fun fit => ?_).fewer (by omega)
  have le : last.stop ≤ sign.stop := (after fit).after.trans (Nat.le_of_lt (after fit).forward)
  refine ⟨le.trans (good fit).1.stop, ?_⟩
  rintro _ ⟨⟩
  exact ⟨sign, le, (good fit).2⟩

/-- A step within a class. -/
theorem inClass {plain : Prop} {owner : Owner} (untemplated : plain → owner.params = [])
    (reads : Reads { κ with plain } last n c x Q) :
    Reads { κ with plain := True } last n c (Parse.inClass owner x) Q := by
  intro s ready le
  have entered (fit : κ.fit) : Ready { κ with plain } last { s with owner := some owner } := by
    refine { ready fit with owner := ?_ }
    rintro isPlain _ ⟨⟩
    exact untemplated isPlain
  have outcome := reads { s with owner := some owner } entered le
  obtain ⟨next, went, good⟩ := outcome.went
  have ran : (Parse.inClass owner x).run.run s = ((x.run.run { s with owner := some owner }).1,
      { (x.run.run { s with owner := some owner }).2 with owner := none }) := rfl
  unfold At at outcome ⊢
  rw [ran]
  refine ⟨outcome.counts, ⟨next, ⟨went.suffix, .inr rfl, went.nesting, fun fit _ => ?_⟩, good⟩, outcome.stops⟩
  obtain ⟨further, left⟩ := went.ready fit (entered fit)
  exact ⟨further, { left with owner := by simp }⟩

end Reads

/-! ## Rejected entries -/

/-- Skipping leaves the last of the tokens ahead, and behind them the token before. -/
structure Skips (s : State) (previous : Token) (tokens : List Token) (s₁ : State) : Prop where
  behind : s₁.previous :: s₁.ahead <:+ previous :: tokens
  rest : s₁ = { s with previous := s₁.previous, ahead := s₁.ahead }

theorem Skips.cons {previous token : Token} {tokens : List Token} (skips : Skips s token tokens s₁) :
    Skips s previous (token :: tokens) s₁ :=
  ⟨skips.behind.trans (List.suffix_cons _ _), skips.rest⟩

theorem skipLineFrom_skips (s : State) (previous : Token) (tokens : List Token) :
    Skips s previous tokens (s.skipLineFrom previous tokens) := by
  induction tokens generalizing previous with
  | nil => exact ⟨List.suffix_rfl, rfl⟩
  | cons token tokens ih =>
    unfold State.skipLineFrom
    split
    · exact ⟨List.suffix_rfl, rfl⟩
    split
    · exact ⟨List.suffix_cons _ _, rfl⟩
    · exact (ih token).cons

theorem resumeFrom_skips (s : State) (previous : Token) (tokens : List Token) :
    Skips s previous tokens (s.resumeFrom previous tokens) := by
  induction tokens generalizing previous with
  | nil => exact ⟨List.suffix_rfl, rfl⟩
  | cons token tokens ih =>
    unfold State.resumeFrom
    split
    · exact ⟨List.suffix_rfl, rfl⟩
    · exact (ih token).cons

/-- Skipping a line that does not start with its end takes a token. -/
theorem skipLine_shorter (here : s.kind ≠ .eof) (inside : s.kind ≠ .eol) :
    s.skipLine.ahead.length + 1 ≤ s.ahead.length := by
  obtain ⟨rest, ahead⟩ := State.ahead_of_kind here
  have token : s.current.kind ≠ .eof ∧ s.current.kind ≠ .eol := ⟨here, inside⟩
  have shorter := (skipLineFrom_skips s s.current rest).behind.length_le
  simp only [State.skipLine, ahead, State.skipLineFrom, token.1, token.2, if_false, List.length_cons] at shorter ⊢
  omega

/-- How many headers failed does not matter for what lies ahead. -/
theorem Went.orphans (went : Went κ last s next s₁) (orphans : Nat) :
    Went κ last s next { s₁ with orphanedEnds := orphans } := by
  refine ⟨went.suffix, went.owner, went.nesting, fun fit ready => ?_⟩
  obtain ⟨further, ready⟩ := went.ready fit ready
  exact ⟨further, { ready with }⟩

theorem Went.skipped (went : Went κ last s next s₁) (skips : Skips s₁ s₁.previous s₁.ahead s₂) :
    ∃ next₁, Went κ last s next₁ s₂ := by
  obtain ⟨next₁, further⟩ : ∃ next₁, Went κ next s₁ next₁ s₂ := Went.onward skips.behind skips.rest
  exact ⟨next₁, went.trans further⟩

theorem Went.recover {d : Diagnostic} (headless : Bool) (within : κ.fit → d.span.Within κ.bound)
    (went : Went κ last s next s₁) :
    ∃ next₁, Went κ last s next₁ (s₁.recover d headless) := by
  obtain ⟨next₁, further⟩ : ∃ next₁, Went κ next (s₁.report d) next₁ _ := Went.advance (s₁.report d)
  obtain ⟨next₂, skipped⟩ := ((went.trans (.report within)).trans further).skipped (resumeFrom_skips _ _ _)
  exact ⟨next₂, skipped.orphans _⟩

theorem recover_shorter (before : s₁.ahead.length ≤ s.ahead.length) (here : s.kind ≠ .eof)
    (d : Diagnostic) (headless : Bool) :
    (s₁.recover d headless).ahead.length + 1 ≤ s.ahead.length := by
  obtain ⟨rest, ahead⟩ := State.ahead_of_kind here
  have passed : (s₁.recover d headless).ahead.length + 1 ≤ (s₁.report d).advance.ahead.length + 1 :=
    (resumeFrom_skips _ _ _).behind.length_le
  have same : (s₁.report d).ahead = s₁.ahead := rfl
  rw [State.advance_ahead, List.length_tail, same] at passed
  rw [ahead, List.length_cons] at before ⊢
  omega

/-- A block that was entered can be left. -/
theorem closeBlock_run {f : Unit → Parse α} (entered : s₁.nesting = s.nesting + 1) :
    (closeBlock >>= f).run.run s₁ = (f ()).run.run { s₁ with nesting := s.nesting } := by
  obtain ⟨_, _, _, _, _, _, nesting, _, _⟩ := s₁
  obtain rfl : nesting = s.nesting + 1 := entered
  rfl

theorem run_try (x : Parse α) (handler : Stop → Parse (Except (Option α) (Option α))) (s : State) :
    (tryCatch (do let a ← x; pure (.error (some a))) handler : Parse (Except (Option α) (Option α))).run.run s =
      match x.run.run s with
      | (.ok a, s₁) => (.ok (.error (some a)), s₁)
      | (.error stop, s₁) => (handler stop).run.run s₁ := by
  rw [ExceptT.run_tryCatch, StateT.run_bind, run_bind]
  cases x.run.run s with
  | mk r s₁ => cases r <;> rfl

/-- The outcome of a step that never fails. -/
def Tolerant (κ : Known) (last : Span) (count : Nat) (s : State) (x : Parse α) (Q : Span → α → Prop) : Prop :=
  ∃ a s₁, x.run.run s = (.ok a, s₁) ∧ Outcome κ last count Q s (.ok a, s₁)

namespace Tolerant

theorem get {f : State → Parse α} (rest : Tolerant κ last c s (f s) Q) :
    Tolerant κ last c s (MonadState.get >>= f) Q := rest

theorem pure {a : α} (good : κ.fit → Q last a) : Tolerant κ last 0 s (Pure.pure a) Q :=
  ⟨a, s, rfl, .ok (.refl s) le_rfl good⟩

theorem bind {x : Parse β} {f : β → Parse α} {S : Span → β → Prop} (first : Tolerant κ last c s x S)
    (ready : κ.Holds last s) (rest : ∀ a s₁ next, κ.Holds next s₁ → s₁.ahead.length + c ≤ s.ahead.length →
      (κ.fit → S next a) → Tolerant κ next 0 s₁ (f a) Q) : Tolerant κ last 0 s (x >>= f) Q := by
  obtain ⟨a, s₁, ran, outcome⟩ := first
  have counts := outcome.counts a rfl
  obtain ⟨next, went, good⟩ := outcome.went
  obtain ⟨b, s₂, ran₂, outcome₂⟩ := rest a s₁ next (fun fit => (went.ready fit (ready fit)).2) counts (good a rfl)
  obtain ⟨next₁, went₁, good₁⟩ := outcome₂.went
  refine ⟨b, s₂, ?_, .ok (went.trans went₁) ?_ (good₁ b rfl)⟩
  · rw [run_bind, ran]
    exact ran₂
  · have counts₂ := outcome₂.counts b rfl
    simp only at counts counts₂
    omega

end Tolerant

/-- What an entry that may have been left out gives. -/
abbrev Entered (last : Span) (Q : Span → α → Prop) (next : Span) (read : Option α) : Prop :=
  last.stop ≤ next.stop ∧ ∀ a, read = some a → Q next a

/-- An entry is left out. -/
theorem Outcome.leaves (went : ∃ next, Went κ last s next s₁) (ready : κ.Holds last s)
    (shorter : s₁.ahead.length + c ≤ s.ahead.length) :
    Outcome κ last c (Entered last Q) s (.ok none, s₁) := by
  obtain ⟨next, went⟩ := went
  exact .ok went shorter fun fit => ⟨(went.ready fit (ready fit)).1.stop, by simp⟩

/-- A step whose rejection is reported takes a token in any case. -/
theorem Outcome.rescued {handler : Stop → Parse (Except (Option α) (Option α))} {headless : State → Bool}
    (outcome : At κ last 1 s x Q) (ready : κ.Holds last s) (more : s.kind ≠ .eof)
    (reports : ∀ d s, (handler (.rejected d)).run.run s = (.ok (.error none), s.recover d (headless s))) :
    Tolerant κ last 1 s (do
      let e ← (tryCatch (do let a ← x; Pure.pure (.error (some a))) handler : Parse (Except (Option α) (Option α)))
      EarlyReturn.runK e Pure.pure Pure.pure) (Entered last Q) := by
  unfold Tolerant
  rw [run_bind, run_try]
  unfold At at outcome
  generalize x.run.run s = p at outcome ⊢
  obtain ⟨r, s₁⟩ := p
  obtain ⟨next, went, good⟩ := outcome.went
  cases r with
  | ok a =>
    refine ⟨some a, s₁, rfl, .ok went (outcome.counts a rfl)
      fun fit => ⟨(went.ready fit (ready fit)).1.stop, fun b same => ?_⟩⟩
    cases same
    exact good a rfl fit
  | error stop =>
    obtain ⟨d, rfl, within⟩ := outcome.stops stop rfl
    simp only [reports]
    exact ⟨none, _, rfl, .leaves (went.recover _ within) ready (recover_shorter went.suffix.length_le more d _)⟩

/-- One entry of a list never fails and takes a token, whether it is read or rejected. -/
theorem entry_tolerant (more : s.kind ≠ .eof) (ready : κ.Holds last s) (reads : At κ last 1 s x Q) :
    Tolerant κ last 1 s (entry x) (Entered last Q) := by
  have accepted : (accept .eol).run.run s = if s.kind = .eol then (.ok true, s.advance) else (.ok false, s) := by
    have asked : (accept .eol).run.run s =
      (if s.kind == .eol then (do let _ ← advance; return true) else (return false : Parse Bool)).run.run s := rfl
    rw [asked]
    by_cases here : s.kind = .eol
    · simp only [here, beq_self_eq_true, if_true]
      rfl
    · simp only [beq_false_of_ne here, here, Bool.false_eq_true, if_false]
      rfl
  unfold Tolerant entry
  rw [run_bind, accepted]
  by_cases blank : s.kind = .eol
  · simp only [blank, if_true]
    exact ⟨none, _, rfl, .leaves (Went.advance s) ready (State.advance_shorter more)⟩
  · have asked (f : State → Parse (Option α)) : (MonadState.get >>= f).run.run s = (f s).run.run s := rfl
    obtain ⟨next, skipped⟩ := (Went.refl s : Went κ last s last s).skipped (skipLineFrom_skips s s.previous s.ahead)
    have shorter := skipLine_shorter more blank
    simp only [blank, Bool.false_eq_true, if_false]
    rw [asked]
    split
    · exact ⟨none, _, rfl, .leaves ⟨next, skipped.orphans _⟩ ready shorter⟩
    split
    · exact ⟨none, _, rfl, .leaves ⟨next, skipped⟩ ready shorter⟩
    · exact reads.rescued ready more fun _ _ => rfl

end Parse

end Quasicode
