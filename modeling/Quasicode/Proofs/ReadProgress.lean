import Quasicode.Proofs.ReadItems

/-!
Reading goes forward on every list of tokens that closes with the end of the file, wherever else that token may stand
and whatever the tokens are. The loop over the entries of a program and the loop over the entries of a block get past a
token at each turn, and no turn leaves a block or a class open.
-/
namespace Quasicode

namespace Parse

variable {α : Type} {s : State} {x : Parse α} {fuel : Nat}

/-- Nothing is known of the tokens, not even that they are in place. -/
abbrev Known.nothing : Known := ⟨False, 0, 0, [], True⟩

/-- No class is open where no block is. -/
def Outside (s : State) : Prop := s.nesting = 0 → s.owner = none

/-- The step succeeds from `s` and gets past a token; it leaves the blocks that it found, and no
class open outside of them. -/
def Progresses (s : State) (x : Parse α) : Prop :=
  ∃ a s₁, x.run.run s = (.ok a, s₁) ∧ s₁.ahead <:+ s.ahead ∧ s₁.ahead.length < s.ahead.length ∧ s₁.nesting = s.nesting ∧
    (Outside s → Outside s₁)

theorem Went.outside {κ : Known} {s₁ : State} {last next : Span} (went : Went κ last s next s₁)
    (outside : Outside s) : Outside s₁ := by
  intro top
  rcases went.owner with same | none
  · rw [same]
    exact outside (went.nesting ▸ top)
  · exact none

theorem Tolerant.progresses {last : Span} {Q : Span → α → Prop}
    (tolerant : Tolerant .nothing last 1 s x Q) : Progresses s x := by
  obtain ⟨a, s₁, ran, outcome⟩ := tolerant
  obtain ⟨_, went, _⟩ := outcome.went
  exact ⟨a, s₁, ran, went.suffix, outcome.counts a rfl, went.nesting, went.outside⟩

/-- An entry of a program. -/
theorem item_progresses (more : s.atEnd = false) (enough : 32 * s.ahead.length + 7 ≤ fuel) :
    Progresses s (entry (item fuel)) := by
  have reads := item_reads (κ := .nothing) enough s (False.elim : Known.nothing.Holds s.finish s) (Nat.le_refl _)
  exact (entry_tolerant (by simpa [State.atEnd] using more) False.elim reads).progresses

/-- An entry of a block. -/
theorem nestedStmt_progresses (more : s.atEnd = false) (enough : 32 * s.ahead.length + 8 ≤ fuel) :
    Progresses s (entry (nestedStmt fuel)) := by
  have reads := nestedStmt_reads (κ := .nothing) fuel enough s
    (False.elim : Known.nothing.Holds s.finish s) (Nat.le_refl _)
  exact (entry_tolerant (by simpa [State.atEnd] using more) False.elim reads).progresses

/-- Reading stops nowhere but at the end of a file. -/
theorem items_atEnd : ∀ fuel {s s₁ read}, (items fuel).run.run s = (.ok read, s₁) → s₁.atEnd = true
  | 0, s, s₁, read, ran => by
    cases ran
  | fuel + 1, s, s₁, read, ran => by
    have asked (f : State → Parse (List Item)) : (MonadState.get >>= f).run.run s = (f s).run.run s := rfl
    rw [items, asked] at ran
    split at ran
    next ended =>
      cases ran
      exact ended
    · rw [run_bind] at ran
      split at ran
      next s₂ _ =>
        rw [run_bind] at ran
        split at ran
        next rest s₃ ranRest =>
          cases ran
          exact items_atEnd fuel ranRest
        · cases ran
      · cases ran

end Parse

open Parse in
/-- **Reading goes forward.** A list of tokens that closes with the end of the file is read within the budget, up to an
end of the file that stands in it, where no class and no block is open. Every entry of a program and every entry of a
block that is read before the end of the file gets past a token. -/
theorem parse_progresses {tokens : List Token} {last : Token} (builtins : List String)
    (closed : tokens.getLast? = some last) (ended : last.kind = .eof) :
    (∃ start items s, start? tokens builtins = some start ∧ start.ahead = tokens.dropLast ∧
      start.nesting = 0 ∧ start.owner = none ∧ (Parse.items (budget tokens.length)).run.run start = (.ok items, s) ∧
      parse tokens builtins = .ok { program := ⟨items⟩, problems := s.problems } ∧
      s.ahead <:+ tokens.dropLast ∧ s.atEnd = true ∧ s.nesting = 0 ∧ s.owner = none) ∧
    ∀ s : State, s.atEnd = false → ∀ fuel,
      (32 * s.ahead.length + 7 ≤ fuel → Progresses s (entry (item fuel))) ∧
      (32 * s.ahead.length + 8 ≤ fuel → Progresses s (entry (nestedStmt fuel))) := by
  refine ⟨?_, fun s more fuel => ⟨item_progresses more, nestedStmt_progresses more⟩⟩
  obtain ⟨first, head⟩ : ∃ first, tokens.head? = some first := by
    cases tokens with
    | nil => simp at closed
    | cons first rest => exact ⟨first, rfl⟩
  let start : State := {
    previous := first
    ahead := tokens.dropLast
    finish := last.span
    classNames := builtins ++ declaredClasses tokens }
  have begun : start? tokens builtins = some start := by simp [start?, closed, head, ended, start]
  have enough : 32 * start.ahead.length + 8 ≤ budget tokens.length := by
    simp only [budget, List.length_dropLast, start]
    omega
  obtain ⟨items, s, ran, outcome⟩ :=
    items_tolerant (κ := .nothing) _ (False.elim : Known.nothing.Holds last.span start) enough
  obtain ⟨_, went, _⟩ := outcome.went
  refine ⟨start, items, s, begun, rfl, rfl, rfl, ran, ?_, went.suffix, items_atEnd _ ran, went.nesting, ?_⟩
  · rw [parse, begun]
    simp only [ran]
  · exact went.outside (fun _ => rfl) went.nesting

/-- The word `class` before an end of the file that is not the last token. -/
def brokenOff : List Token := [⟨.keyword .«class», "class", ⟨0, 5, 0⟩⟩, .eof ⟨5, 5, 0⟩, .eof ⟨6, 6, 0⟩]

theorem brokenOff_progresses : ∃ parsed, parse brokenOff [] = .ok parsed := by
  obtain ⟨⟨start, items, s, _, _, _, _, _, parsed, _⟩, _⟩ := @parse_progresses brokenOff _ [] rfl rfl
  exact ⟨_, parsed⟩

end Quasicode
