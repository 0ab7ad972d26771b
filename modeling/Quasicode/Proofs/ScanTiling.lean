import Quasicode.Proofs.ScanPlaces

/-!
How tokens tile a source. What separates tokens is described on its own, by rules that only look at the text and at what
follows it: blanks, comments and joined lines. The tokens that a source spells are slices of it, one after the other,
and a source without lexical problems has nothing but separators before, between and after them.
-/
namespace Quasicode

/-- The source spells every token but the end of the file and the end of a line that no newline closes. -/
def Token.isSpelled (token : Token) : Bool := token.kind != .eof && !(token.kind == .eol && token.lexeme == "")

namespace Scan

variable {text : List Char} {quiet : Prop} {quote : Nat}

/-! ## Separators -/

/-- A line comment and what follows it. A newline belongs to the comment if it stands right after a backslash; any other
newline ends it. -/
structure LineComment (comment after : List Char) : Prop where
  opens : ['/', '/'] <+: comment
  carries : ∀ i, comment[i + 1]? = some '\n' → comment[i]? = some '\\'
  ends : ∀ c, after.head? = some c → c = '\n' ∧ comment.getLast? ≠ some '\\'

/-- What follows the opening of a block comment, up to the mark that closes it. A comment inside is closed by a mark of
its own, and no mark stands anywhere else. -/
inductive Enclosed : List Char → Prop where
  | closed : Enclosed ['*', '/']
  | nested {inner text : List Char} : Enclosed inner → Enclosed text → Enclosed ('/' :: '*' :: (inner ++ text))
  | plain {c : Char} {text : List Char} : ¬ ['*', '/'] <+: c :: text → ¬ ['/', '*'] <+: c :: text → Enclosed text →
      Enclosed (c :: text)

/-- A text that separates what stands before it from the characters `rest` after it. -/
inductive Separates (rest : List Char) : List Char → Prop where
  | nothing : Separates rest []
  | blank {c : Char} {text : List Char} : isBlank c → Separates rest text → Separates rest (c :: text)
  | lineComment {comment text : List Char} : LineComment comment (text ++ rest) → Separates rest text →
      Separates rest (comment ++ text)
  | blockComment {inner text : List Char} : Enclosed inner → Separates rest text →
      Separates rest ('/' :: '*' :: (inner ++ text))
  | joined {blanks text : List Char} : blanks.all isBlank → Separates rest text →
      Separates rest ('\\' :: (blanks ++ '\n' :: text))
  | joinedEnd {blanks : List Char} : blanks.all isBlank → rest = [] → Separates rest ('\\' :: blanks)

variable {file pos n : Nat} {c : Char} {cs source : List Char}

theorem lineCommentLength_carries (cs : List Char) :
    (cs.take (lineCommentLength cs))[0]? ≠ some '\n' ∧
      ∀ i, (cs.take (lineCommentLength cs))[i + 1]? = some '\n' → (cs.take (lineCommentLength cs))[i]? = some '\\' := by
  fun_induction lineCommentLength cs with
  | case1 => simp
  | case2 cs ih =>
    simp only [List.take_succ_cons]
    refine ⟨by simp, fun i here => ?_⟩
    rcases i with _ | _ | i
    · rfl
    · exact absurd here ih.1
    · exact ih.2 i here
  | case3 cs => simp
  | case4 c cs _ other ih =>
    simp only [List.take_succ_cons]
    refine ⟨by simpa using other, fun i here => ?_⟩
    rcases i with _ | i
    · exact absurd here ih.1
    · exact ih.2 i here

/-- A line comment ends with the input, or before a newline that no backslash carries it over. -/
theorem lineCommentLength_ends {next : Char} (cs : List Char)
    (follows : (cs.drop (lineCommentLength cs)).head? = some next) :
    next = '\n' ∧ (cs.take (lineCommentLength cs)).getLast? ≠ some '\\' := by
  fun_induction lineCommentLength cs with
  | case1 => cases follows
  | case2 cs ih =>
    obtain ⟨newline, last⟩ := ih follows
    refine ⟨newline, ?_⟩
    simp only [List.take_succ_cons, List.getLast?_cons]
    cases seen : (cs.take (lineCommentLength cs)).getLast? with
    | none => simp
    | some c => simpa [seen] using last
  | case3 cs => simpa [eq_comm] using follows
  | case4 c cs single other ih =>
    obtain ⟨newline, last⟩ := ih follows
    refine ⟨newline, ?_⟩
    rw [List.take_succ_cons, List.getLast?_cons]
    cases seen : (cs.take (lineCommentLength cs)).getLast? with
    | some c => simpa [seen] using last
    | none =>
      -- the comment ends right after this character, so a newline is next and the character is no backslash
      rw [List.getLast?_eq_none_iff, List.take_eq_nil_iff] at seen
      rintro ⟨⟩
      rcases seen with none | rfl
      · rw [List.drop_succ_cons, none, List.drop_zero, newline] at follows
        obtain ⟨rest, rfl⟩ := List.head?_eq_some_iff.mp follows
        exact single rest rfl rfl
      · simp at follows

/-- A block comment that is closed is closed at every depth: the text up to its end encloses one
comment after the other. -/
theorem blockCommentLength_encloses {depth : Nat} (closed : (blockCommentLength depth cs).2 = true) :
    ∃ texts : List (List Char), texts.length = depth + 1 ∧ (∀ text ∈ texts, Enclosed text) ∧
      cs.take (blockCommentLength depth cs).1 = texts.flatten := by
  fun_induction blockCommentLength depth cs with
  | case1 => cases closed
  | case2 cs => exact ⟨[['*', '/']], rfl, by simpa using .closed, rfl⟩
  | case3 cs outer length _ found ih =>
    rw [found] at ih
    obtain ⟨texts, count, all, same⟩ := ih closed
    refine ⟨['*', '/'] :: texts, by simp [count], List.forall_mem_cons.mpr ⟨.closed, all⟩, ?_⟩
    rw [List.flatten_cons, ← same]
    rfl
  | case4 depth cs length _ found ih =>
    rw [found] at ih
    obtain ⟨texts, count, all, same⟩ := ih closed
    obtain ⟨inner, text, rest, rfl⟩ : ∃ inner text rest, texts = inner :: text :: rest := by
      rcases texts with _ | ⟨inner, _ | ⟨text, rest⟩⟩
      · cases count
      · cases count
      · exact ⟨inner, text, rest, rfl⟩
    obtain ⟨inner', text', rest'⟩ := by simpa only [List.forall_mem_cons] using all
    refine ⟨('/' :: '*' :: (inner ++ text)) :: rest, by simpa using count,
      List.forall_mem_cons.mpr ⟨.nested inner' text', rest'⟩, ?_⟩
    simp only [List.take_succ_cons, same, List.flatten_cons, List.cons_append, List.append_assoc]
  | case5 depth c cs closes opens length _ found ih =>
    rw [found] at ih
    obtain ⟨texts, count, all, same⟩ := ih closed
    obtain ⟨text, rest, rfl⟩ : ∃ text rest, texts = text :: rest := by
      cases texts with
      | nil => cases count
      | cons text rest => exact ⟨text, rest, rfl⟩
    obtain ⟨text', rest'⟩ := List.forall_mem_cons.mp all
    have starts : text <+: cs := by
      have first : text <+: cs.take length := same ▸ List.prefix_append _ _
      exact first.trans (List.take_prefix _ _)
    have unmarked {second : Char} (marked : [second] <+: text) : ∃ after, cs = second :: after := by
      obtain ⟨after, rfl⟩ := marked.trans starts
      exact ⟨after, rfl⟩
    refine ⟨(c :: text) :: rest, count, List.forall_mem_cons.mpr ⟨.plain ?_ ?_ text', rest'⟩, ?_⟩
    · intro marked
      obtain ⟨rfl, second⟩ := List.cons_prefix_cons.mp marked
      obtain ⟨after, rfl⟩ := unmarked second
      exact closes after rfl rfl
    · intro marked
      obtain ⟨rfl, second⟩ := List.cons_prefix_cons.mp marked
      obtain ⟨after, rfl⟩ := unmarked second
      exact opens after rfl rfl
    · rw [List.take_succ_cons, same]
      rfl

/-- **What the scanner skips without a complaint separates.** -/
theorem gap_separates {gap : Gap} {rest : List Char} (found : gap? file pos c cs = some gap) (quiet : gap.problems = [])
    (follows : cs.drop (gap.length - 1) = text ++ rest) (separates : Separates rest text) :
    Separates rest (c :: cs.take (gap.length - 1) ++ text) := by
  unfold gap? at found
  split at found
  next blank =>
    cases found
    exact .blank blank separates
  split at found
  next backslash =>
    subst backslash
    have prefix_ : cs.takeWhile isBlank = cs.take (cs.takeWhile isBlank).length :=
      List.prefix_iff_eq_take.mp (List.takeWhile_prefix _)
    have blanks : (cs.take (cs.takeWhile isBlank).length).all isBlank := prefix_ ▸ List.all_takeWhile
    extract_lets count at found
    split at found
    next ended =>
      cases found
      rw [Nat.add_sub_cancel_left] at follows ⊢
      obtain ⟨rfl, rfl⟩ := List.append_eq_nil_iff.mp (follows.symm.trans ended)
      rw [List.append_nil]
      exact .joinedEnd blanks rfl
    next next after here =>
      split at found
      next newline =>
        cases found
        subst newline
        have whole : cs.take (1 + count + 1 - 1) = cs.take count ++ ['\n'] := by
          rw [Nat.add_sub_cancel, Nat.add_comm, List.take_add_one, ← List.head?_drop, here]
          rfl
        rw [whole]
        simpa using Separates.joined blanks separates
      · cases found
        cases quiet
  split at found
  next slash =>
    subst slash
    split at found
    next after =>
      cases found
      rw [Nat.add_sub_cancel_left] at follows ⊢
      refine .lineComment ⟨?_, ?_, fun next here => ?_⟩ separates
      · rw [lineCommentLength, if_neg (by decide)]
        · exact ⟨_, rfl⟩
        · rintro _ ⟨⟩
      · intro i here
        rcases i with _ | i
        · exact absurd here (lineCommentLength_carries _).1
        · exact (lineCommentLength_carries _).2 i here
      · obtain ⟨newline, last⟩ := lineCommentLength_ends ('/' :: after) (follows ▸ here)
        refine ⟨newline, ?_⟩
        rw [List.getLast?_cons]
        cases seen : (('/' :: after).take (lineCommentLength ('/' :: after))).getLast? with
        | none => simp
        | some c => simpa [seen] using last
    next after =>
      cases found
      have closed : (blockCommentLength 0 after).2 = true := by
        cases closed : (blockCommentLength 0 after).2 with
        | true => rfl
        | false => simp [closed] at quiet
      obtain ⟨texts, count, all, same⟩ := blockCommentLength_encloses closed
      obtain ⟨inner, rfl⟩ := List.length_eq_one_iff.mp count
      have whole : ('*' :: after).take (2 + (blockCommentLength 0 after).1 - 1) = '*' :: inner := by
        rw [show 2 + (blockCommentLength 0 after).1 - 1 = (blockCommentLength 0 after).1 + 1 by omega,
          List.take_succ_cons, same]
        simp
      rw [whole]
      exact .blockComment (all inner (by simp)) separates
    · cases found
  · cases found

/-! ## Tokens in place -/

/-- The tokens lie one after the other in the source from the place `pos` on, each a slice of it. If the source is
quiet, separators fill the places before, between and after them. -/
def Laid (quiet : Prop) (source : List Char) : Nat → List Token → Prop
  | pos, [] => quiet → Separates [] (source.drop pos)
  | pos, token :: tokens =>
    pos ≤ token.span.start ∧ token.span.start < token.span.stop ∧ token.span.stop ≤ source.length ∧
      token.lexeme = String.ofList (source.extract token.span.start token.span.stop) ∧
      (quiet → Separates (source.drop token.span.start) (source.extract pos token.span.start)) ∧
      Laid quiet source token.span.stop tokens

theorem extract_append {start middle stop : Nat} (first : start ≤ middle) (last : middle ≤ stop) :
    source.extract start stop = source.extract start middle ++ source.extract middle stop := by
  have width : stop - start = (middle - start) + (stop - middle) := by omega
  have place : middle = start + (middle - start) := by omega
  rw [List.extract_eq_take_drop, width, List.take_add, List.drop_drop, ← place]

/-- Skipping a piece of text keeps the tokens after it in place, if the piece goes on to separate whatever it stands
before. -/
theorem Laid.skip {tokens : List Token} (laid : Laid quiet source (pos + n) tokens)
    (piece : quiet → ∀ text rest, source.drop (pos + n) = text ++ rest → Separates rest text →
      Separates rest (source.extract pos (pos + n) ++ text)) : Laid quiet source pos tokens := by
  cases tokens with
  | nil =>
    intro holds
    have whole : source.drop pos = source.extract pos (pos + n) ++ source.drop (pos + n) := by
      rw [List.extract_eq_take_drop, Nat.add_sub_cancel_left, ← List.drop_drop, List.take_append_drop]
    rw [whole]
    exact piece holds _ _ (List.append_nil _).symm (laid holds)
  | cons token tokens =>
    obtain ⟨after, wide, inside, slice, between, rest⟩ := laid
    refine ⟨by omega, wide, inside, slice, fun holds => ?_, rest⟩
    rw [extract_append (Nat.le_add_right pos n) after]
    refine piece holds _ _ ?_ (between holds)
    have place : source.drop token.span.start = (source.drop (pos + n)).drop (token.span.start - (pos + n)) := by
      rw [List.drop_drop, Nat.add_sub_of_le after]
    rw [List.extract_eq_take_drop, place, List.take_append_drop]

theorem extract_of_drop (here : source.drop pos = c :: cs) : source.extract pos (pos + (n + 1)) = c :: cs.take n := by
  rw [List.extract_eq_take_drop, Nat.add_sub_cancel_left, here, List.take_succ_cons]

theorem drop_of_drop (here : source.drop pos = c :: cs) : source.drop (pos + (n + 1)) = cs.drop n := by
  rw [← List.drop_drop, here, List.drop_succ_cons]

/-- Whether blanks lead to a newline is settled by the first quote. -/
theorem takeWhile_isBlank_quote {inner after after' : List Char} :
    (inner ++ '"' :: after).takeWhile isBlank = (inner ++ '"' :: after').takeWhile isBlank ∧
      ((inner ++ '"' :: after).drop ((inner ++ '"' :: after).takeWhile isBlank).length).head? =
        ((inner ++ '"' :: after').drop ((inner ++ '"' :: after').takeWhile isBlank).length).head? := by
  induction inner with
  | nil => simp [isBlank]
  | cons c inner ih =>
    by_cases blank : isBlank c
    · simpa [blank] using ih
    · simp [blank]

/-- A backslash and blanks before a newline are no part of a string's value. -/
theorem stringBody_joined {blanks : List Char} (blank : isBlank c) (escapes : escaped? c = none)
    (all : blanks.all isBlank) :
    stringBody file quote pos ('\\' :: c :: (blanks ++ '\n' :: cs)) =
      (stringBody file quote (pos + 3 + blanks.length) cs).after (3 + blanks.length) [] [] := by
  have taken : (blanks ++ '\n' :: cs).takeWhile isBlank = blanks := by
    rw [List.takeWhile_append_of_pos (List.all_eq_true.mp all), List.takeWhile_cons_of_neg (by decide), List.append_nil]
  rw [stringBody, escapes]
  simp [blank, taken]

/-- A backslash that stands for nothing is no part of a string's value either, nor is the character after it. -/
theorem stringBody_invalid (escapes : escaped? c = none) (apart : ¬ (isBlank c && decide ((cs.drop
      (if isBlank c then (cs.takeWhile isBlank).length else 0)).head? = some '\n')) = true) :
      stringBody file quote pos ('\\' :: c :: cs) =
      (stringBody file quote (pos + 2) cs).after 2 [] [⟨.invalidEscape c, ⟨pos, pos + 2, file⟩⟩] := by
  rw [stringBody, escapes]
  exact if_neg apart

/-- **A closed string is read from its own characters**, up to the quote that closes it. -/
theorem stringBody_local {value : List Char} (closed : (stringBody file quote pos cs).value? = some value) :
    ∃ inner after, cs = inner ++ '"' :: after ∧ (stringBody file quote pos cs).length = inner.length + 1 ∧
      ∀ file quote pos after, (stringBody file quote pos (inner ++ '"' :: after)).value? = some value ∧
        (stringBody file quote pos (inner ++ '"' :: after)).length = inner.length + 1 := by
  fun_induction stringBody file quote pos cs generalizing value with
  | case1 => cases closed
  | case2 pos after =>
    cases closed
    exact ⟨[], after, rfl, rfl, fun _ _ _ _ => by simp [stringBody]⟩
  | case3 pos ih =>
    obtain ⟨rest, found, _⟩ := Option.map_eq_some_iff.mp closed
    obtain ⟨inner, after, same, _⟩ := ih found
    simp at same
  | case4 pos c cs values escapes ih =>
    obtain ⟨rest, found, rfl⟩ := Option.map_eq_some_iff.mp closed
    obtain ⟨inner, after, rfl, length, again⟩ := ih found
    refine ⟨'\\' :: c :: inner, after, rfl, ?_, fun file quote pos after => ?_⟩
    · simp only [StringBody.after, length, List.length_cons]
      omega
    · obtain ⟨value, length⟩ := again file quote (pos + 2) after
      rw [List.cons_append, List.cons_append, stringBody, escapes]
      simp only [StringBody.after, value, length, List.length_cons, Option.map_some, true_and]
      omega
  | case5 pos c cs escapes blanks joined =>
    rename_i ih
    obtain ⟨rest, found, rfl⟩ := Option.map_eq_some_iff.mp closed
    obtain ⟨inner, after, same, length, again⟩ := ih found
    obtain ⟨blank, newline⟩ := by simpa only [Bool.and_eq_true, decide_eq_true_eq] using joined
    have count : blanks = (cs.takeWhile isBlank).length := dif_pos blank
    have whole : cs = cs.takeWhile isBlank ++ '\n' :: (inner ++ '"' :: after) := by
      obtain ⟨tail, here⟩ := List.head?_eq_some_iff.mp newline
      have next : cs.drop (blanks + 1) = tail := by rw [← List.drop_drop, here, List.drop_succ_cons, List.drop_zero]
      have taken : cs.takeWhile isBlank = cs.take blanks := count ▸ List.prefix_iff_eq_take.mp (List.takeWhile_prefix _)
      rw [← same, next, ← here, taken, List.take_append_drop]
    refine ⟨'\\' :: c :: (cs.takeWhile isBlank ++ '\n' :: inner), after, ?_, ?_, fun file quote pos after => ?_⟩
    · simpa using whole
    · simp only [StringBody.after, length, List.length_cons, List.length_append, ← count]
      omega
    · obtain ⟨value, length⟩ := again file quote (pos + 3 + (cs.takeWhile isBlank).length) after
      simp only [List.cons_append, List.append_assoc, stringBody_joined blank escapes List.all_takeWhile,
        StringBody.after, value, length, List.length_cons, List.length_append, Option.map_some, true_and]
      omega
  | case6 pos c cs escapes blanks apart =>
    rename_i ih
    obtain ⟨rest, found, rfl⟩ := Option.map_eq_some_iff.mp closed
    obtain ⟨inner, after, rfl, length, again⟩ := ih found
    refine ⟨'\\' :: c :: inner, after, rfl, ?_, fun file quote pos after' => ?_⟩
    · simp only [StringBody.after, length, List.length_cons]
      omega
    · obtain ⟨value, length⟩ := again file quote (pos + 2) after'
      have apart' : ¬ (isBlank c && decide (((inner ++ '"' :: after').drop (if isBlank c then
          ((inner ++ '"' :: after').takeWhile isBlank).length else 0)).head? = some '\n')) = true := by
        by_cases blank : isBlank c
        · obtain ⟨_, head⟩ := @takeWhile_isBlank_quote inner after after'
          simpa [blanks, blank, ← head] using apart
        · simp [blank]
      rw [List.cons_append, List.cons_append, stringBody_invalid escapes apart']
      simp only [StringBody.after, value, length, List.length_cons, Option.map_some, List.nil_append, true_and]
      omega
  | case7 pos c cs quoted single escape ih =>
    obtain ⟨rest, found, rfl⟩ := Option.map_eq_some_iff.mp closed
    obtain ⟨inner, after, rfl, length, again⟩ := ih found
    have other : c ≠ '\\' := by
      intro backslash
      cases inner with
      | nil => exact escape _ _ backslash rfl
      | cons first inner => exact escape _ _ backslash rfl
    refine ⟨c :: inner, after, rfl, ?_, fun file quote pos after => ?_⟩
    · simp only [StringBody.after, length, List.length_cons]
      omega
    · obtain ⟨value, length⟩ := again file quote (pos + 1) after
      rw [List.cons_append, stringBody]
      · simp only [StringBody.after, value, length, List.length_cons, Option.map_some, true_and]
        omega
      · exact quoted
      · exact fun backslash => absurd backslash other
      · exact fun _ _ backslash => absurd backslash other

/-- A string that is never closed is reported. -/
theorem stringBody_reported (opened : (stringBody file quote pos cs).value? = none) :
    (stringBody file quote pos cs).problems ≠ [] := by
  fun_induction stringBody file quote pos cs with
  | case1 => simp
  | case2 => cases opened
  | case3 pos ih => simp [StringBody.after]
  | case4 pos c cs values _ ih => simpa [StringBody.after] using ih (Option.map_eq_none_iff.mp opened)
  | case5 pos c cs _ blanks _ ih => simpa [StringBody.after] using ih (Option.map_eq_none_iff.mp opened)
  | case6 pos c cs _ blanks _ ih => simp [StringBody.after]
  | case7 pos c cs _ _ _ ih => simpa [StringBody.after] using ih (Option.map_eq_none_iff.mp opened)

/-- A piece that makes a token lies in the source. -/
theorem lexeme_inside {kind : TokenKind} (made : (lexeme file pos c cs).kind? = some kind) :
    (lexeme file pos c cs).extra ≤ cs.length := by
  unfold lexeme at made ⊢
  split
  · exact takeWhile_length_le continuesName cs
  split
  · exact (number_within (Nat.le_refl _)).1
  split
  next word digit quote =>
    rw [if_neg word, if_neg digit, if_pos quote] at made
    obtain ⟨value, closed, _⟩ := Option.map_eq_some_iff.mp made
    obtain ⟨inner, after, same, length, _⟩ := stringBody_local closed
    simp only [length]
    simp [same]
  split
  · exact Nat.zero_le _
  split
  next follows =>
    obtain ⟨rest, rfl⟩ := List.head?_eq_some_iff.mp follows
    simp
  · split <;> exact Nat.zero_le _

/-- A piece that makes no token is reported. -/
theorem lexeme_reported (dropped : (lexeme file pos c cs).kind? = none) : (lexeme file pos c cs).problems ≠ [] := by
  unfold lexeme at dropped ⊢
  split
  next word => simp [if_pos word, Scan.word] at dropped
  split
  next word digit =>
    rw [if_neg word, if_pos digit] at dropped
    unfold number at dropped
    grind
  split
  next word digit quote =>
    rw [if_neg word, if_neg digit, if_pos quote] at dropped
    exact stringBody_reported (Option.map_eq_none_iff.mp dropped)
  split
  next word digit quote newline =>
    rw [if_neg word, if_neg digit, if_neg quote, if_pos newline] at dropped
    cases dropped
  grind

/-- **The scanner lays its tokens** over the characters that remain. -/
theorem body_laid (here : source.drop pos = cs) (silent : quiet → (body file pos cs).problems = []) :
    Laid quiet source pos (body file pos cs).tokens := by
  fun_induction body file pos cs with
  | case1 pos =>
    intro _
    rw [here]
    exact .nothing
  | case2 pos c cs gap found ih =>
    have quietly (holds : quiet) := List.append_eq_nil_iff.mp (silent holds)
    obtain ⟨least, _⟩ := gap_within found (Nat.le_refl _)
    have length : max 1 gap.length = gap.length - 1 + 1 := by omega
    have laid := ih (length ▸ drop_of_drop here) fun holds => (quietly holds).2
    refine laid.skip fun holds text rest follows separates => ?_
    rw [length] at follows ⊢
    rw [extract_of_drop here]
    rw [drop_of_drop here] at follows
    exact gap_separates found (quietly holds).1 follows separates
  | case3 pos c cs _ piece stop token? ih =>
    have quietly (holds : quiet) := List.append_eq_nil_iff.mp (silent holds)
    have place : stop = pos + (piece.extra + 1) := by omega
    have later : source.drop stop = cs.drop piece.extra := place ▸ drop_of_drop here
    have laid := ih later fun holds => (quietly holds).2
    cases made : piece.kind? with
    | none =>
      have dropped : token? = none := by simp [token?, made]
      simp only [Body.report, Body.cons?, dropped, Option.toList_none, List.nil_append]
      refine Laid.skip (n := piece.extra + 1) ?_ fun holds => absurd (quietly holds).1 (lexeme_reported made)
      exact place ▸ laid
    | some kind =>
      have kept : token? = some ⟨kind, String.ofList (c :: cs.take piece.extra), ⟨pos, stop, file⟩⟩ := by
        simp [token?, made]
      have short : piece.extra ≤ cs.length := lexeme_inside made
      have length : source.length - pos = cs.length + 1 := by
        rw [← List.length_drop, here, List.length_cons]
      simp only [Body.report, Body.cons?, kept, Option.toList_some, List.singleton_append]
      refine ⟨Nat.le_refl pos, by simp only; omega, by simp only; omega, ?_, fun _ => ?_, laid⟩
      · rw [place, extract_of_drop here]
      · rw [List.extract_eq_take_drop, Nat.sub_self]
        exact .nothing

namespace Laid

variable {quiet : Prop} {tokens : List Token}

theorem after (laid : Laid quiet source pos tokens) : ∀ token ∈ tokens, pos ≤ token.span.start := by
  induction tokens generalizing pos with
  | nil => simp
  | cons first tokens ih =>
    obtain ⟨after, wide, _, _, _, rest⟩ := laid
    refine List.forall_mem_cons.mpr ⟨after, fun token inside => ?_⟩
    have later := ih rest token inside
    omega

theorem ordered (laid : Laid quiet source pos tokens) : tokens.Pairwise fun a b => a.span.stop ≤ b.span.start := by
  induction tokens generalizing pos with
  | nil => exact .nil
  | cons first tokens ih =>
    obtain ⟨_, _, _, _, _, rest⟩ := laid
    exact .cons rest.after (ih rest)

theorem slices (laid : Laid quiet source pos tokens) : ∀ token ∈ tokens, token.span.start < token.span.stop ∧
    token.span.stop ≤ source.length ∧
    token.lexeme = String.ofList (source.extract token.span.start token.span.stop) := by
  induction tokens generalizing pos with
  | nil => simp
  | cons first tokens ih =>
    obtain ⟨_, wide, inside, slice, _, rest⟩ := laid
    exact List.forall_mem_cons.mpr ⟨⟨wide, inside, slice⟩, ih rest⟩

theorem separated (laid : Laid quiet source pos tokens) (holds : quiet) :
    ∀ place ∈ (pos :: tokens.map (·.span.stop)).zip (tokens.map (·.span.start) ++ [source.length]),
      Separates (source.drop place.2) (source.extract place.1 place.2) := by
  induction tokens generalizing pos with
  | nil =>
    simp only [List.map_nil, List.nil_append, List.zip_cons_cons, List.zip_nil_left, List.mem_singleton, forall_eq]
    rw [List.drop_length, List.extract_eq_take_drop, List.take_of_length_le (by simp)]
    exact laid holds
  | cons first tokens ih =>
    obtain ⟨_, _, _, _, between, rest⟩ := laid
    exact List.forall_mem_cons.mpr ⟨between holds, ih rest⟩

end Laid

/-- The tokens that the source spells. -/
def Result.spelled (result : Result) : List Token := result.tokens.filter Token.isSpelled

/-- What closes the last line and the file is not spelled; everything before it is. -/
theorem spelled_eq (source : String) (file : Nat) :
    (scan source file).spelled = (body file 0 source.toList).tokens := by
  have laid : Laid False source.toList 0 (body file 0 source.toList).tokens := body_laid rfl (by simp)
  have all : (body file 0 source.toList).tokens.filter Token.isSpelled = (body file 0 source.toList).tokens := by
    refine List.filter_eq_self.mpr fun token inside => ?_
    obtain ⟨wide, within, slice⟩ := laid.slices token inside
    have some : token.lexeme ≠ "" := by
      intro empty
      have length := congrArg String.length (slice.symm.trans empty)
      simp only [String.length_ofList, List.extract_eq_take_drop, List.length_take, List.length_drop,
        String.length_empty] at length
      omega
    simp [Token.isSpelled, body_open token inside, some]
  rw [Result.spelled, scan, close, List.filter_append, List.filter_append, all]
  split <;> simp [Token.isSpelled, Token.eof]

/-- The last line is closed by its own newline, or else by a token that is not spelled. -/
theorem close_ends (file : Nat) (body : Body) :
    ∃ front lineEnd last, (close file body).tokens = front ++ [lineEnd, last] ∧
    lineEnd.kind = .eol ∧ last.kind = .eof ∧ front <+: body.tokens := by
  let span : Span := ⟨body.finish, body.finish + 1, file⟩
  by_cases closed : body.tokens.getLast?.any (·.kind == .eol)
  · cases last : body.tokens.getLast? with
    | none => simp [last] at closed
    | some lineEnd =>
      obtain ⟨front, same⟩ := List.getLast?_eq_some_iff.mp last
      have isEol : lineEnd.kind = .eol := by simpa [last] using closed
      exact ⟨front, lineEnd, Token.eof span, by simp [close, same, isEol, span], isEol, rfl,
        same ▸ List.prefix_append _ _⟩
  · exact ⟨body.tokens, ⟨.eol, "", span⟩, Token.eof span, by simp [close, closed, span], rfl, rfl, List.prefix_rfl⟩

end Scan

/-- **Tokens tile their source.** The list ends with the end of a line and the end of the file, which stands nowhere
else. Every token that the source spells is a slice of it, the slices follow one another, and in a source without
lexical problems only separators stand before, between and after them. -/
theorem scan_tiles (source : String) (file : Nat) :
    (∃ front lineEnd last, (scan source file).tokens = front ++ [lineEnd, last] ∧
      lineEnd.kind = .eol ∧ last.kind = .eof ∧ ∀ token ∈ front, token.kind ≠ .eof) ∧
    (∀ token ∈ (scan source file).spelled, token.span.start < token.span.stop ∧ token.span.stop ≤ source.length ∧
      token.lexeme = String.ofList (source.toList.extract token.span.start token.span.stop)) ∧
    (scan source file).spelled.Pairwise (fun a b => a.span.stop ≤ b.span.start) ∧
    ((scan source file).problems = [] →
      ∀ place ∈ (0 :: (scan source file).spelled.map (·.span.stop)).zip
          ((scan source file).spelled.map (·.span.start) ++ [source.length]),
        Scan.Separates (source.toList.drop place.2) (source.toList.extract place.1 place.2)) := by
  have laid : Scan.Laid ((scan source file).problems = []) source.toList 0 (Scan.body file 0 source.toList).tokens :=
    Scan.body_laid rfl fun quiet => quiet
  rw [Scan.spelled_eq, ← String.length_toList]
  refine ⟨?_, laid.slices, laid.ordered, laid.separated⟩
  obtain ⟨front, lineEnd, last, same, isEol, isEof, inside⟩ := Scan.close_ends file (Scan.body file 0 source.toList)
  exact ⟨front, lineEnd, last, same, isEol, isEof, fun token member => Scan.body_open token (inside.subset member)⟩

end Quasicode
