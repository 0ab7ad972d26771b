import Quasicode.Proofs.ScanTiling

/-!
Scanning is stable. Whether some characters make a token is settled by these characters alone as soon as a blank follows
them; so the tokens of a source, written with one blank after each, are scanned again as they are.
-/
namespace Quasicode

/-- What a token says, wherever it stands. -/
def Token.content (token : Token) : TokenKind × String := (token.kind, token.lexeme)

namespace Scan

variable {file pos : Nat} {c : Char} {cs rest : List Char} {kind : TokenKind}

/-- The text makes a token of this kind wherever a blank follows it. -/
def Stands (kind : TokenKind) (text : List Char) : Prop :=
  ∃ c tail, text = c :: tail ∧ ∀ file pos rest, gap? file pos c (tail ++ ' ' :: rest) = none ∧
    (lexeme file pos c (tail ++ ' ' :: rest)).kind? = some kind ∧
    (lexeme file pos c (tail ++ ' ' :: rest)).extra = tail.length

/-- A token starts where neither a blank nor a backslash nor a comment does. -/
theorem gap_none_iff : gap? file pos c cs = none ↔
    isBlank c = false ∧ c ≠ '\\' ∧ (c = '/' → cs.head? ≠ some '/' ∧ cs.head? ≠ some '*') := by
  unfold gap?
  by_cases blank : isBlank c
  · simp [blank]
  rw [if_neg blank]
  by_cases backslash : c = '\\'
  · rw [if_pos backslash]
    extract_lets blanks
    split
    · simp [backslash]
    · split <;> simp [backslash]
  rw [if_neg backslash]
  by_cases slash : c = '/'
  · rw [if_pos slash]
    split
    · simp [slash]
    · simp [slash]
    next line block =>
      have head (mark : Char) (other : ∀ tail, cs = mark :: tail → False) : cs.head? ≠ some mark := by
        intro first
        obtain ⟨tail, same⟩ := List.head?_eq_some_iff.mp first
        exact other tail same
      exact ⟨fun _ => ⟨by simpa using blank, backslash, fun _ => ⟨head '/' line, head '*' block⟩⟩, fun _ => rfl⟩
  · simp [blank, backslash, slash]

/-! ## Words and numbers -/

theorem takeWhile_stop {p : Char → Bool} {front : List Char} (all : front.all p)
    (stops : ∀ c, rest.head? = some c → p c = false) :
    (front ++ rest).takeWhile p = front ∧ (front ++ rest).dropWhile p = rest := by
  rw [List.takeWhile_append_of_pos (List.all_eq_true.mp all), List.dropWhile_append_of_pos (List.all_eq_true.mp all)]
  cases rest with
  | nil => simp
  | cons c rest => simp [stops c rfl]

theorem word_local (c : Char) (cs rest : List Char) :
    word c (cs.takeWhile continuesName ++ ' ' :: rest) = word c cs := by
  have stops : ∀ c, (' ' :: rest).head? = some c → continuesName c = false := by
    rintro c ⟨⟩
    decide
  simp only [word, (takeWhile_stop List.all_takeWhile stops).1]

/-- The digits after the point of a number. -/
def fraction (cs : List Char) : List Char :=
  match cs.dropWhile Char.isDigit with
  | '.' :: after => after.takeWhile Char.isDigit
  | _ => []

/-- A number without the letter that may mark it. -/
def numeral (c : Char) (cs : List Char) : List Char :=
  if (fraction cs).isEmpty then c :: cs.takeWhile Char.isDigit else c :: cs.takeWhile Char.isDigit ++ '.' :: fraction cs

/-- The letter that marks a number. -/
def mark (c : Char) (cs : List Char) : List Char :=
  if (c :: cs)[(numeral c cs).length]? = some 'f' then ['f']
  else if (c :: cs)[(numeral c cs).length]? = some 'l' then ['l']
  else []

theorem fraction_point {digits after : List Char} (all : digits.all Char.isDigit) :
    fraction (digits ++ '.' :: after) = after.takeWhile Char.isDigit := by
  have stops : ∀ c, ('.' :: after).head? = some c → c.isDigit = false := by
    rintro c ⟨⟩
    decide
  simp only [fraction, (takeWhile_stop all stops).2]

theorem fraction_whole {digits : List Char} (all : digits.all Char.isDigit)
    (stops : ∀ c, rest.head? = some c → c.isDigit = false ∧ c ≠ '.') : fraction (digits ++ rest) = [] := by
  rw [fraction, (takeWhile_stop all fun c here => (stops c here).1).2]
  split
  next after => exact absurd rfl (stops '.' rfl).2
  · rfl

/-- A numeral is read from its own characters, as long as neither a digit nor a point follows it. -/
theorem numeral_local (c : Char) (cs : List Char) : ∃ tail after, numeral c cs = c :: tail ∧ cs = tail ++ after ∧
    ∀ rest, (∀ c, rest.head? = some c → c.isDigit = false ∧ c ≠ '.') →
      (tail ++ rest).takeWhile Char.isDigit = cs.takeWhile Char.isDigit ∧ fraction (tail ++ rest) = fraction cs := by
  have digits : (cs.takeWhile Char.isDigit).all Char.isDigit := List.all_takeWhile
  cases shape : fraction cs with
  | nil =>
    refine ⟨cs.takeWhile Char.isDigit, cs.dropWhile Char.isDigit, by simp [numeral, shape],
      List.takeWhile_append_dropWhile.symm, fun rest stops => ⟨?_, fraction_whole digits stops⟩⟩
    exact (takeWhile_stop digits fun c here => (stops c here).1).1
  | cons first others =>
    have whole : cs = cs.takeWhile Char.isDigit ++ cs.dropWhile Char.isDigit := List.takeWhile_append_dropWhile.symm
    have pointed := shape
    unfold fraction at pointed
    split at pointed
    next after here =>
      rw [here] at whole
      refine ⟨cs.takeWhile Char.isDigit ++ '.' :: first :: others, after.dropWhile Char.isDigit,
        by simp [numeral, shape], ?_, fun rest stops => ?_⟩
      · rw [List.append_assoc, List.cons_append, ← pointed, List.takeWhile_append_dropWhile]
        exact whole
      · have more : (first :: others).all Char.isDigit := pointed ▸ List.all_takeWhile
        rw [List.append_assoc, List.cons_append, fraction_point digits]
        refine ⟨(takeWhile_stop digits (by rintro c ⟨⟩; decide)).1, ?_⟩
        exact (takeWhile_stop more fun c here => (stops c here).1).1
    · cases pointed

/-- A number is its numeral and its mark. -/
theorem number_extra (file pos : Nat) (c : Char) (cs : List Char) :
    (number file pos c cs).extra + 1 = (numeral c cs ++ mark c cs).length := by
  unfold number
  extract_lets whole rest decimals text suffix extra value
  have nonempty : 1 ≤ text.length := by
    simp only [text]
    split <;> simp [whole]
  have length : extra + 1 = (numeral c cs ++ mark c cs).length := by
    have marked : mark c cs = if suffix = some 'f' then ['f'] else if suffix = some 'l' then ['l'] else [] := rfl
    rw [List.length_append, marked, show numeral c cs = text from rfl]
    simp only [extra, Bool.or_eq_true, decide_eq_true_eq]
    grind
  clear_value extra
  repeat' split
  all_goals exact length

/-- What a number is depends on its digits and its mark only. -/
theorem number_agrees {cs' : List Char} {file' pos' : Nat}
    (sameWhole : cs.takeWhile Char.isDigit = cs'.takeWhile Char.isDigit)
    (sameFraction : fraction cs = fraction cs') (sameMark : mark c cs = mark c cs') :
    (number file pos c cs).kind? = (number file' pos' c cs').kind? := by
  have double : (c :: cs)[(numeral c cs).length]? = some 'f' ↔ (c :: cs')[(numeral c cs').length]? = some 'f' := by
    unfold mark at sameMark
    grind
  have int : (c :: cs)[(numeral c cs).length]? = some 'l' ↔ (c :: cs')[(numeral c cs').length]? = some 'l' := by
    unfold mark at sameMark
    grind
  unfold number
  extract_lets whole rest decimals text suffix extra value whole' rest' decimals' text' suffix' extra' value'
  replace sameWhole : whole = whole' := congrArg (c :: ·) sameWhole
  replace sameFraction : decimals = decimals' := sameFraction
  replace double : suffix = some 'f' ↔ suffix' = some 'f' := double
  replace int : suffix = some 'l' ↔ suffix' = some 'l' := int
  have sameValue : value = value' := by simp only [value, value', sameWhole, sameFraction]
  clear_value value value' extra extra' suffix suffix' text text' decimals decimals' whole whole'
  subst sameWhole sameFraction sameValue
  simp only [ne_eq, double, int]
  repeat' split
  all_goals rfl

/-- The mark of a number is the letter after its numeral. -/
theorem mark_append {tail after : List Char} (same : numeral c (tail ++ after) = c :: tail) :
    mark c (tail ++ after) = if after.head? = some 'f' then ['f'] else if after.head? = some 'l'
      then ['l'] else [] := by
  have next : (c :: (tail ++ after))[(numeral c (tail ++ after)).length]? = after.head? := by
    rw [same, List.length_cons, List.getElem?_cons_succ, List.getElem?_append_right (Nat.le_refl _),
      Nat.sub_self, List.head?_eq_getElem?]
  rw [mark, next]

/-- **A number is read from its own characters.** -/
theorem number_local (file pos : Nat) (c : Char) (cs : List Char) : ∃ tail after, cs = tail ++ after ∧
    (number file pos c cs).extra = tail.length ∧ ∀ file' pos' rest,
      (number file' pos' c (tail ++ ' ' :: rest)).kind? = (number file pos c cs).kind? ∧
      (number file' pos' c (tail ++ ' ' :: rest)).extra = tail.length := by
  obtain ⟨tail, after, same, rfl, again⟩ := numeral_local c cs
  have marked := mark_append same
  obtain ⟨later, follows⟩ : mark c (tail ++ after) <+: after := by
    rw [marked]
    cases after with
    | nil => simp
    | cons first after =>
      simp only [List.head?_cons, Option.some.injEq]
      split
      next double => exact ⟨after, by simp [double]⟩
      split
      next int => exact ⟨after, by simp [int]⟩
      · exact List.nil_prefix
  have extra := number_extra file pos c (tail ++ after)
  rw [same, List.length_append, List.length_cons] at extra
  refine ⟨tail ++ mark c (tail ++ after), later, by rw [List.append_assoc, follows], ?_, fun file' pos' rest => ?_⟩
  · rw [List.length_append]
    omega
  rw [List.append_assoc]
  have stops : ∀ c', (mark c (tail ++ after) ++ ' ' :: rest).head? = some c' → c'.isDigit = false ∧ c' ≠ '.' := by
    rw [marked]
    split
    · rintro _ ⟨⟩
      decide
    split
    · rintro _ ⟨⟩
      decide
    · rintro _ ⟨⟩
      decide
  obtain ⟨sameWhole, sameFraction⟩ := again _ stops
  have same' : numeral c (tail ++ (mark c (tail ++ after) ++ ' ' :: rest)) = c :: tail := by
    rw [← same, numeral, numeral, sameWhole, sameFraction]
  have sameMark : mark c (tail ++ (mark c (tail ++ after) ++ ' ' :: rest)) = mark c (tail ++ after) := by
    rw [mark_append same', marked]
    split
    · rfl
    split
    · rfl
    · rfl
  have extra' := number_extra file' pos' c (tail ++ (mark c (tail ++ after) ++ ' ' :: rest))
  rw [same', sameMark, List.length_append, List.length_cons] at extra'
  refine ⟨number_agrees sameWhole sameFraction sameMark, ?_⟩
  rw [List.length_append]
  omega

/-! ## Any token -/

/-- What starts a token still does if a blank cuts it short, for a slash only if nothing comes before the blank. -/
theorem Stands.intro {tail : List Char} (starts : gap? file pos c cs = none) (short : c = '/' → tail = [])
    (again : ∀ file pos rest, (lexeme file pos c (tail ++ ' ' :: rest)).kind? = some kind ∧
      (lexeme file pos c (tail ++ ' ' :: rest)).extra = tail.length) : Stands kind (c :: tail) := by
  obtain ⟨blank, backslash, _⟩ := gap_none_iff.mp starts
  refine ⟨c, tail, rfl, fun file pos rest => ⟨gap_none_iff.mpr ⟨blank, backslash, fun slash => ?_⟩,
    again file pos rest⟩⟩
  rw [short slash]
  simp

/-- **A token is read from its own characters**, as soon as a blank follows them. -/
theorem lexeme_stands (starts : gap? file pos c cs = none) (made : (lexeme file pos c cs).kind? = some kind) :
    Stands kind (c :: cs.take (lexeme file pos c cs).extra) := by
  unfold lexeme at made ⊢
  by_cases name : startsName c
  · rw [if_pos name] at made ⊢
    have taken : cs.take (word c cs).extra = cs.takeWhile continuesName :=
      (List.prefix_iff_eq_take.mp (List.takeWhile_prefix _)).symm
    rw [taken]
    refine .intro starts (by rintro rfl; cases name) fun file pos rest => ?_
    rw [lexeme, if_pos name, word_local]
    exact ⟨made, rfl⟩
  rw [if_neg name] at made ⊢
  by_cases digit : c.isDigit
  · rw [if_pos digit] at made ⊢
    obtain ⟨tail, after, same, extra, again⟩ := number_local file pos c cs
    rw [extra, same, List.take_left]
    refine .intro starts (by rintro rfl; cases digit) fun file' pos' rest => ?_
    rw [lexeme, if_neg name, if_pos digit, (again file' pos' rest).1]
    exact ⟨made, (again file' pos' rest).2⟩
  rw [if_neg digit] at made ⊢
  by_cases quote : c = '"'
  · rw [if_pos quote] at made ⊢
    obtain ⟨value, closed, rfl⟩ := Option.map_eq_some_iff.mp made
    obtain ⟨inner, after, same, length, again⟩ := stringBody_local closed
    have taken : cs.take (stringBody file pos (pos + 1) cs).length = inner ++ ['"'] := by
      rw [length, same, List.append_cons, List.take_left' (by simp)]
    simp only [taken]
    refine .intro starts (by rintro rfl; cases quote) fun file' pos' rest => ?_
    obtain ⟨value', length'⟩ := again file' pos' (pos' + 1) (' ' :: rest)
    rw [lexeme, if_neg name, if_neg digit, if_pos quote, List.append_assoc]
    exact ⟨congrArg (Option.map _) value', by simpa using length'⟩
  rw [if_neg quote] at made ⊢
  by_cases newline : c = '\n'
  · rw [if_pos newline] at made ⊢
    cases made
    refine .intro starts (fun _ => rfl) fun file' pos' rest => ?_
    rw [lexeme, if_neg name, if_neg digit, if_neg quote, if_pos newline]
    exact ⟨rfl, rfl⟩
  rw [if_neg newline] at made ⊢
  split
  next extended marked follows =>
    obtain ⟨after, rfl⟩ := List.head?_eq_some_iff.mp follows
    simp only [marked, follows] at made
    cases made
    refine .intro starts (by rintro rfl; cases marked) fun file' pos' rest => ?_
    simp [lexeme, name, digit, quote, newline, marked]
  next single =>
    cases found : sign? c with
    | none =>
      split at made
      next extended marked follows => exact absurd follows (single extended marked)
      · simp [found] at made
    | some sign =>
      have made' : kind = .sign sign := by
        split at made
        next extended marked follows => exact absurd follows (single extended marked)
        · simpa [found, eq_comm] using made
      subst made'
      refine .intro starts (fun _ => rfl) fun file' pos' rest => ?_
      rw [lexeme, if_neg name, if_neg digit, if_neg quote, if_neg newline]
      split
      next extended marked follows => cases follows
      · simp [found]

/-- The tokens of a text stand by themselves. -/
theorem body_stands : ∀ token ∈ (body file pos cs).tokens, Stands token.kind token.lexeme.toList := by
  fun_induction body file pos cs with
  | case1 => simp
  | case2 pos c cs gap _ ih => exact ih
  | case3 pos c cs starts piece stop token? ih =>
    refine List.forall_mem_append.mpr ⟨fun token inside => ?_, ih⟩
    obtain ⟨kind, made, rfl⟩ := Option.map_eq_some_iff.mp (Option.mem_toList.mp inside)
    rw [String.toList_ofList]
    exact lexeme_stands starts made

/-- Tokens with a blank after each. -/
def spaced (tokens : List Token) : List Char := tokens.flatMap fun token => token.lexeme.toList ++ [' ']

theorem body_blank (file pos : Nat) (cs : List Char) : body file pos (' ' :: cs) = body file (pos + 1) cs := by
  rw [body]
  rfl

/-- **Tokens that stand by themselves are scanned again** when a blank follows each. -/
theorem body_spaced {tokens : List Token} (stand : ∀ token ∈ tokens, Stands token.kind token.lexeme.toList)
    (ends : ∀ file pos, (body file pos rest).tokens = []) :
    (body file pos (spaced tokens ++ rest)).tokens.map Token.content = tokens.map Token.content := by
  induction tokens generalizing pos with
  | nil => rw [spaced, List.flatMap_nil, List.nil_append, ends]
  | cons token tokens ih =>
    obtain ⟨⟨c, tail, text, again⟩, others⟩ := List.forall_mem_cons.mp stand
    have whole : spaced (token :: tokens) ++ rest = c :: (tail ++ ' ' :: (spaced tokens ++ rest)) := by
      simp [spaced, text]
    obtain ⟨starts, made, length⟩ := again file pos (spaced tokens ++ rest)
    have lexeme : token.lexeme = String.ofList (c :: tail) := by rw [← text, String.ofList_toList]
    rw [whole, body, starts]
    simp only [made, length, List.take_left, List.drop_left, body_blank, Body.report, Body.cons?, Option.map_some,
      Option.toList_some, List.singleton_append, List.map_cons, ih others]
    rw [Token.content, Token.content, lexeme]

/-- How the last line is closed depends on what the tokens say, not on where they stand. -/
theorem close_content {front front' : Body} {file file' : Nat}
    (same : front.tokens.map Token.content = front'.tokens.map Token.content) :
    (close file front).tokens.map Token.content = (close file' front').tokens.map Token.content := by
  have ended (tokens : List Token) : tokens.getLast?.any
      (·.kind == .eol) = (tokens.map Token.content).getLast?.any (·.1 == .eol) := by
    rw [List.getLast?_map, Option.any_map]
    rfl
  simp only [close, List.map_append, same, ended]
  split <;> simp [Token.content, Token.eof]

theorem intercalate_blank (texts : List (List Char)) :
    [' '].intercalate (texts ++ [[]]) = texts.flatMap (· ++ [' ']) := by
  induction texts with
  | nil => rfl
  | cons text texts ih =>
    cases texts with
    | nil => simp [List.intercalate]
    | cons => simpa [List.intercalate] using ih

end Scan

/-- **Scanning is stable**: the tokens of a source, joined by single blanks, are scanned with
the same kinds and lexemes. -/
theorem scan_respaced (source : String) (file file' : Nat) :
    (scan (" ".intercalate ((scan source file).tokens.map Token.lexeme)) file').tokens.map Token.content =
      (scan source file).tokens.map Token.content := by
  apply Scan.close_content
  obtain ⟨lineEnd, same, blank⟩ : ∃ lineEnd,
      (scan source file).tokens = (Scan.body file 0 source.toList).tokens ++ lineEnd ++
      [Token.eof ⟨_, _, file⟩] ∧ ∀ file pos, (Scan.body file pos (Scan.spaced lineEnd)).tokens = [] := by
    refine ⟨_, rfl, ?_⟩
    split
    · simp [Scan.spaced, Scan.body]
    · simp [Scan.spaced, Scan.body_blank, Scan.body]
  have text : (" ".intercalate ((scan source file).tokens.map Token.lexeme)).toList =
      Scan.spaced (Scan.body file 0 source.toList).tokens ++ Scan.spaced lineEnd := by
    rw [String.toList_intercalate, same]
    have joined := Scan.intercalate_blank (((Scan.body file 0 source.toList).tokens ++ lineEnd).map
      fun token => token.lexeme.toList)
    simpa [Scan.spaced, Token.eof, List.flatMap_map, Function.comp_def] using joined
  rw [text]
  exact Scan.body_spaced Scan.body_stands blank

end Quasicode
