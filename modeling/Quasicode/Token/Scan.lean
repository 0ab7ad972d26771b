import Quasicode.Diagnostic
import Quasicode.Token

/-!
Scanning cuts a source text into tokens. Lines matter, so a newline is a token; blanks, comments and joined
lines separate tokens and are dropped. A character that starts no token is reported and dropped.

Every piece is found on the characters that remain and is described by how many of them it takes, so the
scan ends because each round leaves fewer characters. A string that is never closed takes one character
more than there are: the end of the file then lies one place further on.
-/
namespace Quasicode.Scan

/-! ## Character classes -/

def isBlank (c : Char) : Bool := c == ' ' || c == '\t' || c == '\r'

/-- Names start with a letter of the basic Latin alphabet. -/
def startsName (c : Char) : Bool := c.isAlpha

/-- Names go on with letters, digits and underscores. -/
def continuesName (c : Char) : Bool := c.isAlphanum || c == '_'

/-! ## What lies between tokens -/

/-- The characters of a line comment up to the newline that ends it; a backslash right before a newline
carries the comment over it. -/
def lineCommentLength : List Char → Nat
  | [] => 0
  | '\\' :: '\n' :: cs => lineCommentLength cs + 2
  | c :: cs => if c = '\n' then 0 else lineCommentLength cs + 1

/-- The characters of a block comment after its opening, and whether it is closed. Block comments nest;
`depth` counts those that are open around this one. -/
def blockCommentLength (depth : Nat) : List Char → Nat × Bool
  | [] => (0, false)
  | '*' :: '/' :: cs =>
    match depth with
    | 0 => (2, true)
    | outer + 1 =>
      let (length, closed) := blockCommentLength outer cs
      (length + 2, closed)
  | '/' :: '*' :: cs =>
    let (length, closed) := blockCommentLength (depth + 1) cs
    (length + 2, closed)
  | _ :: cs =>
    let (length, closed) := blockCommentLength depth cs
    (length + 1, closed)

/-- A piece of text that separates tokens. -/
structure Gap where
  length : Nat
  problems : List Diagnostic := []

/-- The piece between tokens that starts at `pos` with the characters `c :: cs`, if one does. -/
def gap? (file pos : Nat) (c : Char) (cs : List Char) : Option Gap :=
  if isBlank c then some { length := 1 }
  else if c = '\\' then
    let blanks := (cs.takeWhile isBlank).length
    match cs.drop blanks with
    | [] => some { length := 1 + blanks }
    | next :: _ =>
      if next = '\n' then some { length := 1 + blanks + 1 }
      else
        let at_ := pos + 1 + blanks
        some { length := 1 + blanks, problems := [⟨.badLineContinuation, ⟨at_, at_ + 1, file⟩⟩] }
  else if c = '/' then
    match cs with
    | '/' :: _ => some { length := 1 + lineCommentLength cs }
    | '*' :: rest =>
      let (length, closed) := blockCommentLength 0 rest
      some {
        length := 2 + length
        problems := if closed then [] else [⟨.unterminatedComment, ⟨pos, pos + 2, file⟩⟩] }
    | _ => none
  else none

/-! ## Literals -/

/-- What a piece of source text amounts to: a token, if it makes one, the number of its characters after
the first one, and what is wrong with it. -/
structure Lexeme where
  kind? : Option TokenKind
  extra : Nat
  problems : List Diagnostic := []

/-- The body of a string literal: its value if it is closed, how many characters it takes with the closing
quote, and what is wrong with it. -/
structure StringBody where
  value? : Option (List Char)
  length : Nat
  problems : List Diagnostic := []

namespace StringBody

/-- The same body after `count` more characters in front of it, of which `values` is the value. -/
def after (count : Nat) (values : List Char) (problems : List Diagnostic) (body : StringBody) :
    StringBody where
  value? := body.value?.map (values ++ ·)
  length := count + body.length
  problems := problems ++ body.problems

end StringBody

/-- The characters that a backslash and the given character stand for. -/
def escaped? (c : Char) : Option (List Char) :=
  if c = '\\' then some ['\\']
  else if c = 't' then some ['\t']
  else if c = 'r' then some ['\r']
  else if c = 'n' then some ['\n']
  else if c = '"' then some ['"']
  else if c = '\n' then some []
  else none

theorem length_drop_lt (n : Nat) (first second : Char) (cs : List Char) :
    (cs.drop n).length < (first :: second :: cs).length := by
  rw [List.length_drop, List.length_cons, List.length_cons]
  omega

/-- Reads a string literal after its opening quote. `quote` is the place of that quote and `pos` the place
of the first character of the list. -/
def stringBody (file quote pos : Nat) : List Char → StringBody
  | [] => {
      value? := none
      length := 1
      problems := [⟨.unterminatedString, ⟨quote, quote + 1, file⟩⟩] }
  | '"' :: _ => { value? := some [], length := 1 }
  | '\\' :: [] =>
    (stringBody file quote (pos + 1) []).after 1 [] [⟨.emptyEscape, ⟨pos, pos + 1, file⟩⟩]
  | '\\' :: c :: cs =>
    match escaped? c with
    | some values => (stringBody file quote (pos + 2) cs).after 2 values []
    | none =>
      let blanks := if isBlank c then (cs.takeWhile isBlank).length else 0
      if isBlank c && (cs.drop blanks).head? = some '\n' then
        (stringBody file quote (pos + 3 + blanks) (cs.drop (blanks + 1))).after (3 + blanks) [] []
      else
        (stringBody file quote (pos + 2) cs).after 2 [] [⟨.invalidEscape c, ⟨pos, pos + 2, file⟩⟩]
  | c :: cs => (stringBody file quote (pos + 1) cs).after 1 [c] []
termination_by cs => cs.length
decreasing_by
  · exact Nat.zero_lt_one
  · exact Nat.lt_add_of_pos_right Nat.zero_lt_two
  · exact length_drop_lt _ _ _ _
  · exact Nat.lt_add_of_pos_right Nat.zero_lt_two
  · exact Nat.lt_succ_self _

/-- The value of a list of decimal digits. -/
def digitsValue (digits : List Char) : Nat :=
  digits.foldl (fun value c => 10 * value + (c.toNat - '0'.toNat)) 0

/-- The greatest integer literal. -/
def maxInt : Nat := Nat.pow 2 63 - 1

/-- A number literal: digits, perhaps a point and more digits, perhaps a letter that makes it a double
(`f`) or an integer (`l`). A fraction before `l` is cut off. -/
def number (file pos : Nat) (c : Char) (cs : List Char) : Lexeme :=
  let whole := c :: cs.takeWhile Char.isDigit
  let rest := cs.dropWhile Char.isDigit
  let fraction := match rest with
    | '.' :: after => after.takeWhile Char.isDigit
    | _ => []
  let text := if fraction.isEmpty then whole else whole ++ '.' :: fraction
  let suffix := (c :: cs)[text.length]?
  let extra := if suffix = some 'f' || suffix = some 'l' then text.length else text.length - 1
  let double := Double.ofDecimal (digitsValue (whole ++ fraction)) fraction.length
  if suffix = some 'f' || (!fraction.isEmpty && suffix ≠ some 'l') then
    { kind? := some (.doubleLit double), extra }
  else if !fraction.isEmpty then
    { kind? := some (.intLit double.truncate.toNat), extra }
  else if digitsValue whole ≤ maxInt then
    { kind? := some (.intLit (digitsValue whole)), extra }
  else {
    kind? := some (.intLit 0)
    extra
    problems := [⟨.numberOutOfRange (String.ofList text), ⟨pos, pos + 1 + extra, file⟩⟩] }

/-- A name or a keyword. -/
def word (c : Char) (cs : List Char) : Lexeme :=
  let tail := cs.takeWhile continuesName
  let name := String.ofList (c :: tail)
  let kind := match Keyword.ofString? name with
    | some keyword => .keyword keyword
    | none => .ident name
  { kind? := some kind, extra := tail.length }

/-- Signs of one character. -/
def sign? (c : Char) : Option Sign :=
  if c = '+' then some .plus
  else if c = '-' then some .minus
  else if c = '*' then some .star
  else if c = '/' then some .slash
  else if c = '=' then some .eq
  else if c = '<' then some .lt
  else if c = '>' then some .gt
  else if c = '.' then some .dot
  else if c = ':' then some .colon
  else if c = '(' then some .leftParen
  else if c = ')' then some .rightParen
  else if c = '{' then some .leftBrace
  else if c = '}' then some .rightBrace
  else if c = '[' then some .leftBracket
  else if c = ']' then some .rightBracket
  else if c = ',' then some .comma
  else none

/-- Signs that an equals sign extends. -/
def signEq? (c : Char) : Option Sign :=
  if c = '=' then some .eqEq
  else if c = '!' then some .ne
  else if c = '<' then some .le
  else if c = '>' then some .ge
  else none

/-- The piece that starts at `pos` with the characters `c :: cs`, where no gap starts. -/
def lexeme (file pos : Nat) (c : Char) (cs : List Char) : Lexeme :=
  if startsName c then word c cs
  else if c.isDigit then number file pos c cs
  else if c = '"' then
    let body := stringBody file pos (pos + 1) cs
    { kind? := body.value?.map fun value => .stringLit (String.ofList value)
      extra := body.length
      problems := body.problems }
  else if c = '\n' then { kind? := some .eol, extra := 0 }
  else
    match signEq? c, cs.head? with
    | some extended, some '=' => { kind? := some (.sign extended), extra := 1 }
    | _, _ =>
      match sign? c with
      | some s => { kind? := some (.sign s), extra := 0 }
      | none => {
          kind? := none
          extra := 0
          problems := [⟨.unexpectedChar c, ⟨pos, pos + 1, file⟩⟩] }

/-! ## The whole source -/

/-- Tokens and diagnostics in source order. -/
structure Result where
  tokens : List Token
  problems : List Diagnostic

/-- The tokens before the end of the file, the diagnostics, and the place of the end. -/
structure Body where
  tokens : List Token
  problems : List Diagnostic
  finish : Nat

namespace Body

/-- Diagnostics in front of a body. -/
def report (problems : List Diagnostic) (body : Body) : Body :=
  { body with problems := problems ++ body.problems }

/-- A token in front of a body, if there is one. -/
def cons? (token? : Option Token) (body : Body) : Body :=
  { body with tokens := token?.toList ++ body.tokens }

end Body

/-- Scans the characters that remain at `pos`. -/
def body (file pos : Nat) : List Char → Body
  | [] => { tokens := [], problems := [], finish := pos }
  | c :: cs =>
    match gap? file pos c cs with
    | some gap =>
      (body file (pos + max 1 gap.length) (cs.drop (gap.length - 1))).report gap.problems
    | none =>
      let piece := lexeme file pos c cs
      let stop := pos + 1 + piece.extra
      let token? := piece.kind?.map fun kind =>
        ⟨kind, String.ofList (c :: cs.take piece.extra), ⟨pos, stop, file⟩⟩
      ((body file stop (cs.drop piece.extra)).cons? token?).report piece.problems
termination_by cs => cs.length

/-- Closes the last line, unless a newline has closed it, and the file. -/
def close (file : Nat) (body : Body) : Result :=
  let span : Span := ⟨body.finish, body.finish + 1, file⟩
  let lineEnd := if body.tokens.getLast?.any (·.kind == .eol) then [] else [⟨.eol, "", span⟩]
  { tokens := body.tokens ++ lineEnd ++ [Token.eof span], problems := body.problems }

end Quasicode.Scan

namespace Quasicode

/-- Cuts a source text into tokens. The list always closes with the end of a line and of the file. -/
def scan (source : String) (file : Nat := 0) : Scan.Result :=
  Scan.close file (Scan.body file 0 source.toList)

end Quasicode
