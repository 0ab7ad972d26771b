import Quasicode.Number.Shortest
import Quasicode.Operator
import Quasicode.Source.Span
import Quasicode.Text.Quoted

/-!
Tokens: keywords, names, literals, operators and delimiters, and the end of a line or of the file. The
keywords that act as operators or that print and read have an upper-case spelling beside the lower-case
one.
-/
namespace Quasicode

inductive Keyword where
  | int | double | boolean | any | new
  | true | false
  | loop | «from» | «to» | «while» | «until» | «if» | «then» | «else» | «break» | «continue» | exit
  | mod | div | and | or | not | is
  | output | input | function | «return»
  | «class» | «extends» | «private» | «public» | static | this | super | «end»
deriving DecidableEq, Repr

/-- Operators and delimiters made of signs. -/
inductive Sign where
  | plus | minus | star | slash
  | eq | eqEq | ne | lt | le | gt | ge
  | dot | leftParen | rightParen | leftBrace | rightBrace | leftBracket | rightBracket | comma | colon
deriving DecidableEq, Repr

inductive TokenKind where
  | keyword (word : Keyword)
  | ident (name : String)
  | intLit (value : Nat)
  | doubleLit (value : Double)
  | stringLit (value : String)
  | sign (sign : Sign)
  | eol
  | eof
deriving DecidableEq, Repr

/-- A token with the source characters it is made of and their place. -/
structure Token where
  kind : TokenKind
  lexeme : String
  span : Span
deriving DecidableEq, Repr

namespace Keyword

/-- The name of a keyword in token listings. -/
def label : Keyword → String
  | int => "Int"
  | double => "Double"
  | boolean => "Boolean"
  | any => "Any"
  | new => "New"
  | true => "True"
  | false => "False"
  | loop => "Loop"
  | «from» => "From"
  | «to» => "To"
  | «while» => "While"
  | «until» => "Until"
  | «if» => "If"
  | «then» => "Then"
  | «else» => "Else"
  | «break» => "Break"
  | «continue» => "Continue"
  | exit => "Exit"
  | mod => "Mod"
  | div => "Div"
  | and => "And"
  | or => "Or"
  | not => "Not"
  | is => "Is"
  | output => "Output"
  | input => "Input"
  | function => "Function"
  | «return» => "Return"
  | «class» => "Class"
  | «extends» => "Extends"
  | «private» => "Private"
  | «public» => "Public"
  | static => "Static"
  | this => "This"
  | super => "Super"
  | «end» => "End"

/-- Every spelling of a keyword. -/
def spellings : List (String × Keyword) :=
  [("int", int), ("double", double), ("boolean", boolean), ("any", any), ("new", new),
   ("true", true), ("false", false),
   ("loop", loop), ("from", «from»), ("to", «to»), ("while", «while»), ("until", «until»), ("if", «if»),
   ("then", «then»), ("else", «else»), ("break", «break»), ("continue", «continue»), ("exit", exit),
   ("mod", mod), ("MOD", mod), ("div", div), ("DIV", div), ("and", and), ("AND", and), ("or", or),
   ("OR", or), ("not", not), ("NOT", not), ("is", is), ("IS", is),
   ("output", output), ("OUTPUT", output), ("input", input), ("INPUT", input),
   ("function", function), ("return", «return»),
   ("class", «class»), ("extends", «extends»), ("private", «private»), ("public", «public»),
   ("static", static), ("this", this), ("super", super), ("end", «end»)]

/-- The keyword that a word spells. -/
def ofString? (word : String) : Option Keyword := spellings.lookup word

end Keyword

/-- The name of a sign in token listings. -/
def Sign.label : Sign → String
  | plus => "Plus"
  | minus => "Minus"
  | star => "Star"
  | slash => "Slash"
  | eq => "Eq"
  | eqEq => "EqEq"
  | ne => "Ne"
  | lt => "Lt"
  | le => "Le"
  | gt => "Gt"
  | ge => "Ge"
  | dot => "Dot"
  | leftParen => "LParen"
  | rightParen => "RParen"
  | leftBrace => "LBrace"
  | rightBrace => "RBrace"
  | leftBracket => "LBracket"
  | rightBracket => "RBracket"
  | comma => "Comma"
  | colon => "Colon"

namespace TokenKind

def isKeyword : TokenKind → Bool
  | keyword _ => true
  | _ => false

/-- How a token is shown in a listing. -/
def text : TokenKind → String
  | keyword word => word.label
  | ident name => s!"identifier '{name}'"
  | intLit value => s!"integer {value}"
  | doubleLit value => "float " ++ value.text
  | stringLit value => "string " ++ Text.quoted value
  | sign s => s.label
  | eol => "end-of-line"
  | eof => "end-of-file"

/-- How tightly the operator that a token writes binds its operands. The type test `is` is not among them. -/
def binaryPrecedence : TokenKind → Option Nat
  | keyword .or => some 1
  | keyword .and => some 2
  | sign .eqEq | sign .ne => some 3
  | sign .lt | sign .le | sign .gt | sign .ge => some 4
  | sign .plus | sign .minus => some 6
  | sign .star | sign .slash | keyword .div | keyword .mod => some 7
  | _ => none

/-- The operator that a token writes between two operands. -/
def operator? : TokenKind → Option Operator
  | keyword .or => some (.logical .or)
  | keyword .and => some (.logical .and)
  | sign .eqEq => some (.binary .eq)
  | sign .ne => some (.binary .ne)
  | sign .lt => some (.binary .lt)
  | sign .le => some (.binary .le)
  | sign .gt => some (.binary .gt)
  | sign .ge => some (.binary .ge)
  | sign .plus => some (.binary .add)
  | sign .minus => some (.binary .sub)
  | sign .star => some (.binary .mul)
  | sign .slash => some (.binary .div)
  | keyword .div => some (.binary .intDiv)
  | keyword .mod => some (.binary .mod)
  | _ => none

/-- A token that binds operands writes an operator. -/
theorem operator_of_precedence {kind : TokenKind} {precedence : Nat} (binds : kind.binaryPrecedence = some precedence) :
    ∃ op, kind.operator? = some op := by
  unfold binaryPrecedence at binds
  split at binds <;> first | exact ⟨_, rfl⟩ | cases binds

end TokenKind

namespace Token

/-- The token that closes every token list. -/
def eof (span : Span) : Token := ⟨.eof, "", span⟩

end Token

end Quasicode
