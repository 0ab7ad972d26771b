/-! The operators of expressions: how they are written and how tightly they bind. -/
namespace Quasicode

inductive UnaryOp where
  | neg
  | not
deriving DecidableEq, Repr

inductive BinaryOp where
  | add | sub | mul
  | div
  /-- Division of whole numbers, written `div`. -/
  | intDiv
  | mod
  | eq | ne | lt | le | gt | ge
deriving DecidableEq, Repr

inductive LogicalOp where
  | and
  | or
deriving DecidableEq, Repr

/-- An operator that stands between two operands. -/
inductive Operator where
  | binary (op : BinaryOp)
  | logical (op : LogicalOp)
deriving DecidableEq, Repr

def UnaryOp.text : UnaryOp → String
  | neg => "-"
  | not => "not"

namespace BinaryOp

def text : BinaryOp → String
  | add => "+"
  | sub => "-"
  | mul => "*"
  | div => "/"
  | intDiv => "div"
  | mod => "mod"
  | eq => "=="
  | ne => "!="
  | lt => "<"
  | le => "<="
  | gt => ">"
  | ge => ">="

def isComparison : BinaryOp → Bool
  | lt | le | gt | ge => true
  | _ => false

def isEquality : BinaryOp → Bool
  | eq | ne => true
  | _ => false

end BinaryOp

def LogicalOp.text : LogicalOp → String
  | and => "and"
  | or => "or"

namespace Operator

/-- The precedence of the type test `is`, which takes a type on its right. -/
def isPrecedence : Nat := 5

end Operator

end Quasicode
