import Quasicode.Number.Double
import Quasicode.Operator
import Quasicode.Syntax.TypeName

/-!
Expressions. The reader of the grammar leaves the slots of a node empty; binding fills in the symbols and
typing the types, the targets of calls, and a `widen` node around every value that is converted.
-/
namespace Quasicode

inductive Literal where
  | int (value : Nat)
  | double (value : Double)
  | bool (value : Bool)
  | string (value : String)
deriving DecidableEq, Repr

/-- What a call runs. -/
inductive CallTarget where
  | unique (id : SymbolId)
  /-- The method to run by the class of the receiver, in ascending order of classes. -/
  | byClass (methods : List (SymbolId × SymbolId))
deriving DecidableEq, Repr

/-- What every node carries: its place, and its type once it is checked. -/
structure NodeInfo where
  span : Span
  type : Option ValueTy := none
deriving Repr

mutual

inductive Expr where
  | group (info : NodeInfo) (inner : Expr)
  | literal (info : NodeInfo) (value : Literal)
  | arrayLiteral (info : NodeInfo) (values : List Expr)
  /-- A class in front of one of its static members. -/
  | classRef (info : NodeInfo) (type : TypeName) (classId : Option SymbolId)
  | this (info : NodeInfo) (symbol : Option SymbolId)
  | superField (info : NodeInfo) (property : Ident) (superclass field : Option SymbolId)
  | var (info : NodeInfo) (name : Ident) (symbol : Option SymbolId)
  | subscript (info : NodeInfo) (array index : Expr)
  | call (info : NodeInfo) (callee : Callee) (name : Ident) (arguments : List Expr)
      (target : Option CallTarget)
  | member (info : NodeInfo) (object : Expr) (property : Ident) (field : Option SymbolId)
  | unary (info : NodeInfo) (op : UnaryOp) (operand : Expr)
  | cast (info : NodeInfo) (target : TypeName) (value : Expr)
  | newArray (info : NodeInfo) (type : TypeName) (capacities : List Expr)
  | newObject (info : NodeInfo) (type : TypeName) (arguments : List Expr)
      (target : Option SymbolId)
  | binary (info : NodeInfo) (left : Expr) (op : BinaryOp) (right : Expr)
  | logical (info : NodeInfo) (left : Expr) (op : LogicalOp) (right : Expr)
  /-- A plain variable on the left of an assignment; `first` tells whether it is declared there. -/
  | assignee (info : NodeInfo) (name : Ident) (typeName : Option TypeName)
      (symbol : Option SymbolId) (first : Option Bool)
  | isType (info : NodeInfo) (value : Expr) (type : TypeName) (tested : Option Ty)
  /-- A value converted to a wider type. -/
  | widen (info : NodeInfo) (inner : Expr)

/-- The receiver of a call. -/
inductive Callee where
  | free
  | object (receiver : Expr)
  | super
  | superConstructor

end

namespace Expr

def info : Expr → NodeInfo
  | group i _ | literal i _ | arrayLiteral i _ | classRef i _ _ | this i _ | superField i _ _ _
  | var i _ _ | subscript i _ _ | call i _ _ _ _ | member i _ _ _ | unary i _ _ | cast i _ _
  | newArray i _ _ | newObject i _ _ _ | binary i _ _ _ | logical i _ _ _ | assignee i _ _ _ _
  | isType i _ _ _ | widen i _ => i

/-- The same node with other information. -/
def withInfo (info : NodeInfo) : Expr → Expr
  | group _ e => group info e
  | literal _ v => literal info v
  | arrayLiteral _ es => arrayLiteral info es
  | classRef _ t id => classRef info t id
  | this _ s => this info s
  | superField _ p c f => superField info p c f
  | var _ n s => var info n s
  | subscript _ a i => subscript info a i
  | call _ c n es t => call info c n es t
  | member _ o p f => member info o p f
  | unary _ op e => unary info op e
  | cast _ t e => cast info t e
  | newArray _ t es => newArray info t es
  | newObject _ t es id => newObject info t es id
  | binary _ l op r => binary info l op r
  | logical _ l op r => logical info l op r
  | assignee _ n a s f => assignee info n a s f
  | isType _ e t ty => isType info e t ty
  | widen _ e => widen info e

def span (e : Expr) : Span := e.info.span

/-- The type of a checked node; an error for one that was never checked. -/
def valueTy (e : Expr) : ValueTy := e.info.type.getD { type := .error }

def type (e : Expr) : Ty := e.valueTy.type

/-- The same node with its type. -/
def typed (e : Expr) (type : ValueTy) : Expr := e.withInfo { e.info with type := some type }

def isVar : Expr → Bool
  | var _ _ _ => true
  | _ => false

def isThis : Expr → Bool
  | this _ _ => true
  | _ => false

def isClassRef : Expr → Bool
  | classRef _ _ _ => true
  | _ => false

end Expr

end Quasicode
