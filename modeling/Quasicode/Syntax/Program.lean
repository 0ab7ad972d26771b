import Quasicode.Syntax.Expr

/-!
Statements and programs. Functions and classes stand at the top level only, so a statement never holds one;
a program is a list of items. Blocks, functions and classes have slots for the scope and the symbols that
binding creates for them.
-/
namespace Quasicode

inductive Visibility where
  | exposed
  | hidden
deriving DecidableEq, Repr

/-- The assignment `left = chained = … = value`. -/
structure Assignment where
  left : Expr
  chained : List Expr
  value : Expr
  span : Span

mutual

inductive Stmt where
  | eval (value : Expr)
  | branch (condition : Expr) (body : Block) (elseIfs : List ElseIf) (otherwise : Option Block)
      (span : Span)
  | output (values : List Expr) (span : Span)
  | input (targets : List Expr) (span : Span)
  | ret (value : Option Expr) (span : Span)
  /-- A loop whose variable counts from one number to another. -/
  | count (counter : Ident) (symbol : Option SymbolId) (first last : Expr) (body : Block)
      (span : Span)
  | repeatWhile (condition : Expr) (body : Block) (span : Span)
  | leave (span : Span)
  | next (span : Span)
  | exit (span : Span)
  | assignAll (parts : List Assignment) (span : Span)
  | assign (part : Assignment)

/-- Statements with a scope of their own. -/
structure Block where
  stmts : List Stmt
  scope : Option ScopeId
  span : Span

structure ElseIf where
  condition : Expr
  block : Block

end

structure Param where
  name : Ident
  typeName : Option TypeName
  default : Option Expr
  symbol : Option SymbolId := none

/-- A free function, or the function of a method. -/
structure Function where
  name : Ident
  params : List Param
  /-- The declared type of the result; without one the function returns nothing. -/
  returns : Option TypeName
  body : List Stmt
  /-- The place of the closing line, where the body returns if it has not returned before. -/
  endSpan : Span
  symbol : Option SymbolId := none
  /-- The overload set of the function. -/
  overloads : Option SymbolId := none
  scope : Option ScopeId := none
  /-- The place of the signature. -/
  span : Span

structure Method where
  staticSpan : Option Span
  visibility : Visibility
  function : Function

def Method.isStatic (m : Method) : Bool := m.staticSpan.isSome

structure Field where
  name : Ident
  isStatic : Bool
  visibility : Visibility
  typeName : TypeName
  initializer : Option Expr
  symbol : Option SymbolId := none

structure Class where
  name : Ident
  templateParams : List Ident
  superclass : Option TypeName
  methods : List Method
  fields : List Field
  symbol : Option SymbolId := none
  /-- The symbols that stand for the object and for the class itself within the class. -/
  instanceThis : Option SymbolId := none
  staticThis : Option SymbolId := none
  scope : Option ScopeId := none
  /-- The place of the header. -/
  span : Span

/-- What stands at the top level of a program. -/
inductive Item where
  | cls (decl : Class)
  | function (decl : Function)
  | stmt (body : Stmt)

structure Program where
  items : List Item

end Quasicode
