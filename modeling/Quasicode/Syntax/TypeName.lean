import Quasicode.Diagnostic
import Quasicode.Ty.Join

/-!
Type names are types as they are written in a source text. Two type names are equal when they read the
same, wherever they stand. A class is declared under its signature, which spells out the template
arguments even when there are none.
-/
namespace Quasicode

/-- A name with its place. -/
structure Ident where
  name : String
  span : Span
deriving DecidableEq, Repr

inductive TypeName where
  | int (span : Span)
  | double (span : Span)
  | boolean (span : Span)
  | any (span : Span)
  | array (element : TypeName) (span : Span)
  | ofClass (name : String) (arguments : List TypeName) (span : Span)
  /-- The template parameter `name` of the class `owner`. -/
  | parameter (name owner : String) (span : Span)
deriving Repr

namespace TypeName

def span : TypeName → Span
  | int s | double s | boolean s | any s | array _ s | ofClass _ _ s | parameter _ _ s => s

mutual

/-- The written form of a type name. -/
def text : TypeName → String
  | int _ => "int"
  | double _ => "double"
  | boolean _ => "boolean"
  | any _ => "any"
  | array element _ => "[" ++ element.text ++ "]"
  | ofClass name [] _ => name
  | ofClass name (first :: rest) _ => name ++ "<" ++ ", ".intercalate (texts (first :: rest)) ++ ">"
  | parameter name _ _ => name
termination_by structural t => t

/-- The written forms of several type names. -/
def texts : List TypeName → List String
  | [] => []
  | first :: rest => first.text :: texts rest
termination_by structural ts => ts

end

/-- The key under which a class with the given template arguments is declared. -/
def signature (name : String) (arguments : List TypeName) : String :=
  name ++ "<" ++ ", ".intercalate (texts arguments) ++ ">"

mutual

/-- Equality of type names: by spelling, not by place. -/
def same : TypeName → TypeName → Bool
  | int _, int _ => true
  | double _, double _ => true
  | boolean _, boolean _ => true
  | any _, any _ => true
  | array a _, array b _ => same a b
  | ofClass a as _, ofClass b bs _ => a == b && sameAll as bs
  | parameter a aOwner _, parameter b bOwner _ => a == b && aOwner == bOwner
  | _, _ => false
termination_by structural a => a

/-- Equality of lists of type names. -/
def sameAll : List TypeName → List TypeName → Bool
  | [], [] => true
  | a :: as, b :: bs => same a b && sameAll as bs
  | _, _ => false
termination_by structural as => as

end

instance : BEq TypeName := ⟨same⟩

/-- Why a type name denotes no type. -/
inductive Unresolved where
  | unknownClass (name : String) (span : Span)
  | templateParameter
deriving DecidableEq, Repr

/-- The type that a type name denotes among the given classes. -/
def resolve (classes : ClassView) : TypeName → Except Unresolved Ty
  | int _ => .ok .int
  | double _ => .ok .double
  | boolean _ => .ok .boolean
  | any _ => .ok .any
  | array element _ => do return .array (← resolve classes element)
  | ofClass name arguments span =>
    let written := text (ofClass name arguments span)
    match classes.bySignature (signature name arguments) with
    | some id => .ok (.ofClass written id)
    | none => .error (.unknownClass written span)
  | parameter _ _ _ => .error .templateParameter

end TypeName

end Quasicode
