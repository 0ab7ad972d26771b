import Quasicode.Id

/-!
Types of checked expressions and symbols. Two class types are the same type when they name the same class,
whatever the name is spelled like. The type `error` stands for a problem that has been reported, so that
nothing that depends on it is reported again.
-/
namespace Quasicode

inductive Ty where
  | int
  | double
  | boolean
  | any
  | void
  | error
  | array (element : Ty)
  | ofClass (name : String) (id : SymbolId)
deriving Repr, Inhabited

namespace Ty

/-- Equality of types: by shape, and by the class for class types. -/
def same : Ty → Ty → Bool
  | int, int => true
  | double, double => true
  | boolean, boolean => true
  | any, any => true
  | void, void => true
  | error, error => true
  | array a, array b => same a b
  | ofClass _ a, ofClass _ b => a == b
  | _, _ => false

instance : BEq Ty := ⟨same⟩

/-- The written form of a type. -/
def text : Ty → String
  | int => "int"
  | double => "double"
  | boolean => "boolean"
  | any => "any"
  | void => "<Void>"
  | error => "<Error>"
  | array element => "[" ++ element.text ++ "]"
  | ofClass name _ => name

def isError : Ty → Bool
  | error => true
  | _ => false

def isVoid : Ty → Bool
  | void => true
  | _ => false

def isAny : Ty → Bool
  | any => true
  | _ => false

def isNumeric : Ty → Bool
  | int => true
  | double => true
  | _ => false

/-- The types of plain values: int, double and boolean. -/
def isNative : Ty → Bool
  | int => true
  | double => true
  | boolean => true
  | _ => false

def classId? : Ty → Option SymbolId
  | ofClass _ id => some id
  | _ => none

def element? : Ty → Option Ty
  | array element => some element
  | _ => none

/-- Equality for checks: an error matches nothing. -/
def isMatch (a b : Ty) : Bool :=
  !a.isError && !b.isError && a == b

end Ty

/-- The type of one occurrence of an expression, and whether it denotes a place that can be assigned. -/
structure ValueTy where
  type : Ty
  assignable : Bool := false
deriving Repr, Inhabited

end Quasicode
