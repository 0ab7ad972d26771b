import Quasicode.Typing.Context

/-! The types of operators, casts and array literals. -/
namespace Quasicode.Typing

open Analysis

/-- Whether values of two types can be compared for equality. -/
def isComparable (left right : Ty) : Analysis Bool := do
  let common ← join left right
  let numbers := left.isNumeric && right.isNumeric
  let booleans := left == .boolean && right == .boolean
  let arrays := left.element?.isSome && right.element?.isSome &&
    (left == right || common.element?.any fun element => !element.isAny)
  let objects := left.classId?.isSome && right.classId?.isSome && !common.isAny
  return numbers || booleans || arrays || objects

/-- The type of the result of a binary operator, if it takes operands of the given types. -/
def binaryType (op : BinaryOp) (left right : Ty) : Analysis (Option Ty) := do
  let numbers := left.isNumeric && right.isNumeric
  if op.isComparison then
    return if numbers then some .boolean else none
  else if op.isEquality then
    return if ← isComparable left right then some .boolean else none
  else if op = .mod then
    return if left == .int && right == .int then some .int else none
  else if op = .add && (← isString left) && (← isString right) then
    return some (← stringType)
  else if numbers then
    return some (← join left right)
  else
    return none

/-- Types a binary operator with typed operands. Numbers of two kinds are both read as the wider kind. -/
def typeBinary (info : NodeInfo) (left : Expr) (op : BinaryOp) (right : Expr) : Analysis Expr := do
  if left.type.isError || right.type.isError then
    return (Expr.binary info left op right).typed { type := .error }
  else
    match ← binaryType op left.type right.type with
    | some ty =>
      if left.type.isNumeric && right.type.isNumeric then
        let common ← join left.type right.type
        let left ← widenTo common left
        let right ← widenTo common right
        return (Expr.binary info left op right).typed { type := ty }
      else
        return (Expr.binary info left op right).typed { type := ty }
    | none =>
      report (.binaryOperands op.text left.type.text right.type.text) info.span
      return (Expr.binary info left op right).typed { type := .error }

/-- The type of a logical operator is boolean, whatever its operands are. -/
def checkLogical (op : LogicalOp) (left right : Ty) (span : Span) : Analysis Unit := do
  if !left.isError && !right.isError && !(left == .boolean && right == .boolean) then
    report (.logicalOperands op.text) span

/-- The type of a unary operator. -/
def unaryType (op : UnaryOp) (operand : Ty) (span : Span) : Analysis Ty := do
  if operand.isError then
    return .error
  else
    match op with
    | .not =>
      if operand == .boolean then
        return .boolean
      else
        report (.unaryNotOperand op.text) span
        return .error
    | .neg =>
      if operand.isNumeric then
        return operand
      else
        report (.unaryNegOperand op.text) span
        return .error

/-- Whether a value can be cast: to its own type, from and to `any`, between numbers, and along a chain of
classes. -/
def isCastable (source target : Ty) : Analysis Bool := do
  if source == target || source.isAny || target.isAny || (source.isNumeric && target.isNumeric) then
    return true
  else if source.classId?.isNone || target.classId?.isNone then
    return false
  else
    let common ← join source target
    return common == source || common == target

/-- The type of a subscripted array. -/
def subscriptType (array : Ty) (span : Span) : Analysis ValueTy := do
  match array with
  | .error => return { type := .error }
  | .any => return { type := .any, assignable := true }
  | .array element => return { type := element, assignable := true }
  | _ =>
    report .notAnArray span
    return { type := .error }

/-- The join of the types of the elements of an array literal; an empty one holds anything. -/
def elementType : List Ty → Analysis Ty
  | [] => return .any
  | first :: rest => rest.foldlM join first

/-- Types an array literal with typed elements, each widened to the common type. -/
def typeArrayLiteral (info : NodeInfo) (values : List Expr) : Analysis Expr := do
  let element ← elementType (values.map Expr.type)
  if element.isError || element.isVoid then
    return (Expr.arrayLiteral info values).typed { type := .error }
  else
    let values ← values.mapM (widenTo element)
    return (Expr.arrayLiteral info values).typed { type := .array element }

end Quasicode.Typing
