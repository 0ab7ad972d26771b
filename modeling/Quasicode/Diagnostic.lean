import Quasicode.Diagnostic.Grammar
import Quasicode.Source.Span

/-!
Diagnostics: what is wrong with a source text and where. Every cause has one wording, one stable code and
one phase. The third digit of a code tells the group of the cause: 1 scanner, 2 grammar, 3 names,
4 control flow, 5 types.
-/
namespace Quasicode

/-- What can be wrong with a source text. -/
inductive Cause where
  | unexpectedChar (c : Char)
  | unterminatedString
  | unterminatedComment
  | invalidEscape (c : Char)
  | emptyEscape
  | badLineContinuation
  | numberOutOfRange (text : String)
  | grammar (error : GrammarError)
  | expectedExpr
  | expectedType
  | unknownIdentifier (name : String)
  | redeclaration (name : String)
  | useInOwnDeclaration
  | useBeforeClassReady
  | methodBeforeClassReady (name : String)
  | circularReference
  | instanceVariableFromStatic
  | instanceMemberInStaticContext (name : String)
  | thisOutsideMethod
  | superOutsideClass
  | superInRootClass
  | superOutsideMethod
  | superCallOutsideConstructor
  | superCallNotFirst
  | noSuperMember (cls member : String)
  | inheritsFromItself (name : String)
  | overrideStaticMismatch
  | overrideReturnMismatch
  | assignToFunction (name : String)
  | assignToClass (name : String)
  | retypeVariable
  | breakOutsideLoop
  | continueOutsideLoop
  | returnAtTopLevel
  | returnValueFromConstructor
  | staticConstructor
  | templateNotSupported (name : String)
  | unknownType (name : String)
  | missingReturn (type : String)
  | thisBeforeInit
  | fieldBeforeInit (name : String)
  | instanceMethodBeforeInit
  | returnBeforeInit
  | implicitReturnBeforeInit
  | noMatchingFunction
  | ambiguousCall
  | cannotCast (source target : String)
  | immutableAssign
  | notBoolean (type : String)
  | notInt (type : String)
  | subscriptNotInt
  | notAnArray
  | capacityNotInt
  | binaryOperands (op left right : String)
  | logicalOperands (op : String)
  | unaryNotOperand (op : String)
  | unaryNegOperand (op : String)
  | cannotInput (type : String)
  | voidInitializer
  | missingReturnValue
  | unexpectedReturnValue
  | noMember (type member : String)
  | privateMember (name : String)
  | staticMemberOnInstance (name type : String)
  | instanceMemberOnType (name type : String)
deriving DecidableEq, Repr

/-- The part of the front end that finds a cause. Control flow is checked with the names; what keeps a
source text from being read at all belongs to the surroundings. -/
inductive Phase where
  | scan
  | parse
  | resolve
  | type
  | surroundings
deriving DecidableEq, Repr

namespace Cause

/-- The wording of a cause. -/
def message : Cause → String
  | unexpectedChar c => s!"Unexpected character {c}"
  | unterminatedString => "Unterminated string literal"
  | unterminatedComment => "Unterminated '/*' comment"
  | invalidEscape c => s!"Invalid escape sequence \"\\{c}\""
  | emptyEscape => "Empty escape sequence"
  | badLineContinuation => "Expected end-of-line after line continuation"
  | numberOutOfRange text => s!"Number literal '{text}' is out of range"
  | grammar error => error.message
  | expectedExpr => "Expect expression"
  | expectedType => "Expect type"
  | unknownIdentifier name => s!"Use of unknown identifier {name}"
  | redeclaration name => s!"Invalid redeclaration of '{name}'"
  | useInOwnDeclaration => "Use of variable within its own declaration"
  | useBeforeClassReady => "Use of variable within class before class is available"
  | methodBeforeClassReady name => s!"Call to method '{name}' before class is available"
  | circularReference => "Circular reference"
  | instanceVariableFromStatic => "Use of instance variable from a static method"
  | instanceMemberInStaticContext name =>
    s!"Instance member '{name}' cannot be used in a static context"
  | thisOutsideMethod => "Cannot use 'this' outside of a method"
  | superOutsideClass => "'super' cannot be referenced outside of a class"
  | superInRootClass => "'super' cannot be referenced in a root class"
  | superOutsideMethod => "'super' cannot be referenced outside of a method"
  | superCallOutsideConstructor => "'super' cannot be called outside of a constructor"
  | superCallNotFirst => "Call to 'super' must be first statement in constructor"
  | noSuperMember cls member => s!"Superclass '{cls}' has no member '{member}'"
  | inheritsFromItself name => s!"'{name}' inherits from itself"
  | overrideStaticMismatch => "Static does not match for overriding method"
  | overrideReturnMismatch => "Return type does not match for overriding method"
  | assignToFunction name => s!"Cannot assign to value: '{name}' is a function"
  | assignToClass name => s!"Cannot assign to value: '{name}' is a class"
  | retypeVariable => "Cannot retype variable after first assignment"
  | breakOutsideLoop => "Can't use 'break' outside of loop"
  | continueOutsideLoop => "Can't use 'continue' outside of loop"
  | returnAtTopLevel => "Cannot return from top-level code"
  | returnValueFromConstructor => "Cannot return a value from a constructor"
  | staticConstructor => "Constructor declaration cannot be marked 'static'"
  | templateNotSupported name => s!"Template classes are not supported: '{name}'"
  | unknownType name => s!"Cannot find type '{name}' in scope"
  | missingReturn type => s!"Missing return in function expected to return '{type}'"
  | thisBeforeInit => "'this' is unavailable until all stored properties are initialized"
  | fieldBeforeInit name => s!"Variable 'this.{name}' used before being initialized"
  | instanceMethodBeforeInit =>
    "Instance methods cannot be called before all stored properties are initialized"
  | returnBeforeInit => "Return from initializer without initializing all stored properties"
  | implicitReturnBeforeInit =>
    "Implicit return from initializer without initializing all stored properties"
  | noMatchingFunction => "No matching function to call"
  | ambiguousCall => "Function call is ambiguous"
  | cannotCast source target => s!"Type '{source}' cannot be cast to '{target}'"
  | immutableAssign => "Cannot assign to immutable value"
  | notBoolean type => s!"Type '{type}' cannot be used as a boolean"
  | notInt type => s!"Type '{type}' cannot be used as an int"
  | subscriptNotInt => "Array subscript is not an integer"
  | notAnArray => "Subscripted expression is not an array"
  | capacityNotInt => "Expect type 'int' for array capacity"
  | binaryOperands op left right =>
    s!"Binary operator '{op}' cannot be applied to operands of type '{left}' and '{right}'"
  | logicalOperands op =>
    s!"Binary operator '{op}' can only be applied to operands of type 'boolean' and 'boolean'"
  | unaryNotOperand op =>
    s!"Unary operator '{op}' can only be applied to an operand of type 'boolean'"
  | unaryNegOperand op =>
    s!"Unary operator '{op}' can only be applied to an operand of type 'int' or 'double'"
  | cannotInput type => s!"Cannot input to type '{type}'"
  | voidInitializer => "Variable cannot be initialized with a value of type '<Void>'"
  | missingReturnValue => "Non-void function should return a value"
  | unexpectedReturnValue => "Unexpected non-void return value in void function"
  | noMember type member => s!"Value of type '{type}' has no member '{member}'"
  | privateMember name => s!"'{name}' is inaccessible due to 'private' protection level"
  | staticMemberOnInstance name type =>
    s!"Static member '{name}' cannot be used on instance of type '{type}'"
  | instanceMemberOnType name type =>
    s!"Instance member '{name}' cannot be used on type '{type}'"

/-- The stable code of a cause. -/
def code : Cause → String
  | unexpectedChar _ => "E0101"
  | unterminatedString => "E0102"
  | unterminatedComment => "E0103"
  | invalidEscape _ => "E0104"
  | emptyEscape => "E0105"
  | badLineContinuation => "E0106"
  | numberOutOfRange _ => "E0107"
  | grammar _ => "E0201"
  | expectedExpr => "E0202"
  | expectedType => "E0203"
  | unknownIdentifier _ => "E0301"
  | redeclaration _ => "E0302"
  | useInOwnDeclaration => "E0303"
  | useBeforeClassReady => "E0304"
  | circularReference => "E0305"
  | instanceVariableFromStatic => "E0306"
  | instanceMemberInStaticContext _ => "E0307"
  | thisOutsideMethod => "E0308"
  | superOutsideClass => "E0309"
  | superInRootClass => "E0310"
  | superOutsideMethod => "E0311"
  | superCallOutsideConstructor => "E0312"
  | superCallNotFirst => "E0313"
  | noSuperMember _ _ => "E0314"
  | inheritsFromItself _ => "E0315"
  | overrideStaticMismatch => "E0316"
  | overrideReturnMismatch => "E0317"
  | assignToFunction _ => "E0318"
  | assignToClass _ => "E0319"
  | retypeVariable => "E0320"
  | breakOutsideLoop => "E0321"
  | continueOutsideLoop => "E0322"
  | returnAtTopLevel => "E0323"
  | returnValueFromConstructor => "E0324"
  | staticConstructor => "E0325"
  | templateNotSupported _ => "E0326"
  | unknownType _ => "E0327"
  | methodBeforeClassReady _ => "E0328"
  | missingReturn _ => "E0401"
  | thisBeforeInit => "E0402"
  | fieldBeforeInit _ => "E0403"
  | instanceMethodBeforeInit => "E0404"
  | returnBeforeInit => "E0405"
  | implicitReturnBeforeInit => "E0406"
  | noMatchingFunction => "E0501"
  | ambiguousCall => "E0502"
  | cannotCast _ _ => "E0503"
  | immutableAssign => "E0504"
  | notBoolean _ => "E0505"
  | notInt _ => "E0506"
  | subscriptNotInt => "E0507"
  | notAnArray => "E0508"
  | capacityNotInt => "E0509"
  | binaryOperands _ _ _ => "E0510"
  | logicalOperands _ => "E0511"
  | unaryNotOperand _ => "E0512"
  | unaryNegOperand _ => "E0513"
  | cannotInput _ => "E0514"
  | voidInitializer => "E0515"
  | missingReturnValue => "E0516"
  | unexpectedReturnValue => "E0517"
  | noMember _ _ => "E0518"
  | privateMember _ => "E0519"
  | staticMemberOnInstance _ _ => "E0520"
  | instanceMemberOnType _ _ => "E0521"

/-- The phase that finds a cause. -/
def phase : Cause → Phase
  | unexpectedChar _ | unterminatedString | unterminatedComment | invalidEscape _ | emptyEscape
  | badLineContinuation | numberOutOfRange _ => .scan
  | grammar _ | expectedExpr | expectedType => .parse
  | noMatchingFunction | ambiguousCall | cannotCast _ _ | immutableAssign | notBoolean _ | notInt _
  | subscriptNotInt | notAnArray | capacityNotInt | binaryOperands _ _ _ | logicalOperands _
  | unaryNotOperand _ | unaryNegOperand _ | cannotInput _ | voidInitializer | missingReturnValue
  | unexpectedReturnValue | noMember _ _ | privateMember _ | staticMemberOnInstance _ _
  | instanceMemberOnType _ _ => .type
  | _ => .resolve

end Cause

/-- A cause and the place where it shows. -/
structure Diagnostic where
  cause : Cause
  span : Span
deriving DecidableEq, Repr

namespace Diagnostic

def message (d : Diagnostic) : String := d.cause.message

/-- A departure from the grammar at a span. -/
def grammar (error : GrammarError) (span : Span) : Diagnostic := ⟨.grammar error, span⟩

end Diagnostic

end Quasicode
