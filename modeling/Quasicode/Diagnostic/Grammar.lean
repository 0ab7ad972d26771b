/-! The ways in which a token stream can leave the grammar, and their wording. -/
namespace Quasicode

/-- What the end of a line was expected after. -/
inductive LineEnding where
  | classSignature
  | endClass
  | fieldDeclaration
  | functionSignature
  | endFunction
  | outputStatement
  | inputStatement
  | returnStatement
  | jump (keyword : String)
  | ifCondition
  | elseKeyword
  | endIf
  | loopCondition
  | upperRange
  | endLoop
  | setStatement
  | expression
deriving DecidableEq, Repr

def LineEnding.text : LineEnding → String
  | classSignature => "class signature"
  | endClass => "'end class'"
  | fieldDeclaration => "field declaration"
  | functionSignature => "function signature"
  | endFunction => "'end function'"
  | outputStatement => "output statement"
  | inputStatement => "input statement"
  | returnStatement => "return statement"
  | jump keyword => s!"'{keyword}'"
  | ifCondition => "if condition"
  | elseKeyword => "else"
  | endIf => "'end if'"
  | loopCondition => "loop condition"
  | upperRange => "upper looping range"
  | endLoop => "'end loop'"
  | setStatement => "set statement"
  | expression => "expression"

/-- A departure from the grammar. -/
inductive GrammarError where
  | lineEnd (after : LineEnding)
  | functionNotGlobal
  | classNotGlobal
  | className
  | superclassName
  | templateParameter
  | templateParametersClose
  | classExtendsOther
  | repeatedVisibility
  | repeatedStatic
  | memberDeclaration
  | classEnd
  | fieldName
  | fieldType
  | staticFieldValue
  | functionName
  | parametersOpen
  | parameterName
  | parametersClose
  | functionEnd
  | thenAfterCondition
  | ifEnd
  | loopVariable
  | fromAfterVariable
  | toAfterRange
  | loopEnd
  | retypedExpression
  | equalsSign
  | typeAfterNew
  | bracketClose
  | classToAllocate
  | allocationClose
  | argumentsClose
  | notCallable
  | propertyName
  | memberOfType
  | memberName
  | braceClose
  | superMember
  | groupClose
  | templatedNonClass
  | templateClose
deriving DecidableEq, Repr

def GrammarError.message : GrammarError → String
  | lineEnd after => "Expect end-of-line after " ++ after.text
  | functionNotGlobal => "Function declaration must be in global scope or within a class"
  | classNotGlobal => "Class declaration must be global"
  | className => "Expect class name."
  | superclassName => "Expect class name"
  | templateParameter => "Expect template parameter"
  | templateParametersClose => "Expect '>' following template parameters"
  | classExtendsOther => "Only classes can be extended"
  | repeatedVisibility => "Repeated visibility modifier"
  | repeatedStatic => "Repeated static modifier"
  | memberDeclaration => "Expect method or field declaration"
  | classEnd => "Expect 'end class' after class declaration"
  | fieldName => "Expect field name"
  | fieldType => "Expect type annotation for field declaration"
  | staticFieldValue => "Static field requires an initial value"
  | functionName => "Expect function name"
  | parametersOpen => "Expect '(' after function declaration"
  | parameterName => "Expect parameter name"
  | parametersClose => "Expect ')' after parameters"
  | functionEnd => "Expect 'end function' after function declaration"
  | thenAfterCondition => "Expect 'then' after if condition"
  | ifEnd => "Expect 'end if' after if statement"
  | loopVariable => "Expect looping variable"
  | fromAfterVariable => "Expect 'from' after looping variable"
  | toAfterRange => "Expect 'to' after lower looping range"
  | loopEnd => "Expect 'end loop' after loop statement"
  | retypedExpression => "Cannot retype expression"
  | equalsSign => "Expect '='"
  | typeAfterNew => "Expect type after 'new'"
  | bracketClose => "Expect ']' after '['"
  | classToAllocate => "Expect class"
  | allocationClose => "Expect ')' after '('"
  | argumentsClose => "Expect ')' after arguments."
  | notCallable => "Expression cannot be called"
  | propertyName => "Expect property name after '.'."
  | memberOfType => "Expected member name or constructor call after type name"
  | memberName => "Expect member name following '.'"
  | braceClose => "Expect '\x7d' after '\x7b'"
  | superMember => "Expect property name or call after 'super'."
  | groupClose => "Expect ')' after expression."
  | templatedNonClass => "Non-classes cannot be templated"
  | templateClose => "Expect '>' after template"

end Quasicode
