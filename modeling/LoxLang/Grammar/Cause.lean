import LoxLang.Token.Basic

/-!
Why a text is no program: the construct that the grammar asks for, and the token found instead.
-/

namespace LoxLang

/-- The two ways to introduce a function, as messages name them. -/
inductive FunctionForm where
  | function
  | method
deriving DecidableEq

def FunctionForm.text : FunctionForm → String
  | function => "function"
  | method => "method"

inductive SyntaxCause where
  | noExpression
  | noEndOfExpression
  | noClassName
  | noSuperclassName
  | noClassBody
  | noClassEnd
  | noFunctionName (form : FunctionForm)
  | noParameterList (form : FunctionForm)
  | noAnonymousParameterList
  | noParameterName
  | noParameterListEnd
  | noFunctionBody (form : FunctionForm)
  | noBlockEnd
  | noVariableName
  | noVariableEnd
  | noForClauses
  | noForConditionEnd
  | noForClausesEnd
  | noIfCondition
  | noIfConditionEnd
  | noWhileCondition
  | noWhileConditionEnd
  | noPrintEnd
  | noReturnEnd
  | noStatementEnd
  | noPropertyName
  | noArgumentsEnd
  | noSuperDot
  | noSuperMethod
  | noGroupEnd
  | tooManyParameters
  | tooManyArguments
  | invalidTarget
deriving DecidableEq

def SyntaxCause.message : SyntaxCause → String
  | noExpression => "Expect expression."
  | noEndOfExpression => "Expect end of expression."
  | noClassName => "Expect class name."
  | noSuperclassName => "Expect superclass name."
  | noClassBody => "Expect '\x7b' before class body."
  | noClassEnd => "Expect '\x7d' after class body."
  | noFunctionName form => "Expect " ++ form.text ++ " name."
  | noParameterList form => "Expect '(' after " ++ form.text ++ " name."
  | noAnonymousParameterList => "Expect '(' after 'fun'."
  | noParameterName => "Expect parameter name."
  | noParameterListEnd => "Expect ')' after parameters."
  | noFunctionBody form => "Expect '\x7b' before " ++ form.text ++ " body."
  | noBlockEnd => "Expect '\x7d' after block."
  | noVariableName => "Expect variable name."
  | noVariableEnd => "Expect ';' after variable declaration."
  | noForClauses => "Expect '(' after 'for'."
  | noForConditionEnd => "Expect ';' after loop condition."
  | noForClausesEnd => "Expect ')' after for clauses."
  | noIfCondition => "Expect '(' after 'if'."
  | noIfConditionEnd => "Expect ')' after if condition."
  | noWhileCondition => "Expect '(' after 'while'."
  | noWhileConditionEnd => "Expect ')' after condition."
  | noPrintEnd => "Expect ';' after value."
  | noReturnEnd => "Expect ';' after return value."
  | noStatementEnd => "Expect ';' after expression."
  | noPropertyName => "Expect property name after '.'."
  | noArgumentsEnd => "Expect ')' after arguments."
  | noSuperDot => "Expect '.' after 'super'."
  | noSuperMethod => "Expect superclass method name."
  | noGroupEnd => "Expect ')' after expression."
  | tooManyParameters => "Can't have more than 255 parameters."
  | tooManyArguments => "Can't have more than 255 arguments."
  | invalidTarget => "Invalid assignment target."

/-- A syntax error at a token, or at the end of the input if there is none. -/
structure SyntaxError where
  found : Option Token
  cause : SyntaxCause
deriving DecidableEq

end LoxLang
