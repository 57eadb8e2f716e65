import Lox.Diagnostic

/-!
# Grammar errors

What can be wrong with a sequence of tokens.  A `GrammarFault` names the rule that is broken, a
`GrammarError` adds the token at which that shows, and `GrammarFault.message` is the wording.

Most faults say that one certain token is missing and end the statement they are found in.  Three
do not: too many parameters or arguments, and an assignment to something that cannot be assigned.
-/

namespace Lox

inductive FunctionForm where
  | function
  | method
deriving DecidableEq, Repr

def FunctionForm.word : FunctionForm → String
  | .function => "function"
  | .method => "method"

inductive GrammarFault where
  | noExpression
  | noClassName
  | noSuperclassName
  | noClassBody
  | openClassBody
  | noFunctionName (form : FunctionForm)
  | noParameters (form : FunctionForm)
  | noParameterName
  | openParameters
  | noFunctionBody (form : FunctionForm)
  | noVariableName
  | openVariable
  | noForClauses
  | openLoopCondition
  | openForClauses
  | noIfCondition
  | openIfCondition
  | noWhileCondition
  | openWhileCondition
  | openPrint
  | openReturn
  | openExpressionStatement
  | openBlock
  | openArguments
  | openGrouping
  | noPropertyName
  | noSuperDot
  | noSuperMethodName
  | tooManyParameters
  | tooManyArguments
  | invalidTarget
deriving DecidableEq, Repr

def GrammarFault.message : GrammarFault → String
  | .noExpression => "Expect expression."
  | .noClassName => "Expect class name."
  | .noSuperclassName => "Expect superclass name."
  | .noClassBody => "Expect '\x7b' before class body."
  | .openClassBody => "Expect '\x7d' after class body."
  | .noFunctionName form => "Expect " ++ form.word ++ " name."
  | .noParameters form => "Expect '(' after " ++ form.word ++ " name."
  | .noParameterName => "Expect parameter name."
  | .openParameters => "Expect ')' after parameters."
  | .noFunctionBody form => "Expect '\x7b' before " ++ form.word ++ " body."
  | .noVariableName => "Expect variable name."
  | .openVariable => "Expect ';' after variable declaration."
  | .noForClauses => "Expect '(' after 'for'."
  | .openLoopCondition => "Expect ';' after loop condition."
  | .openForClauses => "Expect ')' after for clauses."
  | .noIfCondition => "Expect '(' after 'if'."
  | .openIfCondition => "Expect ')' after if condition."
  | .noWhileCondition => "Expect '(' after 'while'."
  | .openWhileCondition => "Expect ')' after condition."
  | .openPrint => "Expect ';' after value."
  | .openReturn => "Expect ';' after return value."
  | .openExpressionStatement => "Expect ';' after expression."
  | .openBlock => "Expect '\x7d' after block."
  | .openArguments => "Expect ')' after arguments."
  | .openGrouping => "Expect ')' after expression."
  | .noPropertyName => "Expect property name after '.'."
  | .noSuperDot => "Expect '.' after 'super'."
  | .noSuperMethodName => "Expect superclass method name."
  | .tooManyParameters => "Can't have more than 255 parameters."
  | .tooManyArguments => "Can't have more than 255 arguments."
  | .invalidTarget => "Invalid assignment target."

structure GrammarError where
  fault : GrammarFault
  culprit : Token
deriving DecidableEq, Repr

def GrammarError.diagnostic (e : GrammarError) : Diagnostic :=
  .grammatical e.fault.message e.culprit

end Lox
