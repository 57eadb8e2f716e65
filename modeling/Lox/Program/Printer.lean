import Lox.Program
import Lox.Number.Text

/-!
# Printed syntax trees

`Expr.printed` and `Stmt.printed` write syntax trees in parenthesised form, the operator first.
Strings are written without quotes, so the form is for reading and not for reading back.
-/

namespace Lox

def Literal.printed : Literal → String
  | .nil => "nil"
  | .bool true => "true"
  | .bool false => "false"
  | .number value => Number.inTree value
  | .string contents => contents

def parenthesized (words : List String) : String := "(" ++ " ".intercalate words ++ ")"

mutual

def Expr.printed : Expr → String
  | .literal value => value.printed
  | .grouping inner => parenthesized ["group", inner.printed]
  | .unary operator right => parenthesized [operator.lexeme, right.printed]
  | .binary left operator right => parenthesized [operator.lexeme, left.printed, right.printed]
  | .logical left operator right => parenthesized [operator.lexeme, left.printed, right.printed]
  | .variable _ name => name.lexeme
  | .assign _ name value => parenthesized ["=", name.lexeme, value.printed]
  | .call callee _ arguments => parenthesized ("call" :: callee.printed :: printedAll arguments)
  | .get object name => parenthesized [".", object.printed, name.lexeme]
  | .set object name value =>
    parenthesized ["=", parenthesized [".", object.printed, name.lexeme], value.printed]
  | .this _ _ => "this"
  | .super _ _ method => parenthesized ["super", method.lexeme]
termination_by structural e => e

def Expr.printedAll : List Expr → List String
  | [] => []
  | e :: es => e.printed :: printedAll es
termination_by structural es => es

end

mutual

def Stmt.printed : Stmt → String
  | .expression value => parenthesized [";", value.printed]
  | .print value => parenthesized ["print", value.printed]
  | .var name none => parenthesized ["var", name.lexeme]
  | .var name (some value) => parenthesized ["var", name.lexeme, "=", value.printed]
  | .block body => parenthesized ("block" :: Stmt.printedAll body)
  | .branch condition consequence none =>
    parenthesized ["if", condition.printed, consequence.printed]
  | .branch condition consequence (some alternative) =>
    parenthesized ["if-else", condition.printed, consequence.printed, alternative.printed]
  | .while condition body => parenthesized ["while", condition.printed, body.printed]
  | .function declaration => parenthesized ("fun" :: declaration.printedParts)
  | .return _ none => parenthesized ["return"]
  | .return _ (some value) => parenthesized ["return", value.printed]
  | .class name none methods =>
    parenthesized ("class" :: name.lexeme :: Stmt.printedMethods methods)
  | .class name (some superclass) methods =>
    parenthesized
      ("class" :: name.lexeme :: "<" :: superclass.printed :: Stmt.printedMethods methods)
termination_by structural s => s

def Stmt.printedAll : List Stmt → List String
  | [] => []
  | s :: ss => s.printed :: Stmt.printedAll ss
termination_by structural ss => ss

def Stmt.printedMethods : List FunctionDecl → List String
  | [] => []
  | d :: ds => parenthesized ("method" :: d.printedParts) :: Stmt.printedMethods ds
termination_by structural ds => ds

/-- The parts of a declaration as they are printed: name, parameters, and statements. -/
def FunctionDecl.printedParts : FunctionDecl → List String
  | ⟨name, parameters, body⟩ =>
    name.lexeme :: parenthesized (parameters.map Token.lexeme) :: Stmt.printedAll body
termination_by structural d => d

end

end Lox
