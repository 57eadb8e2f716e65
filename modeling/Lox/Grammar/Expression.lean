import Lox.Grammar.Parser

/-!
# Expressions

The grammar of expressions, loosest operators first:

    expression → assignment
    assignment → (call ".")? IDENTIFIER "=" assignment | or
    or         → and ("or" and)*
    and        → equality ("and" equality)*
    equality   → comparison (("!=" | "==") comparison)*
    comparison → term ((">" | ">=" | "<" | "<=") term)*
    term       → factor (("-" | "+") factor)*
    factor     → unary (("/" | "*") unary)*
    unary      → ("!" | "-") unary | call
    call       → primary ("(" arguments? ")" | "." IDENTIFIER)*
    primary    → "true" | "false" | "nil" | NUMBER | STRING | IDENTIFIER | "this"
               | "super" "." IDENTIFIER | "(" expression ")"
    arguments  → expression ("," expression)*

The left side of an assignment is read as an expression first and turned into a target when the
equals sign shows that it is one.  If it cannot be one, the error is noted and the left side alone
stands for the whole.

`Expr.parser bound` reads an expression from at most `bound` tokens.  Every rule below it takes the
rule for nested expressions as an argument.
-/

namespace Lox

namespace Parser

/-- Operands and the operators between them, grouped to the left. -/
def leftGrouped (bound : Nat) (operators : List Terminal) (build : Expr → Token → Expr → Expr)
    (operand : Parser Expr) : Parser Expr := do
  let first ← operand
  chain (fun left => do
    match ← accept? operators with
    | some operator => return some (build left operator (← operand))
    | none => return none) bound first

end Parser

namespace Expr

open Lox.Parser

def primary (nested : Parser Expr) : Parser Expr := do
  let t ← peek
  match t.kind with
  | .keyword .false => do skip; return .literal (.bool false)
  | .keyword .true => do skip; return .literal (.bool true)
  | .keyword .nil => do skip; return .literal .nil
  | .number value => do skip; return .literal (.number value)
  | .string contents => do skip; return .literal (.string contents)
  | .keyword .super => do
    skip
    let _ ← expect (.symbol .dot) .noSuperDot
    let method ← expect .identifier .noSuperMethodName
    return .super (← freshSite) t method
  | .keyword .this => do skip; return .this (← freshSite) t
  | .identifier => do skip; return .variable (← freshSite) t
  | .symbol .leftParen => do
    skip
    let inner ← nested
    let _ ← expect (.symbol .rightParen) .openGrouping
    return .grouping inner
  | _ => fail .noExpression

/-- The arguments of a call whose opening parenthesis has been read. -/
def finishCall (bound : Nat) (nested : Parser Expr) (callee : Expr) : Parser Expr := do
  let arguments ← commaList .tooManyArguments bound nested
  let paren ← expect (.symbol .rightParen) .openArguments
  return .call callee paren arguments

/-- One call or property access after the expression `e`, if there is one. -/
def suffix (bound : Nat) (nested : Parser Expr) (e : Expr) : Parser (Option Expr) := do
  match ← accept? [.symbol .leftParen, .symbol .dot] with
  | none => return none
  | some t =>
    if t.terminal = .symbol .leftParen then return some (← finishCall bound nested e)
    else return some (.get e (← expect .identifier .noPropertyName))

/-- The rule `call`. -/
def called (bound : Nat) (nested : Parser Expr) : Parser Expr := do
  chain (suffix bound nested) bound (← primary nested)

def unaryOperators : List Terminal := [.symbol .bang, .symbol .minus]

/-- The rule `unary`: the operators before an operand apply to it from the last to the first. -/
def negated (bound : Nat) (nested : Parser Expr) : Parser Expr := do
  let operators ← acceptAll unaryOperators
  return operators.foldr unary (← called bound nested)

def factorOperators : List Terminal := [.symbol .star, .symbol .slash]

def termOperators : List Terminal := [.symbol .minus, .symbol .plus]

def comparisonOperators : List Terminal :=
  [.symbol .greater, .symbol .greaterEqual, .symbol .less, .symbol .lessEqual]

def equalityOperators : List Terminal := [.symbol .bangEqual, .symbol .equalEqual]

def factor (bound : Nat) (nested : Parser Expr) : Parser Expr :=
  leftGrouped bound factorOperators binary (negated bound nested)

def term (bound : Nat) (nested : Parser Expr) : Parser Expr :=
  leftGrouped bound termOperators binary (factor bound nested)

def comparison (bound : Nat) (nested : Parser Expr) : Parser Expr :=
  leftGrouped bound comparisonOperators binary (term bound nested)

def equality (bound : Nat) (nested : Parser Expr) : Parser Expr :=
  leftGrouped bound equalityOperators binary (comparison bound nested)

def conjunction (bound : Nat) (nested : Parser Expr) : Parser Expr :=
  leftGrouped bound [.keyword .and] logical (equality bound nested)

def disjunction (bound : Nat) (nested : Parser Expr) : Parser Expr :=
  leftGrouped bound [.keyword .or] logical (conjunction bound nested)

/-- The assignment of `value` to the expression `target`, where `equals` stands between them. -/
def assignTo (target : Expr) (equals : Token) (value : Expr) : Parser Expr := do
  match target with
  | .variable _ name => return .assign (← freshSite) name value
  | .get object name => return .set object name value
  | _ =>
    note .invalidTarget equals
    return target

def assignment (bound : Nat) (nested : Parser Expr) : Parser Expr := do
  let target ← disjunction bound nested
  match ← accept? [.symbol .equal] with
  | some equals => assignTo target equals (← nested)
  | none => return target

/-- The rule `expression`, on at most `bound` tokens.  No expression consists of no tokens. -/
def parser : (bound : Nat) → Parser Expr
  | 0 => fail .noExpression
  | bound + 1 => fun s => assignment bound (parser bound) s

end Expr

end Lox
