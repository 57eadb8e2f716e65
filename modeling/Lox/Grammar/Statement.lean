import Lox.Grammar.Expression

/-!
# Statements and programs

The grammar of programs:

    program     → declaration* EOF
    declaration → "class" IDENTIFIER ("<" IDENTIFIER)? "{" function* "}"
                | "fun" function | "var" variable | statement
    function    → IDENTIFIER "(" (IDENTIFIER ("," IDENTIFIER)*)? ")" block
    variable    → IDENTIFIER ("=" expression)? ";"
    statement   → "for" "(" (";" | "var" variable | expression ";") expression? ";" expression? ")"
                    statement
                | "if" "(" expression ")" statement ("else" statement)?
                | "while" "(" expression ")" statement
                | "return" expression? ";" | "print" expression ";" | block | expression ";"
    block       → "{" declaration* "}"

A `for` loop is read as the `while` loop it stands for.

A declaration that breaks a rule is dropped, with one error, and reading resumes after the next
semicolon or before the next word that starts a statement, whichever comes first.  `parse` reads a
whole program this way and returns the declarations that are left.
-/

namespace Lox

open Lox.Parser

namespace Stmt

/-- Reads an expression and the semicolon that ends a statement. -/
def terminated (expression : Parser Expr) (fault : GrammarFault) : Parser Expr := do
  let e ← expression
  let _ ← expect (.symbol .semicolon) fault
  return e

def optionalBefore (stop : Terminal) (expression : Parser Expr) : Parser (Option Expr) := do
  if ← nextIs [stop] then return none
  return some (← expression)

def varDecl (expression : Parser Expr) : Parser Stmt := do
  let name ← expect .identifier .noVariableName
  let initializer ← match ← accept? [.symbol .equal] with
    | some _ => some <$> expression
    | none => pure none
  let _ ← expect (.symbol .semicolon) .openVariable
  return .var name initializer

/-- The declarations of a block whose opening brace has been read. -/
def blockBody (bound : Nat) (declaration : Parser (Option Stmt)) : Parser (List Stmt) := do
  let body ← itemsUntil [.symbol .rightBrace, .eof] bound declaration
  let _ ← expect (.symbol .rightBrace) .openBlock
  return body

def functionDecl (bound : Nat) (declaration : Parser (Option Stmt)) (form : FunctionForm) :
    Parser FunctionDecl := do
  let name ← expect .identifier (.noFunctionName form)
  let _ ← expect (.symbol .leftParen) (.noParameters form)
  let parameters ← commaList .tooManyParameters bound (expect .identifier .noParameterName)
  let _ ← expect (.symbol .rightParen) .openParameters
  let _ ← expect (.symbol .leftBrace) (.noFunctionBody form)
  let body ← blockBody bound declaration
  return ⟨name, parameters, body⟩

def classDecl (bound : Nat) (declaration : Parser (Option Stmt)) : Parser Stmt := do
  let name ← expect .identifier .noClassName
  let superclass ← match ← accept? [.symbol .less] with
    | some _ => do
      let superName ← expect .identifier .noSuperclassName
      pure (some (Expr.variable (← freshSite) superName))
    | none => pure none
  let _ ← expect (.symbol .leftBrace) .noClassBody
  let methods ← itemsUntil [.symbol .rightBrace, .eof] bound
    (some <$> functionDecl bound declaration .method)
  let _ ← expect (.symbol .rightBrace) .openClassBody
  return .class name superclass methods

/-- The loop that a `for` statement stands for.  The increment follows the body, a missing
condition holds always, and the initializer runs once, in a scope around the loop. -/
def forLoop (initializer : Option Stmt) (condition increment : Option Expr) (body : Stmt) : Stmt :=
  let round := match increment with
    | some e => block [body, .expression e]
    | none => body
  let loop := .while (condition.getD (.literal (.bool true))) round
  match initializer with
  | some first => block [first, loop]
  | none => loop

/-- The rest of a `for` statement, after its first word. -/
def forStatement (expression : Parser Expr) (statement : Parser Stmt) : Parser Stmt := do
  let _ ← expect (.symbol .leftParen) .noForClauses
  let initializer ← match ← accept? [.symbol .semicolon, .keyword .var] with
    | none => some <$> Stmt.expression <$> terminated expression .openExpressionStatement
    | some t =>
      if t.terminal = .symbol .semicolon then pure none else some <$> varDecl expression
  let condition ← optionalBefore (.symbol .semicolon) expression
  let _ ← expect (.symbol .semicolon) .openLoopCondition
  let increment ← optionalBefore (.symbol .rightParen) expression
  let _ ← expect (.symbol .rightParen) .openForClauses
  return forLoop initializer condition increment (← statement)

/-- The rest of an `if` statement, after its first word.  An `else` belongs to the nearest `if`. -/
def ifStatement (expression : Parser Expr) (statement : Parser Stmt) : Parser Stmt := do
  let _ ← expect (.symbol .leftParen) .noIfCondition
  let condition ← expression
  let _ ← expect (.symbol .rightParen) .openIfCondition
  let consequence ← statement
  match ← accept? [.keyword .else] with
  | some _ => return .branch condition consequence (some (← statement))
  | none => return .branch condition consequence none

def whileStatement (expression : Parser Expr) (statement : Parser Stmt) : Parser Stmt := do
  let _ ← expect (.symbol .leftParen) .noWhileCondition
  let condition ← expression
  let _ ← expect (.symbol .rightParen) .openWhileCondition
  return .while condition (← statement)

def returnStatement (expression : Parser Expr) (keyword : Token) : Parser Stmt := do
  let value ← optionalBefore (.symbol .semicolon) expression
  let _ ← expect (.symbol .semicolon) .openReturn
  return .return keyword value

def simple (bound : Nat) (statement : Parser Stmt) (declaration : Parser (Option Stmt)) :
    Parser Stmt := do
  let expression := Expr.parser bound
  let t ← peek
  match t.terminal with
  | .keyword .for => do skip; forStatement expression statement
  | .keyword .if => do skip; ifStatement expression statement
  | .keyword .while => do skip; whileStatement expression statement
  | .keyword .return => do skip; returnStatement expression t
  | .keyword .print => do skip; Stmt.print <$> terminated expression .openPrint
  | .symbol .leftBrace => do skip; Stmt.block <$> blockBody bound declaration
  | _ => Stmt.expression <$> terminated expression .openExpressionStatement

def declared (bound : Nat) (statement : Parser Stmt) (declaration : Parser (Option Stmt)) :
    Parser Stmt := do
  match (← peek).terminal with
  | .keyword .class => do skip; classDecl bound declaration
  | .keyword .fun => do skip; Stmt.function <$> functionDecl bound declaration .function
  | .keyword .var => do skip; varDecl (Expr.parser bound)
  | _ => simple bound statement declaration

def starters : List Terminal :=
  [.keyword .class, .keyword .fun, .keyword .var, .keyword .for, .keyword .if, .keyword .while,
    .keyword .print, .keyword .return]

/-- Where reading resumes after an error at the first of the tokens. -/
def recover : List Token → List Token
  | [] => []
  | t :: rest =>
    if t.terminal = .symbol .semicolon ∨ rest.head?.any (starters.contains ·.terminal) then rest
    else recover rest

/-- Reads by a rule; if it fails, notes the error and moves to where reading resumes. -/
def attempt (rule : Parser α) : Parser (Option α) := fun s =>
  match rule s with
  | .ok a s => .ok (some a) s
  | .error e s => .ok none { s with rest := recover s.rest, errors := s.errors.push e }

theorem attempt_of_ok {rule : Parser α} {s t : ParseState} {a : α} (h : rule s = .ok a t) :
    attempt rule s = .ok (some a) t := by
  rw [attempt, h]

theorem attempt_of_error {rule : Parser α} {s t : ParseState} {e : GrammarError}
    (h : rule s = .error e t) :
    attempt rule s = .ok none { t with rest := recover t.rest, errors := t.errors.push e } := by
  rw [attempt, h]

/-- What the rule reads is yielded, or its error is noted; an attempt does not fail. -/
theorem attempt_cases (rule : Parser α) (s : ParseState) :
    (∃ a t, rule s = .ok a t ∧ attempt rule s = .ok (some a) t) ∨
    ∃ e t, rule s = .error e t ∧
      attempt rule s = .ok none { t with rest := recover t.rest, errors := t.errors.push e } := by
  cases ran : rule s with
  | ok a t => exact .inl ⟨a, t, rfl, attempt_of_ok ran⟩
  | error e t => exact .inr ⟨e, t, rfl, attempt_of_error ran⟩

mutual

/-- Reads a statement, on at most `bound` tokens. -/
def parser : (bound : Nat) → Parser Stmt
  | 0 => fail .noExpression
  | bound + 1 => fun s => simple (bound + 1) (parser bound) (declarationParser bound) s
termination_by structural bound => bound

/-- Reads a declaration or drops it, on at most `bound` tokens. -/
def declarationParser : (bound : Nat) → Parser (Option Stmt)
  | 0 => attempt (fail .noExpression)
  | bound + 1 => fun s =>
    attempt (declared (bound + 1) (parser bound) (declarationParser bound)) s
termination_by structural bound => bound

end

end Stmt

structure Parsed where
  statements : List Stmt
  errors : List GrammarError
  /-- The first site that is still free. -/
  nextSite : Site

/-- The end-of-file token of a list of tokens: the first in it, or else one on the line of its last
token. -/
def eofOf (tokens : List Token) : Token :=
  match tokens.find? (·.terminal = .eof) with
  | some t => t
  | none => ⟨.eof, "", (tokens.getLast?.map Token.line).getD 1⟩

/-- The state before reading a list of tokens, which is read up to the first end-of-file token. -/
def ParseState.start (tokens : List Token) (firstSite : Site) : ParseState :=
  ⟨tokens.takeWhile (·.terminal ≠ .eof), eofOf tokens, firstSite, #[]⟩

/-- Reads a program, handing out sites from `firstSite` on. -/
def parse (tokens : List Token) (firstSite : Site) : Parsed :=
  let start := ParseState.start tokens firstSite
  let bound := start.rest.length
  match itemsUntil [.eof] bound (Stmt.declarationParser bound) start with
  | .ok statements s => ⟨statements, s.errors.toList, s.nextSite⟩
  | .error e s => ⟨[], s.errors.toList ++ [e], s.nextSite⟩

section

variable {tokens : List Token} {firstSite : Site} {s : ParseState}

theorem parse_of_ok {statements : List Stmt}
    (read : itemsUntil [.eof] (ParseState.start tokens firstSite).rest.length
      (Stmt.declarationParser (ParseState.start tokens firstSite).rest.length)
      (.start tokens firstSite) = .ok statements s) :
    parse tokens firstSite = ⟨statements, s.errors.toList, s.nextSite⟩ := by
  unfold parse
  dsimp only
  rw [read]

theorem parse_of_error {e : GrammarError}
    (failed : itemsUntil [.eof] (ParseState.start tokens firstSite).rest.length
      (Stmt.declarationParser (ParseState.start tokens firstSite).rest.length)
      (.start tokens firstSite) = .error e s) :
    parse tokens firstSite = ⟨[], s.errors.toList ++ [e], s.nextSite⟩ := by
  unfold parse
  dsimp only
  rw [failed]

end

end Lox
