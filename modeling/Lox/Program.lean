import Lox.Token

/-!
# Programs

The syntax trees of the language.  A program is a list of statements.  Names and operators keep
their tokens, which carry the text and the line that messages refer to.

Every expression that refers to a name (a variable, an assignment, `this`, `super`) carries a
number of its own, its *site*.  What the static analysis finds out about the name is recorded
under the site, so sites are never shared between expressions.
-/

namespace Lox

/-- The number of an expression that refers to a name. -/
abbrev Site := Nat

inductive Literal where
  | nil
  | bool (value : Bool)
  | number (value : Float)
  | string (contents : String)
deriving DecidableEq, Repr

inductive Expr where
  | literal (value : Literal)
  | grouping (inner : Expr)
  | unary (operator : Token) (right : Expr)
  | binary (left : Expr) (operator : Token) (right : Expr)
  /-- An operator that may leave its right operand unevaluated. -/
  | logical (left : Expr) (operator : Token) (right : Expr)
  | variable (site : Site) (name : Token)
  | assign (site : Site) (name : Token) (value : Expr)
  /-- A call; `paren` is the parenthesis that closes its arguments. -/
  | call (callee : Expr) (paren : Token) (arguments : List Expr)
  | get (object : Expr) (name : Token)
  | set (object : Expr) (name : Token) (value : Expr)
  | this (site : Site) (keyword : Token)
  | super (site : Site) (keyword : Token) (method : Token)

mutual

/-- Statements.  A `for` loop has no form of its own: it is written with `block` and `while`. -/
inductive Stmt where
  | expression (value : Expr)
  | print (value : Expr)
  | var (name : Token) (initializer : Option Expr)
  | block (body : List Stmt)
  | branch (condition : Expr) (consequence : Stmt) (alternative : Option Stmt)
  | while (condition : Expr) (body : Stmt)
  | function (declaration : FunctionDecl)
  | return (keyword : Token) (value : Option Expr)
  | class (name : Token) (superclass : Option Expr) (methods : List FunctionDecl)

structure FunctionDecl where
  name : Token
  parameters : List Token
  body : List Stmt

end

instance : Inhabited Expr := ⟨.literal .nil⟩

instance : Inhabited Stmt := ⟨.block []⟩

end Lox
