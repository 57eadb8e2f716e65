import Lox.Table
import Lox.Proofs.Program.Node

/-!
# Renaming a variable

A `NewName` is a new name for one variable of a program, which may be declared by `var` or as a
parameter, but not for the whole program.  `renamed` is the program with this variable renamed,
where it is declared and wherever it is meant.

The walk through the program takes along the names of the scopes around.  A name means the renamed
variable if the innermost scope that has the name has it from the declaration of that variable: the
`Marks` tell.
-/

namespace Lox

/-- A new name for a variable.  Variables are counted by their declarations in the order of the
text. -/
structure NewName where
  index : Nat
  old : String
  new : String

/-- The names of the scopes around a point of a program, the innermost first.  The entry that the
renamed variable has made is marked. -/
abbrev Marks := List (Table Bool)

namespace Marks

def declare : Marks → String → (marked : Bool) → Marks
  | [], _, _ => []
  | scope :: outer, name, marked => scope.set name marked :: outer

/-- Does a name mean the renamed variable? -/
def refers : Marks → String → Bool
  | [], _ => false
  | scope :: outer, name => (scope.get? name).getD (refers outer name)

end Marks

namespace NewName

variable (t : NewName)

def word (chosen : Bool) (name : String) : String := if chosen then t.new else name

def token (chosen : Bool) (name : Token) : Token :=
  { name with lexeme := t.word chosen name.lexeme }

/-- Is a declaration, before which there are `n` others, that of the renamed variable?  Variables of
the whole program are not renamed. -/
def chooses (n : Nat) (marks : Marks) (name : Token) : Bool :=
  n == t.index && name.lexeme == t.old && !marks.isEmpty

def marks (n : Nat) (marks : Marks) (name : Token) : Marks :=
  marks.declare name.lexeme (t.chooses n marks name)

def marksAll (n : Nat) (marks : Marks) : List Token → Marks
  | [] => marks
  | name :: names => marksAll (n + 1) (t.marks n marks name) names

def parameters (n : Nat) (marks : Marks) : List Token → List Token
  | [] => []
  | name :: names =>
    t.token (t.chooses n marks name) name :: parameters (n + 1) (t.marks n marks name) names

end NewName

mutual

/-- The number of variables that a statement declares. -/
def Stmt.variables : Stmt → Nat
  | .var _ _ => 1
  | .block body => Stmt.variablesAll body
  | .branch _ consequence none => consequence.variables
  | .branch _ consequence (some alternative) => consequence.variables + alternative.variables
  | .while _ body => body.variables
  | .function declaration => declaration.variables
  | .class _ _ methods => Stmt.variablesOfMethods methods
  | _ => 0
termination_by structural s => s

def Stmt.variablesAll : List Stmt → Nat
  | [] => 0
  | s :: ss => s.variables + Stmt.variablesAll ss
termination_by structural ss => ss

def Stmt.variablesOfMethods : List FunctionDecl → Nat
  | [] => 0
  | d :: ds => d.variables + Stmt.variablesOfMethods ds
termination_by structural ds => ds

/-- The number of parameters of a function and of variables that its body declares. -/
def FunctionDecl.variables : FunctionDecl → Nat
  | ⟨_, parameters, body⟩ => parameters.length + Stmt.variablesAll body
termination_by structural d => d

end

variable (t : NewName)

mutual

def Expr.rename (marks : Marks) : Expr → Expr
  | .literal value => .literal value
  | .grouping inner => .grouping (inner.rename marks)
  | .unary operator right => .unary operator (right.rename marks)
  | .binary left operator right => .binary (left.rename marks) operator (right.rename marks)
  | .logical left operator right => .logical (left.rename marks) operator (right.rename marks)
  | .variable site name => .variable site (t.token (marks.refers name.lexeme) name)
  | .assign site name value =>
    .assign site (t.token (marks.refers name.lexeme) name) (value.rename marks)
  | .call callee paren arguments =>
    .call (callee.rename marks) paren (Expr.renameAll marks arguments)
  | .get object name => .get (object.rename marks) name
  | .set object name value => .set (object.rename marks) name (value.rename marks)
  | .this site keyword => .this site keyword
  | .super site keyword method => .super site keyword method
termination_by structural e => e

def Expr.renameAll (marks : Marks) : List Expr → List Expr
  | [] => []
  | e :: es => e.rename marks :: Expr.renameAll marks es
termination_by structural es => es

end

/-- The marks after a statement.  What is branched to or repeated is no declaration. -/
def Stmt.marks (n : Nat) (marks : Marks) : Stmt → Marks
  | .var name _ => t.marks n marks name
  | .function declaration => marks.declare declaration.name.lexeme false
  | .class name _ _ => marks.declare name.lexeme false
  | _ => marks

def Stmt.marksAll (n : Nat) (marks : Marks) : List Stmt → Marks
  | [] => marks
  | s :: ss => Stmt.marksAll (n + s.variables) (s.marks t n marks) ss

mutual

def Stmt.rename (n : Nat) (marks : Marks) : Stmt → Stmt
  | .expression value => .expression (value.rename t marks)
  | .print value => .print (value.rename t marks)
  | .var name none => .var (t.token (t.chooses n marks name) name) none
  | .var name (some value) =>
    .var (t.token (t.chooses n marks name) name) (some (value.rename t (t.marks n marks name)))
  | .block body => .block (Stmt.renameAll n ([] :: marks) body)
  | .branch condition consequence none =>
    .branch (condition.rename t marks) (consequence.rename n marks) none
  | .branch condition consequence (some alternative) =>
    .branch (condition.rename t marks) (consequence.rename n marks)
      (some (alternative.rename (n + consequence.variables) marks))
  | .while condition body => .while (condition.rename t marks) (body.rename n marks)
  | .function declaration =>
    .function (declaration.rename n (marks.declare declaration.name.lexeme false))
  | .return keyword none => .return keyword none
  | .return keyword (some value) => .return keyword (some (value.rename t marks))
  | .class name none methods =>
    .class name none
      (Stmt.renameMethods n ([("this", false)] :: marks.declare name.lexeme false) methods)
  | .class name (some superclass) methods =>
    .class name (some (superclass.rename t (marks.declare name.lexeme false)))
      (Stmt.renameMethods n
        ([("this", false)] :: [("super", false)] :: marks.declare name.lexeme false) methods)
termination_by structural s => s

def Stmt.renameAll (n : Nat) (marks : Marks) : List Stmt → List Stmt
  | [] => []
  | s :: ss => s.rename n marks :: Stmt.renameAll (n + s.variables) (s.marks t n marks) ss
termination_by structural ss => ss

def Stmt.renameMethods (n : Nat) (marks : Marks) : List FunctionDecl → List FunctionDecl
  | [] => []
  | d :: ds => d.rename n marks :: Stmt.renameMethods (n + d.variables) marks ds
termination_by structural ds => ds

/-- The declaration of a function with the variable renamed.  Parameters and body share a scope. -/
def FunctionDecl.rename (n : Nat) (marks : Marks) : FunctionDecl → FunctionDecl
  | ⟨name, parameters, body⟩ =>
    ⟨name, t.parameters n ([] :: marks) parameters,
      Stmt.renameAll (n + parameters.length) (t.marksAll n ([] :: marks) parameters) body⟩
termination_by structural d => d

end

def renamed (statements : List Stmt) : List Stmt := Stmt.renameAll t 0 [] statements

variable {t}

@[simp] theorem NewName.lexeme_token (chosen : Bool) (name : Token) :
    (t.token chosen name).lexeme = t.word chosen name.lexeme := rfl

@[simp] theorem NewName.token_false (name : Token) : t.token false name = name := rfl

@[simp] theorem FunctionDecl.name_rename (n : Nat) (marks : Marks) (d : FunctionDecl) :
    (d.rename t n marks).name = d.name := by
  cases d
  rfl

/-- A statement changes the marks of the innermost scope only. -/
theorem Stmt.exists_marks_cons (n : Nat) (inner : Table Bool) (outer : Marks) (s : Stmt) :
    ∃ inner', s.marks t n (inner :: outer) = inner' :: outer := by
  cases s <;> exact ⟨_, rfl⟩

theorem Stmt.exists_marksAll_cons (n : Nat) (inner : Table Bool) (outer : Marks) (ss : List Stmt) :
    ∃ inner', Stmt.marksAll t n (inner :: outer) ss = inner' :: outer := by
  induction ss generalizing n inner with
  | nil => exact ⟨inner, rfl⟩
  | cons s ss ih =>
      obtain ⟨between, h⟩ := s.exists_marks_cons (t := t) n inner outer
      rw [Stmt.marksAll, h]
      exact ih _ between

/-- The names of the whole program have no marks. -/
theorem Stmt.marksAll_nil (n : Nat) (ss : List Stmt) : Stmt.marksAll t n [] ss = [] := by
  induction ss generalizing n with
  | nil => rfl
  | cons s ss ih =>
      have here : s.marks t n [] = [] := by
        cases s <;> rfl
      rw [Stmt.marksAll, here]
      exact ih _

theorem NewName.exists_marksAll_cons (n : Nat) (inner : Table Bool) (outer : Marks)
    (names : List Token) : ∃ inner', t.marksAll n (inner :: outer) names = inner' :: outer := by
  induction names generalizing n inner with
  | nil => exact ⟨inner, rfl⟩
  | cons name names ih => exact ih _ _

theorem Stmt.marks_of_isPlain {s : Stmt} (plain : s.isPlain) (n : Nat) (marks : Marks) :
    s.marks t n marks = marks := by
  cases s with
  | var => cases plain
  | function => cases plain
  | «class» => cases plain
  | _ => rfl

end Lox
