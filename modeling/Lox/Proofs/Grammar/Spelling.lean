import Mathlib.Data.List.Forall2
import Lox.Proofs.Program.Node

/-!
# Spelling programs

How the phrases of a program are written as tokens.  A syntax tree keeps some of its tokens, such as
names and operators; of the others it determines the kind.  So the spelling of a tree is a list of
`Mark`s, and token lists can be compared with it (`Fits`).

Trees have no parentheses but those of a grouping.  A tree can be written down only if each of its
parts binds as tightly as its place requires: it is `Shaped`.  The `Level`s of expressions are the
rules of the grammar, the loosest first.
-/

namespace Lox

/-- What a syntax tree tells about a token of it. -/
inductive Mark where
  | kind (k : Kind)
  | token (t : Token)

namespace Mark

/-- Can the token stand where the tree asks for it? -/
def Admits : Mark → Token → Prop
  | .kind k, t => t.kind = k
  | .token t', t => t = t'

def written : Mark → Token
  | .kind k => ⟨k, "", 1⟩
  | .token t => t

theorem admits_written (m : Mark) : m.Admits m.written := by
  cases m <;> rfl

def symbol (mark : Symbol) : Mark := .kind (.symbol mark)

def keyword (word : Keyword) : Mark := .kind (.keyword word)

def separated : List (List Mark) → List Mark
  | [] => []
  | [ms] => ms
  | ms :: rest => ms ++ .symbol .comma :: separated rest

end Mark

abbrev Fits (ts : List Token) (ms : List Mark) : Prop := List.Forall₂ (fun t m => m.Admits t) ts ms

namespace Fits

theorem cons {t : Token} {m : Mark} {ts : List Token} {ms : List Mark} (admits : m.Admits t)
    (h : Fits ts ms) : Fits (t :: ts) (m :: ms) :=
  List.Forall₂.cons admits h

theorem append {ts ts' : List Token} {ms ms' : List Mark} (h : Fits ts ms) (h' : Fits ts' ms') :
    Fits (ts ++ ts') (ms ++ ms') :=
  List.rel_append h h'

/-- What fits the spelling of two phrases is divided between them. -/
theorem exists_of_append {ts : List Token} {ms ms' : List Mark} (h : Fits ts (ms ++ ms')) :
    ∃ ts₁ ts₂, ts = ts₁ ++ ts₂ ∧ Fits ts₁ ms ∧ Fits ts₂ ms' := by
  induction ms generalizing ts with
  | nil => exact ⟨[], ts, rfl, .nil, h⟩
  | cons m ms ih =>
      cases h with
      | @cons t _ ts _ admits rest =>
          obtain ⟨ts₁, ts₂, rfl, first, second⟩ := ih rest
          exact ⟨t :: ts₁, ts₂, rfl, .cons admits first, second⟩

theorem exists_of_cons {ts : List Token} {m : Mark} {ms : List Mark} (h : Fits ts (m :: ms)) :
    ∃ t ts', ts = t :: ts' ∧ m.Admits t ∧ Fits ts' ms := by
  cases h with
  | cons admits rest => exact ⟨_, _, rfl, admits, rest⟩

theorem eq_nil {ts : List Token} (h : Fits ts []) : ts = [] := by
  cases h
  rfl

theorem one {t : Token} {m : Mark} (h : m.Admits t) : Fits [t] [m] := .cons h .nil

theorem token (t : Token) : Fits [t] [.token t] := one rfl

theorem exists_of_token {ts : List Token} {t : Token} {ms : List Mark}
    (h : Fits ts (.token t :: ms)) : ∃ ts', ts = t :: ts' ∧ Fits ts' ms := by
  obtain ⟨t', ts', rfl, admits, rest⟩ := h.exists_of_cons
  exact ⟨ts', admits ▸ rfl, rest⟩

theorem exists_of_concat {ts : List Token} {m : Mark} {ms : List Mark} (h : Fits ts (ms ++ [m])) :
    ∃ ts' t, ts = ts' ++ [t] ∧ Fits ts' ms ∧ m.Admits t := by
  obtain ⟨ts', last, rfl, first, rest⟩ := h.exists_of_append
  obtain ⟨t, none, rfl, admits, rest⟩ := rest.exists_of_cons
  rw [rest.eq_nil]
  exact ⟨ts', t, rfl, first, admits⟩

theorem written (ms : List Mark) : Fits (ms.map Mark.written) ms := by
  induction ms with
  | nil => exact .nil
  | cons m ms ih => exact .cons m.admits_written ih

end Fits

/-! ### Levels of expressions -/

/-- The rules for expressions, the loosest first. -/
inductive Level where
  | assignment | disjunction | conjunction | equality | comparison | term | factor | unary | call
  | primary
deriving DecidableEq, Repr

namespace Level

def rank : Level → Nat
  | .assignment => 0
  | .disjunction => 1
  | .conjunction => 2
  | .equality => 3
  | .comparison => 4
  | .term => 5
  | .factor => 6
  | .unary => 7
  | .call => 8
  | .primary => 9

instance : LE Level := ⟨fun l l' => l.rank ≤ l'.rank⟩

instance : LT Level := ⟨fun l l' => l.rank < l'.rank⟩

instance (l l' : Level) : Decidable (l ≤ l') := inferInstanceAs (Decidable (l.rank ≤ l'.rank))

instance (l l' : Level) : Decidable (l < l') := inferInstanceAs (Decidable (l.rank < l'.rank))

end Level

/-- The level of the phrases that a terminal continues: it may stand behind the first part of
one. -/
def Terminal.level? : Terminal → Option Level
  | .symbol .equal => some .assignment
  | .keyword .or => some .disjunction
  | .keyword .and => some .conjunction
  | .symbol .bangEqual | .symbol .equalEqual => some .equality
  | .symbol .greater | .symbol .greaterEqual | .symbol .less | .symbol .lessEqual =>
    some .comparison
  | .symbol .minus | .symbol .plus => some .term
  | .symbol .star | .symbol .slash => some .factor
  | .symbol .leftParen | .symbol .dot => some .call
  | _ => none

def Literal.kind : Literal → Kind
  | .nil => .keyword .nil
  | .bool true => .keyword .true
  | .bool false => .keyword .false
  | .number value => .number value
  | .string contents => .string contents

namespace Expr

def level : Expr → Level
  | .literal _ | .grouping _ | .variable _ _ | .this _ _ | .super _ _ _ => .primary
  | .call _ _ _ | .get _ _ => .call
  | .unary _ _ => .unary
  | .binary _ operator _ | .logical _ operator _ => operator.terminal.level?.getD .primary
  | .assign _ _ _ | .set _ _ _ => .assignment

mutual

/-- Do the parts of an expression bind as tightly as their places require, and are its tokens of the
kinds of theirs? -/
def Shaped : Expr → Prop
  | .literal _ => True
  | .grouping inner => inner.Shaped
  | .unary operator right =>
    operator.terminal ∈ [.symbol .bang, .symbol .minus] ∧ right.Shaped ∧ .unary ≤ right.level
  | .binary left operator right =>
    ∃ l, operator.terminal.level? = some l ∧ .equality ≤ l ∧ l ≤ .factor ∧
      left.Shaped ∧ l ≤ left.level ∧ right.Shaped ∧ l < right.level
  | .logical left operator right =>
    ∃ l, operator.terminal.level? = some l ∧ .disjunction ≤ l ∧ l ≤ .conjunction ∧
      left.Shaped ∧ l ≤ left.level ∧ right.Shaped ∧ l < right.level
  | .variable _ name => name.terminal = .identifier
  | .assign _ name value => name.terminal = .identifier ∧ value.Shaped
  | .call callee paren arguments =>
    callee.Shaped ∧ .call ≤ callee.level ∧ paren.terminal = .symbol .rightParen ∧
      arguments.length ≤ 255 ∧ ShapedAll arguments
  | .get object name => object.Shaped ∧ .call ≤ object.level ∧ name.terminal = .identifier
  | .set object name value =>
    object.Shaped ∧ .call ≤ object.level ∧ name.terminal = .identifier ∧ value.Shaped
  | .this _ keyword => keyword.terminal = .keyword .this
  | .super _ keyword method => keyword.terminal = .keyword .super ∧ method.terminal = .identifier
termination_by structural e => e

def ShapedAll : List Expr → Prop
  | [] => True
  | e :: es => e.Shaped ∧ ShapedAll es
termination_by structural es => es

end

mutual

def spelling : Expr → List Mark
  | .literal value => [.kind value.kind]
  | .grouping inner => .symbol .leftParen :: (inner.spelling ++ [.symbol .rightParen])
  | .unary operator right => .token operator :: right.spelling
  | .binary left operator right => left.spelling ++ .token operator :: right.spelling
  | .logical left operator right => left.spelling ++ .token operator :: right.spelling
  | .variable _ name => [.token name]
  | .assign _ name value => .token name :: .symbol .equal :: value.spelling
  | .call callee paren arguments =>
    callee.spelling ++ .symbol .leftParen ::
      (Mark.separated (spellings arguments) ++ [.token paren])
  | .get object name => object.spelling ++ [.symbol .dot, .token name]
  | .set object name value =>
    object.spelling ++ .symbol .dot :: .token name :: .symbol .equal :: value.spelling
  | .this _ keyword => [.token keyword]
  | .super _ keyword method => [.token keyword, .symbol .dot, .token method]
termination_by structural e => e

def spellings : List Expr → List (List Mark)
  | [] => []
  | e :: es => e.spelling :: spellings es
termination_by structural es => es

end

end Expr

/-! ### Statements -/

/-- Does a statement end in an `if` without `else`?  A following `else` would belong to that. -/
def Stmt.opened : Stmt → Bool
  | .branch _ _ none => true
  | .branch _ _ (some alternative) => alternative.opened
  | .while _ body => body.opened
  | _ => false
termination_by structural s => s

mutual

/-- Are the parts of a statement what their places require, and are its tokens of the kinds of
theirs? -/
def Stmt.Shaped : Stmt → Prop
  | .expression value => value.Shaped
  | .print value => value.Shaped
  | .var name none => name.terminal = .identifier
  | .var name (some value) => name.terminal = .identifier ∧ value.Shaped
  | .block body => Stmt.ShapedAll body
  | .branch condition consequence none =>
    condition.Shaped ∧ consequence.isPlain ∧ consequence.Shaped
  | .branch condition consequence (some alternative) =>
    condition.Shaped ∧ consequence.isPlain ∧ consequence.Shaped ∧ consequence.opened = false ∧
      alternative.isPlain ∧ alternative.Shaped
  | .while condition body => condition.Shaped ∧ body.isPlain ∧ body.Shaped
  | .function declaration => declaration.Shaped
  | .return keyword none => keyword.terminal = .keyword .return
  | .return keyword (some value) => keyword.terminal = .keyword .return ∧ value.Shaped
  | .class name none methods => name.terminal = .identifier ∧ Stmt.ShapedMethods methods
  | .class name (some superclass) methods =>
    name.terminal = .identifier ∧ superclass.isName ∧ superclass.Shaped ∧
      Stmt.ShapedMethods methods
termination_by structural s => s

def Stmt.ShapedAll : List Stmt → Prop
  | [] => True
  | s :: ss => s.Shaped ∧ Stmt.ShapedAll ss
termination_by structural ss => ss

def Stmt.ShapedMethods : List FunctionDecl → Prop
  | [] => True
  | d :: ds => d.Shaped ∧ Stmt.ShapedMethods ds
termination_by structural ds => ds

def FunctionDecl.Shaped : FunctionDecl → Prop
  | ⟨name, parameters, body⟩ =>
    name.terminal = .identifier ∧ parameters.length ≤ 255 ∧
      (∀ p ∈ parameters, p.terminal = .identifier) ∧ Stmt.ShapedAll body
termination_by structural d => d

end

mutual

def Stmt.spelling : Stmt → List Mark
  | .expression value => value.spelling ++ [.symbol .semicolon]
  | .print value => .keyword .print :: (value.spelling ++ [.symbol .semicolon])
  | .var name none => [.keyword .var, .token name, .symbol .semicolon]
  | .var name (some value) =>
    .keyword .var :: .token name :: .symbol .equal :: (value.spelling ++ [.symbol .semicolon])
  | .block body => .symbol .leftBrace :: (Stmt.spellingAll body ++ [.symbol .rightBrace])
  | .branch condition consequence none =>
    .keyword .if :: .symbol .leftParen :: (condition.spelling ++ .symbol .rightParen ::
      consequence.spelling)
  | .branch condition consequence (some alternative) =>
    .keyword .if :: .symbol .leftParen :: (condition.spelling ++ .symbol .rightParen ::
      (consequence.spelling ++ .keyword .else :: alternative.spelling))
  | .while condition body =>
    .keyword .while :: .symbol .leftParen :: (condition.spelling ++ .symbol .rightParen ::
      body.spelling)
  | .function declaration => .keyword .fun :: declaration.spelling
  | .return keyword none => [.token keyword, .symbol .semicolon]
  | .return keyword (some value) => .token keyword :: (value.spelling ++ [.symbol .semicolon])
  | .class name none methods =>
    .keyword .class :: .token name :: .symbol .leftBrace ::
      (Stmt.spellingOfMethods methods ++ [.symbol .rightBrace])
  | .class name (some superclass) methods =>
    .keyword .class :: .token name :: .symbol .less :: (superclass.spelling ++
      .symbol .leftBrace :: (Stmt.spellingOfMethods methods ++ [.symbol .rightBrace]))
termination_by structural s => s

def Stmt.spellingAll : List Stmt → List Mark
  | [] => []
  | s :: ss => s.spelling ++ Stmt.spellingAll ss
termination_by structural ss => ss

def Stmt.spellingOfMethods : List FunctionDecl → List Mark
  | [] => []
  | d :: ds => d.spelling ++ Stmt.spellingOfMethods ds
termination_by structural ds => ds

/-- How the declaration of a function is written, from its name on. -/
def FunctionDecl.spelling : FunctionDecl → List Mark
  | ⟨name, parameters, body⟩ =>
    .token name :: .symbol .leftParen ::
      (Mark.separated (parameters.map fun p => [.token p]) ++ .symbol .rightParen ::
        .symbol .leftBrace :: (Stmt.spellingAll body ++ [.symbol .rightBrace]))
termination_by structural d => d

end

end Lox
