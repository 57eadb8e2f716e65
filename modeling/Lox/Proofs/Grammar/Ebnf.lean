import Lox.Token

/-!
# The grammar of the language

`Ebnf` are the right sides of the rules of a grammar in extended Backus-Naur form, and `production`
is the grammar of the language.  `Derives g a w` says that the terminals `w` can be derived from `a`
by the rules `g`.

A property of token lists for every nonterminal gives one for every right side, `Ebnf.Holds`.  If
it passes from the right side of each rule to its left, it holds of all that can be derived
(`Derives.holds`).

The documented grammar does not limit how long a list of parameters or arguments is;
`limitedGrammar` does, and derives nothing else (`Derives.unlimited`).
-/

namespace Lox

/-- The right side of a rule, where `N` are the left sides. -/
inductive Ebnf (N : Type) where
  | terminal (k : Terminal)
  | rule (n : N)
  | seq (a b : Ebnf N)
  | alt (a b : Ebnf N)
  | option (a : Ebnf N)
  /-- Any number of times. -/
  | star (a : Ebnf N)
  /-- At most a number of times. -/
  | upTo (most : Nat) (a : Ebnf N)

namespace Ebnf

variable {N : Type}

def symbol (mark : Symbol) : Ebnf N := .terminal (.symbol mark)

def word (word : Keyword) : Ebnf N := .terminal (.keyword word)

def identifier : Ebnf N := .terminal .identifier

def oneOf (k : Terminal) : List Terminal → Ebnf N
  | [] => .terminal k
  | k' :: ks => .alt (.terminal k) (oneOf k' ks)

inductive Derives (g : N → Ebnf N) : Ebnf N → List Terminal → Prop
  | terminal (k : Terminal) : Derives g (.terminal k) [k]
  | rule {n : N} {w : List Terminal} : Derives g (g n) w → Derives g (.rule n) w
  | seq {a b : Ebnf N} {w w' : List Terminal} : Derives g a w → Derives g b w' →
      Derives g (.seq a b) (w ++ w')
  | left {a b : Ebnf N} {w : List Terminal} : Derives g a w → Derives g (.alt a b) w
  | right {a b : Ebnf N} {w : List Terminal} : Derives g b w → Derives g (.alt a b) w
  | none {a : Ebnf N} : Derives g (.option a) []
  | some {a : Ebnf N} {w : List Terminal} : Derives g a w → Derives g (.option a) w
  | starNil {a : Ebnf N} : Derives g (.star a) []
  | starCons {a : Ebnf N} {w w' : List Terminal} : Derives g a w → Derives g (.star a) w' →
      Derives g (.star a) (w ++ w')
  | upToNil {most : Nat} {a : Ebnf N} : Derives g (.upTo most a) []
  | upToCons {most : Nat} {a : Ebnf N} {w w' : List Terminal} : Derives g a w →
      Derives g (.upTo most a) w' → Derives g (.upTo (most + 1) a) (w ++ w')

variable {g : N → Ebnf N} {a b : Ebnf N} {t : Token} {ts ts' : List Token} {k : Terminal}

/-! ### Deriving tokens -/

def Matches (g : N → Ebnf N) (a : Ebnf N) (ts : List Token) : Prop :=
  Derives g a (ts.map Token.terminal)

namespace Matches

theorem token (h : t.terminal = k) : Matches g (.terminal k) [t] := by
  rw [Matches, List.map_singleton, h]
  exact .terminal k

theorem seq (h : Matches g a ts) (h' : Matches g b ts') : Matches g (.seq a b) (ts ++ ts') := by
  rw [Matches, List.map_append]
  exact .seq h h'

theorem first (h : t.terminal = k) (rest : Matches g b ts) :
    Matches g (.seq (.terminal k) b) (t :: ts) :=
  (token h).seq rest

theorem starCons (h : Matches g a ts) (h' : Matches g (.star a) ts') :
    Matches g (.star a) (ts ++ ts') := by
  rw [Matches, List.map_append]
  exact .starCons h h'

theorem upToCons {most : Nat} (h : Matches g a ts) (h' : Matches g (.upTo most a) ts') :
    Matches g (.upTo (most + 1) a) (ts ++ ts') := by
  rw [Matches, List.map_append]
  exact .upToCons h h'

theorem oneOf {ks : List Terminal} (h : t.terminal ∈ k :: ks) :
    Matches g (Ebnf.oneOf k ks) [t] := by
  induction ks generalizing k with
  | nil => exact token (List.mem_singleton.1 h)
  | cons k' ks ih =>
      rcases List.mem_cons.1 h with h | h
      · exact .left (token h)
      · exact .right (ih h)

theorem operator {ks : List Terminal} (h : t.terminal ∈ k :: ks) (rest : Matches g b ts) :
    Matches g (.seq (Ebnf.oneOf k ks) b) (t :: ts) :=
  (oneOf h).seq rest

theorem without (rest : Matches g b ts) : Matches g (.seq (.option a) b) ts := by
  have nothing : Matches g (.option a) [] := Derives.none
  exact nothing.seq rest

end Matches

/-! ### Properties of what is derived -/

/-- What tokens for a right side satisfy if those for a nonterminal `n` satisfy `ρ n`. -/
def Holds (ρ : N → List Token → Prop) : Ebnf N → List Token → Prop
  | .terminal k, ts => ∃ t, ts = [t] ∧ t.terminal = k
  | .rule n, ts => ρ n ts
  | .seq a b, ts => ∃ ts₁ ts₂, ts = ts₁ ++ ts₂ ∧ a.Holds ρ ts₁ ∧ b.Holds ρ ts₂
  | .alt a b, ts => a.Holds ρ ts ∨ b.Holds ρ ts
  | .option a, ts => ts = [] ∨ a.Holds ρ ts
  | .star a, ts => ∃ parts : List (List Token), ts = parts.flatten ∧ ∀ p ∈ parts, a.Holds ρ p
  | .upTo most a, ts => ∃ parts : List (List Token), ts = parts.flatten ∧
      parts.length ≤ most ∧ ∀ p ∈ parts, a.Holds ρ p

theorem holds_first {ρ : N → List Token → Prop} :
    (Ebnf.seq (.terminal k) b).Holds ρ ts ↔
      ∃ t ts', ts = t :: ts' ∧ t.terminal = k ∧ b.Holds ρ ts' := by
  constructor
  · rintro ⟨_, ts', rfl, ⟨t, rfl, h⟩, rest⟩
    exact ⟨t, ts', rfl, h, rest⟩
  · rintro ⟨t, ts', rfl, h, rest⟩
    exact ⟨[t], ts', rfl, ⟨t, rfl, h⟩, rest⟩

theorem holds_oneOf {ρ : N → List Token → Prop} {ks : List Terminal}
    (h : (Ebnf.oneOf k ks).Holds ρ ts) : ∃ t, ts = [t] ∧ t.terminal ∈ k :: ks := by
  induction ks generalizing k with
  | nil =>
      obtain ⟨t, rfl, h⟩ := h
      exact ⟨t, rfl, List.mem_singleton.2 h⟩
  | cons k' ks ih =>
      rcases h with ⟨t, rfl, h⟩ | h
      · exact ⟨t, rfl, h ▸ List.mem_cons_self⟩
      · obtain ⟨t, rfl, mem⟩ := ih h
        exact ⟨t, rfl, List.mem_cons_of_mem _ mem⟩

/-- Induction on derivations. -/
theorem Derives.holds {ρ : N → List Token → Prop} (closed : ∀ n ts, (g n).Holds ρ ts → ρ n ts)
    {w : List Terminal} (h : Derives g a w) : ∀ {ts : List Token}, ts.map Token.terminal = w →
      a.Holds ρ ts := by
  induction h with
  | terminal k =>
      rintro ts same
      obtain ⟨t, rfl, terminal⟩ := List.map_eq_singleton_iff.1 same
      exact ⟨t, rfl, terminal⟩
  | rule _ ih => exact fun same => closed _ _ (ih same)
  | seq _ _ ih ih' =>
      intro ts same
      obtain ⟨ts₁, ts₂, rfl, first, second⟩ := List.map_eq_append_iff.1 same
      exact ⟨ts₁, ts₂, rfl, ih first, ih' second⟩
  | left _ ih => exact fun same => .inl (ih same)
  | right _ ih => exact fun same => .inr (ih same)
  | none => exact fun same => .inl (List.map_eq_nil_iff.1 same)
  | some _ ih => exact fun same => .inr (ih same)
  | starNil =>
      intro ts same
      exact ⟨[], List.map_eq_nil_iff.1 same, List.forall_mem_nil _⟩
  | starCons _ _ ih ih' =>
      intro ts same
      obtain ⟨ts₁, ts₂, rfl, first, second⟩ := List.map_eq_append_iff.1 same
      obtain ⟨parts, rfl, all⟩ := ih' second
      exact ⟨ts₁ :: parts, rfl, List.forall_mem_cons.2 ⟨ih first, all⟩⟩
  | upToNil =>
      intro ts same
      exact ⟨[], List.map_eq_nil_iff.1 same, Nat.zero_le _, List.forall_mem_nil _⟩
  | upToCons _ _ ih ih' =>
      intro ts same
      obtain ⟨ts₁, ts₂, rfl, first, second⟩ := List.map_eq_append_iff.1 same
      obtain ⟨parts, rfl, few, all⟩ := ih' second
      exact ⟨ts₁ :: parts, rfl, Nat.succ_le_succ few, List.forall_mem_cons.2 ⟨ih first, all⟩⟩

end Ebnf

/-! ### The rules -/

inductive Nonterminal where
  | program | declaration | classDecl | funDecl | function | varDecl
  | statement | exprStmt | forStmt | printStmt | returnStmt | whileStmt | ifStmt | block
  | parameters | expression | assignment | logicOr | logicAnd | equality | comparison | term
  | factor | unary | call | arguments | primary
deriving DecidableEq

open Ebnf in
/-- The rules of the grammar.  A list of parameters or arguments is an entry and `more` of a comma
with an entry. -/
def production (more : Ebnf Nonterminal → Ebnf Nonterminal) : Nonterminal → Ebnf Nonterminal
  | .program => .seq (.star (.rule .declaration)) (.terminal .eof)
  | .declaration => .alt (.rule .classDecl) <| .alt (.rule .funDecl) <| .alt (.rule .varDecl) <|
      .rule .statement
  | .classDecl => .seq (word .class) <| .seq identifier <|
      .seq (.option (.seq (symbol .less) identifier)) <| .seq (symbol .leftBrace) <|
      .seq (.star (.rule .function)) <| symbol .rightBrace
  | .funDecl => .seq (word .fun) (.rule .function)
  | .function => .seq identifier <| .seq (symbol .leftParen) <|
      .seq (.option (.rule .parameters)) <| .seq (symbol .rightParen) <| .rule .block
  | .varDecl => .seq (word .var) <| .seq identifier <|
      .seq (.option (.seq (symbol .equal) (.rule .expression))) <| symbol .semicolon
  | .statement => .alt (.rule .exprStmt) <| .alt (.rule .forStmt) <| .alt (.rule .ifStmt) <|
      .alt (.rule .printStmt) <| .alt (.rule .returnStmt) <| .alt (.rule .whileStmt) <| .rule .block
  | .exprStmt => .seq (.rule .expression) (symbol .semicolon)
  | .forStmt => .seq (word .for) <| .seq (symbol .leftParen) <|
      .seq (.alt (.rule .varDecl) <| .alt (.rule .exprStmt) <| symbol .semicolon) <|
      .seq (.option (.rule .expression)) <| .seq (symbol .semicolon) <|
      .seq (.option (.rule .expression)) <| .seq (symbol .rightParen) <| .rule .statement
  | .printStmt => .seq (word .print) <| .seq (.rule .expression) <| symbol .semicolon
  | .returnStmt => .seq (word .return) <| .seq (.option (.rule .expression)) <| symbol .semicolon
  | .whileStmt => .seq (word .while) <| .seq (symbol .leftParen) <| .seq (.rule .expression) <|
      .seq (symbol .rightParen) <| .rule .statement
  | .ifStmt => .seq (word .if) <| .seq (symbol .leftParen) <| .seq (.rule .expression) <|
      .seq (symbol .rightParen) <| .seq (.rule .statement) <|
      .option (.seq (word .else) (.rule .statement))
  | .block => .seq (symbol .leftBrace) <| .seq (.star (.rule .declaration)) <| symbol .rightBrace
  | .parameters => .seq identifier (more (.seq (symbol .comma) identifier))
  | .expression => .rule .assignment
  | .assignment => .alt (.seq (.option (.seq (.rule .call) (symbol .dot))) <| .seq identifier <|
      .seq (symbol .equal) <| .rule .assignment) <| .rule .logicOr
  | .logicOr => .seq (.rule .logicAnd) (.star (.seq (word .or) (.rule .logicAnd)))
  | .logicAnd => .seq (.rule .equality) (.star (.seq (word .and) (.rule .equality)))
  | .equality => .seq (.rule .comparison) <| .star <|
      .seq (oneOf (.symbol .bangEqual) [.symbol .equalEqual]) (.rule .comparison)
  | .comparison => .seq (.rule .term) <| .star <| .seq (oneOf (.symbol .greater)
      [.symbol .greaterEqual, .symbol .less, .symbol .lessEqual]) (.rule .term)
  | .term => .seq (.rule .factor) <| .star <|
      .seq (oneOf (.symbol .minus) [.symbol .plus]) (.rule .factor)
  | .factor => .seq (.rule .unary) <| .star <|
      .seq (oneOf (.symbol .slash) [.symbol .star]) (.rule .unary)
  | .unary => .alt (.seq (oneOf (.symbol .bang) [.symbol .minus]) (.rule .unary)) (.rule .call)
  | .call => .seq (.rule .primary) <| .star <|
      .alt (.seq (symbol .leftParen) <| .seq (.option (.rule .arguments)) <| symbol .rightParen) <|
      .seq (symbol .dot) identifier
  | .arguments => .seq (.rule .expression) (more (.seq (symbol .comma) (.rule .expression)))
  | .primary => .alt (oneOf .number [.string, .keyword .true, .keyword .false, .keyword .nil,
      .keyword .this, .identifier]) <|
      .alt (.seq (symbol .leftParen) <| .seq (.rule .expression) <| symbol .rightParen) <|
      .seq (word .super) <| .seq (symbol .dot) <| identifier

/-- The grammar as documented. -/
def grammar : Nonterminal → Ebnf Nonterminal := production .star

/-- The grammar with at most 255 entries in a list of parameters or arguments. -/
def limitedGrammar : Nonterminal → Ebnf Nonterminal := production (.upTo 254)

namespace Ebnf

/-- The right side of a rule, with any number of repetitions where there was a limit. -/
def unlimited : Ebnf N → Ebnf N
  | .terminal k => .terminal k
  | .rule n => .rule n
  | .seq a b => .seq a.unlimited b.unlimited
  | .alt a b => .alt a.unlimited b.unlimited
  | .option a => .option a.unlimited
  | .star a => .star a.unlimited
  | .upTo _ a => .star a.unlimited

theorem unlimited_limitedGrammar (n : Nonterminal) : (limitedGrammar n).unlimited = grammar n := by
  cases n <;> rfl

/-- The limit takes away from what can be derived and adds nothing. -/
theorem Derives.unlimited {a : Ebnf Nonterminal} {w : List Terminal}
    (h : Derives limitedGrammar a w) : Derives grammar a.unlimited w := by
  induction h with
  | terminal k => exact .terminal k
  | @rule n w _ ih => exact .rule (unlimited_limitedGrammar n ▸ ih)
  | seq _ _ ih ih' => exact .seq ih ih'
  | left _ ih => exact .left ih
  | right _ ih => exact .right ih
  | none => exact .none
  | some _ ih => exact .some ih
  | starNil => exact .starNil
  | starCons _ _ ih ih' => exact .starCons ih ih'
  | upToNil => exact .starNil
  | upToCons _ _ ih ih' => exact .starCons ih ih'

end Ebnf

end Lox
