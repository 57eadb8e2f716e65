import Lox.Proofs.Grammar.Acceptance
import Lox.Proofs.Grammar.Derivation
import Lox.Proofs.Grammar.Faultless
import Lox.Token.Scan

/-!
# What the parser accepts

The parser reports no error exactly if the tokens can be derived by the rules of the grammar.

`Meant n` is what the tokens for a nonterminal `n` stand for, and every rule leads from what its
right side means to what its left side means (`meant_of_holds`).  Where an `else` follows two `if`s,
it can be derived as a part of either; the tokens stand for a statement in which it belongs to the
nearer one (`Phrase.attach`).
-/

namespace Lox

open Ebnf

def Meant : Nonterminal → List Token → Prop
  | .program, ts => ∃ ts' eof ss, ts = ts' ++ [eof] ∧ eof.terminal = .eof ∧
      Phrase .declarations ts' ss
  | .declaration, ts | .classDecl, ts | .funDecl, ts => ∃ s, Phrase .declaration ts s
  | .function, ts => ∃ d, Phrase .function ts d
  | .varDecl, ts => ∃ word ts' s, ts = word :: ts' ∧ word.terminal = .keyword .var ∧ VarPhrase ts' s
  | .exprStmt, ts => ∃ ts' e semicolon, ts = ts' ++ [semicolon] ∧ Expr.Spells .assignment ts' e ∧
      semicolon.terminal = .symbol .semicolon
  | .block, ts => ∃ left ts' ss right, ts = left :: (ts' ++ [right]) ∧
      left.terminal = .symbol .leftBrace ∧ Phrase .declarations ts' ss ∧
      right.terminal = .symbol .rightBrace
  | .statement, ts | .forStmt, ts | .printStmt, ts | .returnStmt, ts | .whileStmt, ts
  | .ifStmt, ts => ∃ o s, Phrase (.statement o) ts s
  | .parameters, ts => ∃ ps, Parameters ts ps ∧ ps.length ≤ 255
  | .arguments, ts => ∃ es, CommaList (Expr.Spells .assignment) ts es ∧ es.length ≤ 255
  | .expression, ts | .assignment, ts => ∃ e, Expr.Spells .assignment ts e
  | .logicOr, ts => ∃ e, Expr.Spells .disjunction ts e
  | .logicAnd, ts => ∃ e, Expr.Spells .conjunction ts e
  | .equality, ts => ∃ e, Expr.Spells .equality ts e
  | .comparison, ts => ∃ e, Expr.Spells .comparison ts e
  | .term, ts => ∃ e, Expr.Spells .term ts e
  | .factor, ts => ∃ e, Expr.Spells .factor ts e
  | .unary, ts => ∃ e, Expr.Spells .unary ts e
  | .call, ts => ∃ e, Expr.Spells .call ts e
  | .primary, ts => ∃ e, Expr.Spells .primary ts e

abbrev Unfolded (n : Nonterminal) (ts : List Token) : Prop := (limitedGrammar n).Holds Meant ts

variable {ts : List Token}

/-! ### Lists with commas -/

namespace CommaList

variable {P : List Token → α → Prop}

theorem of_holds {entry : Ebnf Nonterminal}
    (h : (Ebnf.seq entry (.upTo 254 (.seq (symbol .comma) entry))).Holds Meant ts)
    (item : ∀ ts', entry.Holds Meant ts' → ∃ a, P ts' a) :
    ∃ as, CommaList P ts as ∧ as.length ≤ 255 := by
  obtain ⟨ts₁, _, rfl, first, parts, rfl, few, all⟩ := h
  obtain ⟨a, first⟩ := item ts₁ first
  obtain ⟨as, count, list⟩ := CommaList.of_parts first fun p hp => by
    obtain ⟨comma, ts', rfl, mark, entry⟩ := holds_first.1 (all p hp)
    obtain ⟨b, entry⟩ := item ts' entry
    exact ⟨comma, ts', b, rfl, mark, entry⟩
  exact ⟨a :: as, list, by rw [List.length_cons]; omega⟩

theorem of_optional (h : ts = [] ∨ ∃ as, CommaList P ts as ∧ as.length ≤ 255) :
    ∃ as, CommaList P ts as ∧ as.length ≤ 255 := by
  rcases h with rfl | h
  · exact ⟨[], .nil, Nat.zero_le _⟩
  · exact h

end CommaList

/-! ### Expressions -/

theorem meant_level {l : Level} : Meant l.nonterminal ts ↔ ∃ e, Expr.Spells l ts e := by
  cases l <;> exact Iff.rfl

namespace Expr

/-- An expression that grows by the parts behind it. -/
theorem Spells.exists_flatten {l : Level} {item : List Token → Prop}
    (grow : ∀ ⦃ts a p⦄, Spells l ts a → item p → ∃ b, Spells l (ts ++ p) b) {a : Expr}
    {parts : List (List Token)} (first : Spells l ts a) (all : ∀ p ∈ parts, item p) :
    ∃ e, Spells l (ts ++ parts.flatten) e := by
  induction parts generalizing ts a with
  | nil => exact ⟨a, by simpa using first⟩
  | cons p parts ih =>
      obtain ⟨one, others⟩ := List.forall_mem_cons.1 all
      obtain ⟨b, longer⟩ := grow first one
      obtain ⟨e, spells⟩ := ih longer others
      exact ⟨e, by rwa [List.flatten_cons, ← List.append_assoc]⟩

theorem exists_grouped {l : Level} (above : .disjunction ≤ l) (below : l ≤ .factor)
    (h : Unfolded l.nonterminal ts) : ∃ e, Spells l ts e := by
  obtain ⟨k, ks, rule, operators⟩ := Level.exists_grouping above below
  rw [Unfolded, rule] at h
  obtain ⟨ts₁, _, rfl, first, parts, rfl, all⟩ := h
  obtain ⟨a, first⟩ := meant_level.1 first
  have loose : l < .unary := Nat.lt_of_le_of_lt below (by decide)
  have tighter : l < l.next := Level.lt_next loose
  refine (first.loosen (Nat.le_of_lt tighter)).exists_flatten ?_ all
  rintro ts a p left ⟨_, ts', rfl, operator, right⟩
  obtain ⟨o, rfl, mem⟩ := holds_oneOf operator
  obtain ⟨b, right⟩ := meant_level.1 right
  have level := (operators _).1 mem
  by_cases logical : l ≤ .conjunction
  · exact ⟨_, .logical level above logical left right tighter⟩
  · exact ⟨_, .binary level (Level.next_le (Nat.lt_of_not_le logical)) below left right tighter⟩

theorem exists_primary (h : Unfolded .primary ts) : ∃ e, Spells .primary ts e := by
  rcases h with one | grouping | «super»
  · obtain ⟨t, rfl, mem⟩ := holds_oneOf one
    have literal (value : Literal) (kind : t.kind = value.kind) : ∃ e, Spells .primary [t] e :=
      ⟨.literal value, .literal kind⟩
    have word {w : Keyword} (h : t.terminal = .keyword w) : t.kind = .keyword w :=
      Mark.admits_keyword.2 h
    simp only [List.mem_cons, List.not_mem_nil, or_false] at mem
    rcases mem with number | string | yes | no | nil | this | identifier
    · rw [Token.terminal] at number
      cases kind : t.kind with
      | number value => exact literal (.number value) kind
      | _ => rw [kind] at number; cases number
    · rw [Token.terminal] at string
      cases kind : t.kind with
      | string contents => exact literal (.string contents) kind
      | _ => rw [kind] at string; cases string
    · exact literal (.bool true) (word yes)
    · exact literal (.bool false) (word no)
    · exact literal .nil (word nil)
    · exact ⟨_, .this 0 this⟩
    · exact ⟨_, .variable 0 identifier⟩
  · obtain ⟨left, _, rfl, opens, rest⟩ := holds_first.1 grouping
    obtain ⟨ts, _, rfl, ⟨e, inner⟩, right, rfl, closes⟩ := rest
    exact ⟨_, .grouping opens inner closes⟩
  · obtain ⟨keyword, _, rfl, word, rest⟩ := holds_first.1 «super»
    obtain ⟨dot, _, rfl, mark, name, rfl, identifier⟩ := holds_first.1 rest
    exact ⟨_, .super 0 word mark identifier⟩

theorem exists_call (h : Unfolded .call ts) : ∃ e, Spells .call ts e := by
  obtain ⟨ts₁, _, rfl, ⟨a, first⟩, parts, rfl, all⟩ := h
  refine (first.loosen (by decide)).exists_flatten ?_ all
  rintro ts a p callee (h | h)
  · obtain ⟨left, _, rfl, opens, ts', _, rfl, given, right, rfl, closes⟩ := holds_first.1 h
    obtain ⟨es, given, few⟩ := CommaList.of_optional given
    exact ⟨_, callee.call opens given few closes⟩
  · obtain ⟨dot, _, rfl, mark, name, rfl, identifier⟩ := holds_first.1 h
    exact ⟨_, callee.get mark identifier⟩

theorem exists_unary (h : Unfolded .unary ts) : ∃ e, Spells .unary ts e := by
  rcases h with ⟨_, ts', rfl, operator, e, right⟩ | ⟨e, call⟩
  · obtain ⟨o, rfl, mem⟩ := holds_oneOf operator
    exact ⟨_, .unary mem right⟩
  · exact ⟨e, call.loosen (by decide)⟩

theorem exists_assignment (h : Unfolded .assignment ts) : ∃ e, Spells .assignment ts e := by
  rcases h with ⟨_, _, rfl, target, rest⟩ | ⟨e, value⟩
  · obtain ⟨name, _, rfl, identifier, rest⟩ := holds_first.1 rest
    obtain ⟨equals, ts', rfl, sign, e, value⟩ := holds_first.1 rest
    rcases target with rfl | ⟨ts, _, rfl, ⟨a, object⟩, dot, rfl, mark⟩
    · exact ⟨_, .assign 0 identifier sign value⟩
    · exact ⟨_, by simpa using object.set mark identifier sign value⟩
  · exact ⟨e, value.loosen (by decide)⟩

end Expr

theorem OptionalExpr.of_holds (h : (Ebnf.option (.rule .expression)).Holds Meant ts) :
    ∃ o, OptionalExpr ts o := by
  rcases h with rfl | ⟨e, value⟩
  · exact ⟨_, .none⟩
  · exact ⟨_, .some value⟩

/-! ### Statements -/

namespace Phrase

/-- A statement that ends in an `if` without `else`, and an `else`: it belongs to the last `if`. -/
theorem attach {word : Token} {ts' : List Token} {o : Bool} {s s' : Stmt}
    (h : Phrase (.statement true) ts s) (between : word.terminal = .keyword .else)
    (h' : Phrase (.statement o) ts' s') : ∃ o s, Phrase (.statement o) (ts ++ word :: ts') s := by
  induction hn : ts.length using Nat.strongRecOn generalizing ts s with
  | ind n ih =>
      have step {ts : List Token} {s : Stmt} (h : Phrase (.statement true) ts s)
          (short : ts.length < n) := ih ts.length short h rfl
      cases h with
      | @branch _ _ _ cs ts _ o _ starts opens condition closes body =>
          cases o with
          | false =>
              have attached := Phrase.alternative starts opens condition closes body between h'
              exact ⟨_, _, by simpa using attached⟩
          | true =>
              obtain ⟨_, _, longer⟩ := step body (by simp at hn; omega)
              exact ⟨_, _, by simpa using .branch starts opens condition closes longer⟩
      | alternative starts opens condition closes body word second =>
          obtain ⟨_, _, longer⟩ := step second (by simp at hn; omega)
          exact ⟨_, _, by simpa using .alternative starts opens condition closes body word longer⟩
      | «while» starts opens condition closes body =>
          obtain ⟨_, _, longer⟩ := step body (by simp at hn; omega)
          exact ⟨_, _, by simpa using .while starts opens condition closes longer⟩
      | «for» starts opens first second ends third closes body =>
          obtain ⟨_, _, longer⟩ := step body (by simp at hn; omega)
          exact ⟨_, _, by simpa using .for starts opens first second ends third closes longer⟩

theorem declarations_of_holds (h : (Ebnf.star (.rule .declaration)).Holds Meant ts) :
    ∃ ss, Phrase .declarations ts ss := by
  obtain ⟨parts, rfl, all⟩ := h
  induction parts with
  | nil => exact ⟨[], .nil⟩
  | cons p parts ih =>
      obtain ⟨⟨s, first⟩, others⟩ := List.forall_mem_cons.1 all
      obtain ⟨ss, rest⟩ := ih others
      exact ⟨s :: ss, .cons first rest⟩

theorem functions_of_holds (h : (Ebnf.star (.rule .function)).Holds Meant ts) :
    ∃ ds, Phrase .functions ts ds := by
  obtain ⟨parts, rfl, all⟩ := h
  induction parts with
  | nil => exact ⟨[], .noMethods⟩
  | cons p parts ih =>
      obtain ⟨⟨d, first⟩, others⟩ := List.forall_mem_cons.1 all
      obtain ⟨ds, rest⟩ := ih others
      exact ⟨d :: ds, .method first rest⟩

theorem exists_statement (h : Unfolded .statement ts) : ∃ o s, Phrase (.statement o) ts s := by
  rcases h with expression | looped | branch | print | «return» | «while» | block
  · obtain ⟨ts, e, semicolon, rfl, value, ends⟩ := expression
    exact ⟨_, _, .expression value ends⟩
  · exact looped
  · exact branch
  · exact print
  · exact «return»
  · exact «while»
  · obtain ⟨left, ts, ss, right, rfl, opens, body, closes⟩ := block
    exact ⟨_, _, .block opens body closes⟩

theorem exists_print (h : Unfolded .printStmt ts) : ∃ o s, Phrase (.statement o) ts s := by
  obtain ⟨word, _, rfl, starts, ts, _, rfl, ⟨e, value⟩, semicolon, rfl, ends⟩ := holds_first.1 h
  exact ⟨_, _, .print starts value ends⟩

theorem exists_return (h : Unfolded .returnStmt ts) : ∃ o s, Phrase (.statement o) ts s := by
  obtain ⟨word, _, rfl, starts, ts, _, rfl, value, semicolon, rfl, ends⟩ := holds_first.1 h
  obtain ⟨value, optional⟩ := OptionalExpr.of_holds value
  exact ⟨_, _, .return starts optional ends⟩

theorem exists_while (h : Unfolded .whileStmt ts) : ∃ o s, Phrase (.statement o) ts s := by
  obtain ⟨word, _, rfl, starts, rest⟩ := holds_first.1 h
  obtain ⟨left, _, rfl, opens, cs, _, rfl, ⟨condition, spells⟩, rest⟩ := holds_first.1 rest
  obtain ⟨right, ts, rfl, closes, o, s, body⟩ := holds_first.1 rest
  exact ⟨_, _, .while starts opens spells closes body⟩

theorem exists_branch (h : Unfolded .ifStmt ts) : ∃ o s, Phrase (.statement o) ts s := by
  obtain ⟨word, _, rfl, starts, rest⟩ := holds_first.1 h
  obtain ⟨left, _, rfl, opens, cs, _, rfl, ⟨condition, spells⟩, rest⟩ := holds_first.1 rest
  obtain ⟨right, _, rfl, closes, ts, _, rfl, ⟨o, s, body⟩, rest⟩ := holds_first.1 rest
  have first : Phrase (.statement true) _ _ := .branch starts opens spells closes body
  rcases rest with rfl | rest
  · exact ⟨_, _, by simpa using first⟩
  · obtain ⟨word', ts', rfl, between, o', s', second⟩ := holds_first.1 rest
    simpa using first.attach between second

theorem exists_for (h : Unfolded .forStmt ts) : ∃ o s, Phrase (.statement o) ts s := by
  obtain ⟨word, _, rfl, starts, rest⟩ := holds_first.1 h
  obtain ⟨left, _, rfl, opens, is, _, rfl, clause, rest⟩ := holds_first.1 rest
  obtain ⟨cs, _, rfl, condition, rest⟩ := rest
  obtain ⟨semicolon, _, rfl, ends, ns, _, rfl, increment, rest⟩ := holds_first.1 rest
  obtain ⟨right, ts, rfl, closes, o, s, body⟩ := holds_first.1 rest
  obtain ⟨condition, second⟩ := OptionalExpr.of_holds condition
  obtain ⟨increment, third⟩ := OptionalExpr.of_holds increment
  obtain ⟨initializer, first⟩ : ∃ i, FirstClause is i := by
    rcases clause with ⟨word, ts, s, rfl, var, rest⟩ | ⟨ts, e, semicolon, rfl, value, ends⟩ | none
    · exact ⟨_, .var var rest⟩
    · exact ⟨_, .expression value ends⟩
    · obtain ⟨semicolon, rfl, mark⟩ := none
      exact ⟨_, .none mark⟩
  exact ⟨_, _, .for starts opens first second ends third closes body⟩

theorem exists_class (h : Unfolded .classDecl ts) : ∃ s, Phrase .declaration ts s := by
  obtain ⟨word, _, rfl, starts, rest⟩ := holds_first.1 h
  obtain ⟨name, _, rfl, identifier, cs, _, rfl, clause, rest⟩ := holds_first.1 rest
  obtain ⟨left, _, rfl, opens, ts, _, rfl, methods, right, rfl, closes⟩ := holds_first.1 rest
  obtain ⟨ds, methods⟩ := functions_of_holds methods
  obtain ⟨superclass, clause⟩ : ∃ superclass, SuperClause cs superclass := by
    rcases clause with rfl | clause
    · exact ⟨_, .none⟩
    · obtain ⟨less, _, rfl, mark, parent, rfl, named⟩ := holds_first.1 clause
      exact ⟨_, .some 0 mark named⟩
  exact ⟨_, .class starts identifier clause opens methods closes⟩

theorem exists_function (h : Unfolded .function ts) : ∃ d, Phrase .function ts d := by
  obtain ⟨name, _, rfl, identifier, rest⟩ := holds_first.1 h
  obtain ⟨left, _, rfl, opens, ps, _, rfl, given, rest⟩ := holds_first.1 rest
  obtain ⟨right, _, rfl, closes, left', ts, ss, right', rfl, opens', body, closes'⟩ :=
    holds_first.1 rest
  obtain ⟨parameters, given, few⟩ := CommaList.of_optional given
  exact ⟨_, .decl identifier opens given few closes opens' body closes'⟩

theorem exists_declaration (h : Unfolded .declaration ts) : ∃ s, Phrase .declaration ts s := by
  rcases h with «class» | function | var | statement
  · exact «class»
  · exact function
  · obtain ⟨word, ts, s, rfl, starts, rest⟩ := var
    exact ⟨s, .var starts rest⟩
  · obtain ⟨o, s, statement⟩ := statement
    exact ⟨s, statement.plain⟩

end Phrase

theorem VarPhrase.of_holds (h : Unfolded .varDecl ts) : Meant .varDecl ts := by
  obtain ⟨word, _, rfl, starts, rest⟩ := holds_first.1 h
  obtain ⟨name, _, rfl, identifier, ts, _, rfl, value, semicolon, rfl, ends⟩ := holds_first.1 rest
  rcases value with rfl | value
  · exact ⟨word, _, _, rfl, starts, .none identifier ends⟩
  · obtain ⟨equals, ts, rfl, sign, e, value⟩ := holds_first.1 value
    exact ⟨word, _, _, rfl, starts, .some identifier sign value ends⟩

/-! ### Programs -/

/-- Every rule of the grammar leads from what its right side means to what its left side means. -/
theorem meant_of_holds (n : Nonterminal) (ts : List Token) (h : Unfolded n ts) : Meant n ts := by
  cases n with
  | program =>
      obtain ⟨ts, _, rfl, declarations, eof, rfl, terminal⟩ := h
      obtain ⟨ss, body⟩ := Phrase.declarations_of_holds declarations
      exact ⟨ts, eof, ss, rfl, terminal, body⟩
  | declaration => exact Phrase.exists_declaration h
  | classDecl => exact Phrase.exists_class h
  | funDecl =>
      obtain ⟨word, ts, rfl, starts, d, function⟩ := holds_first.1 h
      exact ⟨_, .function starts function⟩
  | function => exact Phrase.exists_function h
  | varDecl => exact VarPhrase.of_holds h
  | statement => exact Phrase.exists_statement h
  | exprStmt =>
      obtain ⟨ts, _, rfl, ⟨e, value⟩, semicolon, rfl, ends⟩ := h
      exact ⟨ts, e, semicolon, rfl, value, ends⟩
  | forStmt => exact Phrase.exists_for h
  | printStmt => exact Phrase.exists_print h
  | returnStmt => exact Phrase.exists_return h
  | whileStmt => exact Phrase.exists_while h
  | ifStmt => exact Phrase.exists_branch h
  | block =>
      obtain ⟨left, _, rfl, opens, ts, _, rfl, declarations, right, rfl, closes⟩ := holds_first.1 h
      obtain ⟨ss, body⟩ := Phrase.declarations_of_holds declarations
      exact ⟨left, ts, ss, right, rfl, opens, body, closes⟩
  | parameters => exact CommaList.of_holds h fun _ ⟨p, same, identifier⟩ => ⟨p, same, identifier⟩
  | arguments => exact CommaList.of_holds h fun _ spells => spells
  | expression => exact h
  | assignment => exact Expr.exists_assignment h
  | logicOr => exact Expr.exists_grouped (l := .disjunction) (by decide) (by decide) h
  | logicAnd => exact Expr.exists_grouped (l := .conjunction) (by decide) (by decide) h
  | equality => exact Expr.exists_grouped (l := .equality) (by decide) (by decide) h
  | comparison => exact Expr.exists_grouped (l := .comparison) (by decide) (by decide) h
  | term => exact Expr.exists_grouped (l := .term) (by decide) (by decide) h
  | factor => exact Expr.exists_grouped (l := .factor) (by decide) (by decide) h
  | unary => exact Expr.exists_unary h
  | call => exact Expr.exists_call h
  | primary => exact Expr.exists_primary h

/-- The parser reports no error exactly if the tokens, with the end after them, can be derived with
at most 255 entries in each list of parameters or arguments. -/
theorem parse_clean_iff (proper : ∀ t ∈ ts, t.terminal ≠ .eof) (firstSite : Site) :
    (parse ts firstSite).errors = [] ↔
      Derives limitedGrammar (.rule .program) (ts.map Token.terminal ++ [.eof]) := by
  constructor
  · intro clean
    have body : Matches limitedGrammar (.star (.rule .declaration)) ts :=
      (parse_phrase proper clean).derivable
    exact .rule (.seq body (.terminal .eof))
  · intro derived
    have terminals : (ts ++ [eofOf ts]).map Token.terminal = ts.map Token.terminal ++ [.eof] := by
      rw [List.map_append, List.map_singleton, eofOf_terminal]
    obtain ⟨ts', eof, ss, same, -, phrase⟩ := derived.holds meant_of_holds terminals
    obtain ⟨rfl, -⟩ := List.append_inj' same rfl
    exact (parse_accepts phrase proper firstSite).1

/-- An `else` after two `if`s, a loop between them, and both kinds of targets; a call is none. -/
theorem parse_clean_iff_targets :
    let source := "if (a) for (var i = 0; i < 3;) if (b) c.d(i, -i).e = f = 1; else g();"
    let tokens := (tokensOf (scan source)).dropLast
    let others := (tokensOf (scan "f(1) = 2;")).dropLast
    (∀ t ∈ tokens, t.terminal ≠ .eof) ∧ (∀ t ∈ others, t.terminal ≠ .eof) ∧
      Derives limitedGrammar (.rule .program) (tokens.map Token.terminal ++ [.eof]) ∧
      ¬Derives limitedGrammar (.rule .program) (others.map Token.terminal ++ [.eof]) := by
  intro source tokens others
  have proper : ∀ t ∈ tokens, t.terminal ≠ .eof := by decide +kernel
  have proper' : ∀ t ∈ others, t.terminal ≠ .eof := by decide +kernel
  have clean : (parse tokens 0).errors = [] := by decide +kernel
  have faulty : (parse others 0).errors ≠ [] := by decide +kernel
  exact ⟨proper, proper', (parse_clean_iff proper 0).1 clean,
    fun derived => faulty ((parse_clean_iff proper' 0).2 derived)⟩

end Lox
