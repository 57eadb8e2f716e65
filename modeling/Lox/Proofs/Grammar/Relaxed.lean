import Lox.Proofs.Grammar.Ebnf

/-!
# What may come next

The parser reads any expression before an equals sign and judges it afterwards.  `relaxedGrammar` is
the grammar that it reads by: the documented one with any loose operand as the left side of an
assignment, and no limit on lists.

What may follow after some terminals is again given by a right side, of which `Ebnf.Yields` says
what it derives.  The lemmas on `Ebnf.seq` say which terminals it may start with and what may follow
after these.  A nonterminal derives something (`Ebnf.inhabited`), never nothing, and what it derives
starts with a terminal of `Nonterminal.first`.
-/

namespace Lox

open Ebnf in
/-- The rules of the grammar, with any expression of the next level as the left side of an
assignment. -/
def relaxedGrammar : Nonterminal → Ebnf Nonterminal
  | .assignment => .seq (.rule .logicOr) <| .option (.seq (symbol .equal) (.rule .assignment))
  | n => grammar n

/-- What the right side of a rule has behind its first part. -/
def Nonterminal.rest (n : Nonterminal) : Ebnf Nonterminal :=
  match relaxedGrammar n with
  | .seq _ b => b
  | a => a

namespace Ebnf

def Yields (a : Ebnf Nonterminal) (w : List Terminal) : Prop := Derives relaxedGrammar a w

variable {a b c K K' : Ebnf Nonterminal} {k k' k₀ : Terminal} {ks : List Terminal}
  {w : List Terminal} {n : Nonterminal}

/-! ### Sequences by their first part -/

theorem yields_seq : (seq a b).Yields w ↔ ∃ u v, w = u ++ v ∧ a.Yields u ∧ b.Yields v := by
  constructor
  · intro h
    cases h with
    | seq first second => exact ⟨_, _, rfl, first, second⟩
  · rintro ⟨u, v, rfl, first, second⟩
    exact .seq first second

theorem yields_rule : (rule n).Yields w ↔ (relaxedGrammar n).Yields w := by
  constructor
  · intro h
    cases h with
    | rule h => exact h
  · exact .rule

theorem yields_terminal : (terminal k').Yields w ↔ w = [k'] := by
  constructor
  · intro h
    cases h
    rfl
  · rintro rfl
    exact .terminal k'

@[simp] theorem yields_terminal_seq :
    (seq (terminal k') K).Yields (k :: w) ↔ k = k' ∧ K.Yields w := by
  rw [yields_seq]
  constructor
  · rintro ⟨u, v, same, first, second⟩
    obtain rfl := yields_terminal.1 first
    obtain ⟨rfl, rfl⟩ := List.cons.inj same
    exact ⟨rfl, second⟩
  · rintro ⟨rfl, second⟩
    exact ⟨[k], w, rfl, .terminal k, second⟩

@[simp] theorem yields_symbol_seq {mark : Symbol} :
    (seq (symbol mark) K).Yields (k :: w) ↔ k = .symbol mark ∧ K.Yields w :=
  yields_terminal_seq

@[simp] theorem yields_word_seq {word : Keyword} :
    (seq (Ebnf.word word) K).Yields (k :: w) ↔ k = .keyword word ∧ K.Yields w :=
  yields_terminal_seq

@[simp] theorem yields_seq_seq : (seq (seq a b) K).Yields w ↔ (seq a (seq b K)).Yields w := by
  simp only [yields_seq]
  constructor
  · rintro ⟨_, v, rfl, ⟨u, u', rfl, first, second⟩, rest⟩
    exact ⟨u, u' ++ v, List.append_assoc _ _ _, first, u', v, rfl, second, rest⟩
  · rintro ⟨u, _, rfl, first, u', v, rfl, second, rest⟩
    exact ⟨u ++ u', v, (List.append_assoc _ _ _).symm, ⟨u, u', rfl, first, second⟩, rest⟩

@[simp] theorem yields_alt_seq :
    (seq (alt a b) K).Yields w ↔ (seq a K).Yields w ∨ (seq b K).Yields w := by
  simp only [yields_seq]
  constructor
  · rintro ⟨u, v, rfl, first, rest⟩
    cases first with
    | left first => exact .inl ⟨u, v, rfl, first, rest⟩
    | right first => exact .inr ⟨u, v, rfl, first, rest⟩
  · rintro (⟨u, v, rfl, first, rest⟩ | ⟨u, v, rfl, first, rest⟩)
    · exact ⟨u, v, rfl, .left first, rest⟩
    · exact ⟨u, v, rfl, .right first, rest⟩

@[simp] theorem yields_option_seq :
    (seq (option a) K).Yields w ↔ K.Yields w ∨ (seq a K).Yields w := by
  simp only [yields_seq]
  constructor
  · rintro ⟨u, v, rfl, first, rest⟩
    cases first with
    | none => exact .inl rest
    | some first => exact .inr ⟨u, v, rfl, first, rest⟩
  · rintro (rest | ⟨u, v, rfl, first, rest⟩)
    · exact ⟨[], w, rfl, .none, rest⟩
    · exact ⟨u, v, rfl, .some first, rest⟩

/-- No round of a repetition, or one and then the others. -/
theorem yields_star_seq :
    (seq (star a) K).Yields w ↔ K.Yields w ∨ (seq a (seq (star a) K)).Yields w := by
  simp only [yields_seq]
  constructor
  · rintro ⟨_, v, rfl, first, rest⟩
    cases first with
    | starNil => exact .inl rest
    | starCons first others =>
        exact .inr ⟨_, _, List.append_assoc _ _ _, first, _, v, rfl, others, rest⟩
  · rintro (rest | ⟨u, _, rfl, first, u', v, rfl, others, rest⟩)
    · exact ⟨[], w, rfl, .starNil, rest⟩
    · exact ⟨u ++ u', v, (List.append_assoc _ _ _).symm, .starCons first others, rest⟩

@[simp] theorem yields_oneOf_seq :
    (seq (oneOf k₀ ks) K).Yields (k :: w) ↔ k ∈ k₀ :: ks ∧ K.Yields w := by
  induction ks generalizing k₀ with
  | nil => simp [oneOf]
  | cons k' ks ih => simp [oneOf, ih, or_and_right]

/-- A rule stands for its right side. -/
theorem yields_rule_seq :
    (seq (rule n) K).Yields w ↔ (seq (relaxedGrammar n) K).Yields w := by
  simp only [yields_seq, yields_rule]

theorem Yields.seq_mono (h : (seq a K).Yields w) (sub : ∀ v, K.Yields v → K'.Yields v) :
    (seq a K').Yields w := by
  obtain ⟨u, v, rfl, first, rest⟩ := yields_seq.1 h
  exact yields_seq.2 ⟨u, v, rfl, first, sub v rest⟩

/-- What `a` and then `K` derive, with the parts of `a` one after the other. -/
def followedBy : Ebnf Nonterminal → Ebnf Nonterminal → Ebnf Nonterminal
  | .seq a b, K => a.followedBy (b.followedBy K)
  | a, K => .seq a K

theorem yields_followedBy : (a.followedBy K).Yields w ↔ (seq a K).Yields w := by
  induction a generalizing K w with
  | seq a b iha ihb =>
      rw [followedBy, iha, yields_seq_seq]
      exact ⟨fun h => h.seq_mono fun _ => ihb.1, fun h => h.seq_mono fun _ => ihb.2⟩
  | _ => rfl

/-- A rule stands for the parts of its right side. -/
theorem yields_rule_followedBy :
    (seq (rule n) K).Yields w ↔ ((relaxedGrammar n).followedBy K).Yields w :=
  yields_rule_seq.trans yields_followedBy.symm

/-! ### First terminals -/

section First

variable {N : Type}

/-- May nothing be derived, if every nonterminal derives something? -/
def nullable : Ebnf N → Bool
  | .terminal _ => false
  | .rule _ => false
  | .seq a b => a.nullable && b.nullable
  | .alt a b => a.nullable || b.nullable
  | .option _ => true
  | .star _ => true
  | .upTo _ _ => true

/-- The terminals that what is derived may start with, given those for every nonterminal. -/
def first (φ : N → List Terminal) : Ebnf N → List Terminal
  | .terminal k => [k]
  | .rule n => φ n
  | .seq a b => if a.nullable then a.first φ ++ b.first φ else a.first φ
  | .alt a b => a.first φ ++ b.first φ
  | .option a => a.first φ
  | .star a => a.first φ
  | .upTo _ a => a.first φ

/-- What is derived starts with a first terminal, unless it is nothing. -/
theorem Derives.starts {g : N → Ebnf N} {φ : N → List Terminal}
    (proper : ∀ n, (g n).nullable = false) (closed : ∀ n, ∀ k ∈ (g n).first φ, k ∈ φ n)
    {a : Ebnf N} {w : List Terminal} (h : Derives g a w) :
    w = [] ∧ a.nullable = true ∨ ∃ k v, w = k :: v ∧ k ∈ a.first φ := by
  induction h with
  | terminal k => exact .inr ⟨k, [], rfl, List.mem_singleton_self k⟩
  | @rule n _ _ ih =>
      rcases ih with ⟨-, null⟩ | ⟨k, v, rfl, mem⟩
      · rw [proper n] at null
        cases null
      · exact .inr ⟨k, v, rfl, closed n k mem⟩
  | @seq a b _ _ _ _ ih ih' =>
      rw [nullable, first]
      rcases ih with ⟨rfl, null⟩ | ⟨k, v, rfl, mem⟩
      · rw [null, if_pos rfl]
        rcases ih' with ⟨rfl, null'⟩ | ⟨k, v, rfl, mem⟩
        · exact .inl ⟨rfl, null'⟩
        · exact .inr ⟨k, v, rfl, List.mem_append_right _ mem⟩
      · refine .inr ⟨k, _, rfl, ?_⟩
        split
        · exact List.mem_append_left _ mem
        · exact mem
  | left _ ih =>
      rcases ih with ⟨rfl, null⟩ | ⟨k, v, rfl, mem⟩
      · exact .inl ⟨rfl, by rw [nullable, null, Bool.true_or]⟩
      · exact .inr ⟨k, v, rfl, List.mem_append_left _ mem⟩
  | right _ ih =>
      rcases ih with ⟨rfl, null⟩ | ⟨k, v, rfl, mem⟩
      · exact .inl ⟨rfl, by rw [nullable, null, Bool.or_true]⟩
      · exact .inr ⟨k, v, rfl, List.mem_append_right _ mem⟩
  | none => exact .inl ⟨rfl, rfl⟩
  | some _ ih =>
      rcases ih with ⟨rfl, -⟩ | ⟨k, v, rfl, mem⟩
      · exact .inl ⟨rfl, rfl⟩
      · exact .inr ⟨k, v, rfl, mem⟩
  | starNil => exact .inl ⟨rfl, rfl⟩
  | starCons _ _ ih ih' =>
      rcases ih with ⟨rfl, -⟩ | ⟨k, v, rfl, mem⟩
      · exact ih'
      · exact .inr ⟨k, _, rfl, mem⟩
  | upToNil => exact .inl ⟨rfl, rfl⟩
  | upToCons _ _ ih ih' =>
      rcases ih with ⟨rfl, -⟩ | ⟨k, v, rfl, mem⟩
      · rcases ih' with ⟨rfl, -⟩ | ⟨k, v, rfl, mem⟩
        · exact .inl ⟨rfl, rfl⟩
        · exact .inr ⟨k, v, rfl, mem⟩
      · exact .inr ⟨k, _, rfl, mem⟩

end First

end Ebnf

/-- The terminals that are operands of `call` by themselves. -/
def atoms : List Terminal :=
  [.number, .string, .keyword .true, .keyword .false, .keyword .nil, .keyword .this, .identifier]

def operandStarters : List Terminal := atoms ++ [.symbol .leftParen, .keyword .super]

def expressionStarters : List Terminal := [.symbol .bang, .symbol .minus] ++ operandStarters

def statementStarters : List Terminal :=
  [.keyword .for, .keyword .if, .keyword .print, .keyword .return, .keyword .while,
    .symbol .leftBrace] ++ expressionStarters

def declarationStarters : List Terminal :=
  [.keyword .class, .keyword .fun, .keyword .var] ++ statementStarters

def Nonterminal.first : Nonterminal → List Terminal
  | .program => declarationStarters ++ [.eof]
  | .declaration => declarationStarters
  | .classDecl => [.keyword .class]
  | .funDecl => [.keyword .fun]
  | .varDecl => [.keyword .var]
  | .function | .parameters => [.identifier]
  | .statement => statementStarters
  | .forStmt => [.keyword .for]
  | .printStmt => [.keyword .print]
  | .returnStmt => [.keyword .return]
  | .whileStmt => [.keyword .while]
  | .ifStmt => [.keyword .if]
  | .block => [.symbol .leftBrace]
  | .call | .primary => operandStarters
  | _ => expressionStarters

/-- The nonterminals that a nonterminal is a choice of, or else the nonterminal itself. -/
def Nonterminal.forms : Nonterminal → List Nonterminal
  | .declaration => [.classDecl, .funDecl, .varDecl, .statement]
  | .statement => [.exprStmt, .forStmt, .ifStmt, .printStmt, .returnStmt, .whileStmt, .block]
  | n => [n]

namespace Ebnf

variable {a b K : Ebnf Nonterminal} {k : Terminal} {w : List Terminal} {n m : Nonterminal}

theorem exists_cons_of_yields (h : (rule n).Yields w) : ∃ k v, w = k :: v ∧ k ∈ n.first := by
  have proper (n : Nonterminal) : (relaxedGrammar n).nullable = false := by cases n <;> rfl
  have closed (n : Nonterminal) :
      ∀ k ∈ (relaxedGrammar n).first Nonterminal.first, k ∈ n.first := by
    cases n <;> decide
  rcases h.starts proper closed with ⟨-, null⟩ | starts
  · cases null
  · exact starts

/-- What follows a nonterminal does not show at the start. -/
theorem mem_first_of_yields (h : (seq (rule n) K).Yields (k :: w)) : k ∈ n.first := by
  obtain ⟨u, v, same, first, -⟩ := yields_seq.1 h
  obtain ⟨k', u', rfl, mem⟩ := exists_cons_of_yields first
  obtain ⟨rfl, -⟩ := List.cons.inj same
  exact mem

theorem not_yields_of_not_mem_first (h : k ∉ n.first) : ¬ (seq (rule n) K).Yields (k :: w) :=
  fun yields => h (mem_first_of_yields yields)

theorem yields_forms :
    (seq (rule n) K).Yields w ↔ ∃ m ∈ n.forms, (seq (rule m) K).Yields w := by
  cases n with
  | declaration =>
      rw [yields_rule_seq]
      simp [relaxedGrammar, grammar, production, Nonterminal.forms]
  | statement =>
      rw [yields_rule_seq]
      simp [relaxedGrammar, grammar, production, Nonterminal.forms]
  | _ => simp [Nonterminal.forms]

/-- The next terminal may rule out all forms but one. -/
theorem yields_form_of_others (mem : m ∈ n.forms) (others : ∀ m' ∈ n.forms, m' ≠ m → k ∉ m'.first) :
    (seq (rule n) K).Yields (k :: w) ↔ (seq (rule m) K).Yields (k :: w) := by
  rw [yields_forms]
  constructor
  · rintro ⟨m', mem', yields⟩
    by_cases same : m' = m
    · exact same ▸ yields
    · exact absurd yields (not_yields_of_not_mem_first (others m' mem' same))
  · exact fun yields => ⟨m, mem, yields⟩

/-- No two forms start with the same terminal. -/
theorem yields_form (mem : m ∈ n.forms) (starts : k ∈ m.first) :
    (seq (rule n) K).Yields (k :: w) ↔ (seq (rule m) K).Yields (k :: w) := by
  have apart : ∀ m ∈ n.forms, ∀ m' ∈ n.forms, m' ≠ m → ∀ k ∈ m.first, k ∉ m'.first := by
    cases n <;> decide
  exact yields_form_of_others mem fun m' mem' other => apart m mem m' mem' other k starts

/-! ### Something is derived -/

def Inhabited (a : Ebnf Nonterminal) : Prop := ∃ w, a.Yields w

namespace Inhabited

theorem terminal (k : Terminal) : (Ebnf.terminal k).Inhabited := ⟨[k], .terminal k⟩

theorem seq (ha : a.Inhabited) (hb : b.Inhabited) : (Ebnf.seq a b).Inhabited := by
  obtain ⟨u, first⟩ := ha
  obtain ⟨v, second⟩ := hb
  exact ⟨u ++ v, .seq first second⟩

theorem left (ha : a.Inhabited) : (Ebnf.alt a b).Inhabited := ha.imp fun _ => .left

theorem right (hb : b.Inhabited) : (Ebnf.alt a b).Inhabited := hb.imp fun _ => .right

theorem option (a : Ebnf Nonterminal) : (Ebnf.option a).Inhabited := ⟨[], .none⟩

theorem star (a : Ebnf Nonterminal) : (Ebnf.star a).Inhabited := ⟨[], .starNil⟩

theorem of_rule (h : (relaxedGrammar n).Inhabited) : (Ebnf.rule n).Inhabited :=
  h.imp fun _ => .rule

theorem primary : (Ebnf.rule .primary).Inhabited := of_rule (.left (.left (.terminal .number)))

theorem call : (Ebnf.rule .call).Inhabited := of_rule (primary.seq (.star _))

theorem unary : (Ebnf.rule .unary).Inhabited := of_rule (.right call)

theorem factor : (Ebnf.rule .factor).Inhabited := of_rule (unary.seq (.star _))

theorem term : (Ebnf.rule .term).Inhabited := of_rule (factor.seq (.star _))

theorem comparison : (Ebnf.rule .comparison).Inhabited := of_rule (term.seq (.star _))

theorem equality : (Ebnf.rule .equality).Inhabited := of_rule (comparison.seq (.star _))

theorem logicAnd : (Ebnf.rule .logicAnd).Inhabited := of_rule (equality.seq (.star _))

theorem logicOr : (Ebnf.rule .logicOr).Inhabited := of_rule (logicAnd.seq (.star _))

theorem assignment : (Ebnf.rule .assignment).Inhabited := of_rule (logicOr.seq (.option _))

theorem expression : (Ebnf.rule .expression).Inhabited := of_rule assignment

theorem exprStmt : (Ebnf.rule .exprStmt).Inhabited := of_rule (expression.seq (.terminal _))

theorem statement : (Ebnf.rule .statement).Inhabited := of_rule (.left exprStmt)

theorem block : (Ebnf.rule .block).Inhabited :=
  of_rule ((terminal _).seq ((star _).seq (.terminal _)))

theorem function : (Ebnf.rule .function).Inhabited :=
  of_rule ((terminal _).seq ((terminal _).seq ((option _).seq ((terminal _).seq block))))

theorem varDecl : (Ebnf.rule .varDecl).Inhabited :=
  of_rule ((terminal _).seq ((terminal _).seq ((option _).seq (.terminal _))))

end Inhabited

/-- Every nonterminal derives something. -/
theorem inhabited_rule (n : Nonterminal) : (rule n).Inhabited := by
  have closing : (terminal (.symbol .semicolon)).Inhabited := .terminal _
  cases n with
  | program => exact .of_rule ((Inhabited.star _).seq (.terminal _))
  | declaration => exact .of_rule (.right (.right (.right .statement)))
  | classDecl =>
      exact .of_rule ((Inhabited.terminal _).seq ((Inhabited.terminal _).seq
        ((Inhabited.option _).seq ((Inhabited.terminal _).seq
          ((Inhabited.star _).seq (.terminal _))))))
  | funDecl => exact .of_rule ((Inhabited.terminal _).seq .function)
  | function => exact .function
  | varDecl => exact .varDecl
  | statement => exact .statement
  | exprStmt => exact .exprStmt
  | forStmt =>
      exact .of_rule ((Inhabited.terminal _).seq ((Inhabited.terminal _).seq
        ((Inhabited.left .varDecl).seq ((Inhabited.option _).seq ((Inhabited.terminal _).seq
          ((Inhabited.option _).seq ((Inhabited.terminal _).seq .statement)))))))
  | printStmt => exact .of_rule ((Inhabited.terminal _).seq (Inhabited.expression.seq closing))
  | returnStmt => exact .of_rule ((Inhabited.terminal _).seq ((Inhabited.option _).seq closing))
  | whileStmt =>
      exact .of_rule ((Inhabited.terminal _).seq ((Inhabited.terminal _).seq
        (Inhabited.expression.seq ((Inhabited.terminal _).seq .statement))))
  | ifStmt =>
      exact .of_rule ((Inhabited.terminal _).seq ((Inhabited.terminal _).seq
        (Inhabited.expression.seq ((Inhabited.terminal _).seq
          (Inhabited.statement.seq (.option _))))))
  | block => exact .block
  | parameters => exact .of_rule ((Inhabited.terminal _).seq (.star _))
  | expression => exact .expression
  | assignment => exact .assignment
  | logicOr => exact .logicOr
  | logicAnd => exact .logicAnd
  | equality => exact .equality
  | comparison => exact .comparison
  | term => exact .term
  | factor => exact .factor
  | unary => exact .unary
  | call => exact .call
  | arguments => exact .of_rule (Inhabited.expression.seq (.star _))
  | primary => exact .primary

theorem inhabited (a : Ebnf Nonterminal) : a.Inhabited := by
  induction a with
  | terminal k => exact .terminal k
  | rule n => exact inhabited_rule n
  | seq _ _ ha hb => exact ha.seq hb
  | alt _ _ ha _ => exact ha.left
  | option a _ => exact .option a
  | star a _ => exact .star a
  | upTo _ _ _ => exact ⟨[], .upToNil⟩

theorem mem_first_of_rule (h : relaxedGrammar n = seq (terminal k) a) : k ∈ n.first := by
  obtain ⟨w, yields⟩ := a.inhabited
  refine mem_first_of_yields (K := option a) (w := w) (yields_rule_seq.2 ?_)
  rw [h, yields_seq_seq, yields_terminal_seq]
  exact ⟨rfl, yields_seq.2 ⟨w, [], (List.append_nil w).symm, yields, .none⟩⟩

end Ebnf

end Lox
