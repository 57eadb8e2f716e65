import Lox.Proofs.Grammar.Renumbering
import Lox.Proofs.Grammar.Replacement

/-!
# Loops and what they stand for

A `Loop` is a `for` statement as tokens.  `Loop.Expansion` says which tokens write it with `while`:
the increment goes behind the body into a block, a missing condition is `true`, and the initializer
goes in front of the loop into a block around both.  Any tokens of the right kind will do for the
words and marks that are new.  All tokens that start with `for` and are read as one statement are
such a loop (`Loop.exists_formed`).

A loop and its expansion stand for the same statement, so the one can take the place of the other
in a program, and what is read is the same but for the numbers of the sites
(`Loop.parse_replaced`).
-/

namespace Lox

/-- The tokens are read without errors, as one statement. -/
def ReadAs (tokens : List Token) (s : Stmt) : Prop :=
  (parse tokens 0).errors = [] ∧ (parse tokens 0).statements = [s]

/-- A `for` statement as tokens.  The first clause includes its semicolon. -/
structure Loop where
  word : Token
  left : Token
  first : List Token
  condition : List Token
  semicolon : Token
  increment : List Token
  right : Token
  body : List Token

namespace Loop

def tokens (l : Loop) : List Token :=
  l.word :: l.left :: (l.first ++
    (l.condition ++ l.semicolon :: (l.increment ++ l.right :: l.body)))

def Bare (l : Loop) : Prop := ∃ t : Token, t.terminal = .symbol .semicolon ∧ l.first = [t]

/-- The words and marks are right, and each clause and the body is read as what it has to be, an
expression with the help of a semicolon. -/
structure Formed (l : Loop) : Prop where
  word : l.word.terminal = .keyword .for
  left : l.left.terminal = .symbol .leftParen
  semicolon : l.semicolon.terminal = .symbol .semicolon
  right : l.right.terminal = .symbol .rightParen
  proper : ∀ t ∈ l.tokens, t.terminal ≠ .eof
  first : l.Bare ∨ (∃ name value, ReadAs l.first (.var name value)) ∨
    ∃ e, ReadAs l.first (.expression e)
  condition : l.condition = [] ∨ ∃ e, ReadAs (l.condition ++ [l.semicolon]) (.expression e)
  increment : l.increment = [] ∨ ∃ e, ReadAs (l.increment ++ [l.semicolon]) (.expression e)
  body : ∃ s, s.isPlain ∧ ReadAs l.body s

/-- What the expansion tests. -/
inductive Test (l : Loop) : List Token → Prop
  | given : l.condition ≠ [] → Test l l.condition
  | missing {word : Token} : l.condition = [] → word.terminal = .keyword .true → Test l [word]

/-- What the expansion repeats. -/
inductive Round (l : Loop) : List Token → Prop
  | body : l.increment = [] → Round l l.body
  | block {left semicolon right : Token} : l.increment ≠ [] →
      left.terminal = .symbol .leftBrace → semicolon.terminal = .symbol .semicolon →
      right.terminal = .symbol .rightBrace →
      Round l (left :: (l.body ++ (l.increment ++ [semicolon]) ++ [right]))

/-- The `while` statement of the expansion. -/
inductive Core (l : Loop) : List Token → Prop
  | intro {word left right : Token} {test round : List Token} :
      word.terminal = .keyword .while → left.terminal = .symbol .leftParen → l.Test test →
      right.terminal = .symbol .rightParen → l.Round round →
      Core l (word :: left :: (test ++ right :: round))

/-- The loop as it is written with `while`. -/
inductive Expansion (l : Loop) : List Token → Prop
  | bare {core : List Token} : l.Bare → l.Core core → Expansion l core
  | enclosed {left right : Token} {core : List Token} : ¬l.Bare →
      left.terminal = .symbol .leftBrace → l.Core core → right.terminal = .symbol .rightBrace →
      Expansion l (left :: (l.first ++ core ++ [right]))

/-- No `else` behind the loop belongs to an `if` in its body. -/
def Whole (l : Loop) (behind : List Token) : Prop :=
  (∃ s, Phrase (.statement true) l.body s) → NoElse behind

end Loop

/-! ### Clauses -/

theorem Phrase.singleton_iff {ts : List Token} {s : Stmt} :
    Phrase .declarations ts [s] ↔ Phrase .declaration ts s := by
  constructor
  · intro h
    cases h with
    | cons first rest =>
        cases rest
        rwa [List.append_nil]
  · intro h
    have one := Phrase.cons h .nil
    rwa [List.append_nil] at one

theorem ReadAs.declaration {ts : List Token} {s : Stmt} (h : ReadAs ts s)
    (proper : ∀ t ∈ ts, t.terminal ≠ .eof) : Phrase .declaration ts s := by
  obtain ⟨clean, read⟩ := h
  have phrase := parse_phrase proper clean
  rw [read] at phrase
  exact Phrase.singleton_iff.1 phrase

/-- A declaration alone is read as it is, up to the sites. -/
theorem Phrase.exists_read {ts : List Token} {s : Stmt} (h : Phrase .declaration ts s)
    (proper : ∀ t ∈ ts, t.terminal ≠ .eof) (firstSite : Site) :
    (parse ts firstSite).errors = [] ∧ ∃ s', (parse ts firstSite).statements = [s'] ∧
      Phrase .declaration ts s' ∧ s'.relabel .forget = s.relabel .forget := by
  obtain ⟨clean, same⟩ := parse_accepts (Phrase.singleton_iff.2 h) proper firstSite
  have phrase := parse_phrase proper clean
  rw [Stmt.relabelAll_eq_map, Stmt.relabelAll_eq_map, List.map_singleton] at same
  obtain ⟨s', one, same⟩ := List.map_eq_singleton_iff.1 same
  rw [one] at phrase
  exact ⟨clean, s', one, Phrase.singleton_iff.1 phrase, same⟩

/-- What is the declaration of a variable up to the sites declares the variable. -/
theorem Stmt.exists_var_of_forget {s : Stmt} {name : Token} {value : Option Expr}
    (same : s.relabel .forget = (Stmt.var name value).relabel .forget) :
    ∃ value', s = .var name value' := by
  cases s with
  | var name' value' =>
      obtain rfl : name' = name := by
        cases value' <;> cases value <;> exact (Stmt.var.inj same).1
      exact ⟨value', rfl⟩
  | _ => cases Stmt.ctorIdx_of_forget same

/-- What is an expression statement up to the sites is one. -/
theorem Stmt.exists_expression_of_forget {s : Stmt} {e : Expr}
    (same : s.relabel .forget = (Stmt.expression e).relabel .forget) :
    ∃ e', s = .expression e' := by
  cases s with
  | expression e' => exact ⟨e', rfl⟩
  | _ => cases Stmt.ctorIdx_of_forget same

/-- A `for` statement is a block or a loop. -/
theorem Stmt.forLoop_ne_expression (initializer : Option Stmt) (condition increment : Option Expr)
    (body : Stmt) (e : Expr) :
    Stmt.forLoop initializer condition increment body ≠ .expression e := by
  cases initializer <;> nofun

theorem Phrase.of_expression {ts : List Token} {e : Expr}
    (h : Phrase .declaration ts (Stmt.expression e)) :
    ∃ es semicolon, ts = es ++ [semicolon] ∧ Expr.Spells .assignment es e ∧
      semicolon.terminal = .symbol .semicolon := by
  cases h with
  | plain h =>
      generalize hs : Stmt.expression e = s at h
      cases h with
      | expression value ends =>
          cases hs
          exact ⟨_, _, rfl, value, ends⟩
      | «for» => exact absurd hs.symm (Stmt.forLoop_ne_expression _ _ _ _ e)
      | _ => cases hs
  | var _ rest => cases rest

theorem Phrase.of_var {ts : List Token} {name : Token} {value : Option Expr}
    (h : Phrase .declaration ts (Stmt.var name value)) :
    ∃ word rest, ts = word :: rest ∧ word.terminal = .keyword .var ∧
      VarPhrase rest (.var name value) := by
  cases h with
  | plain h =>
      generalize hs : Stmt.var name value = s at h
      cases h with
      | @«for» _ _ _ _ _ _ _ _ initializer => cases initializer <;> cases hs
      | _ => cases hs
  | var starts rest => exact ⟨_, _, rfl, starts, rest⟩

theorem Phrase.of_plain {ts : List Token} {s : Stmt} (h : Phrase .declaration ts s)
    (plain : s.isPlain) : ∃ o, Phrase (.statement o) ts s := by
  cases h with
  | plain phrase => exact ⟨_, phrase⟩
  | var _ rest => cases rest <;> cases plain
  | function => cases plain
  | «class» => cases plain

theorem Expr.Spells.ne_nil {l : Level} {ts : List Token} {e : Expr} (h : Spells l ts e) :
    ts ≠ [] := by
  obtain ⟨_, _, rfl, -⟩ := h.head_ne
  exact List.cons_ne_nil _ _

theorem OptionalExpr.eq_nil_iff {ts : List Token} {o : Option Expr} (h : OptionalExpr ts o) :
    ts = [] ↔ o = Option.none := by
  cases h with
  | none => simp
  | some value => simpa using value.ne_nil

/-- A first clause without initializer is a semicolon. -/
theorem FirstClause.bare_iff {ts : List Token} {o : Option Stmt} (h : FirstClause ts o) :
    (∃ t : Token, t.terminal = .symbol .semicolon ∧ ts = [t]) ↔ o = Option.none := by
  cases h with
  | none mark => simpa using mark
  | var _ rest => cases rest <;> simp
  | expression value => simp [List.append_eq_singleton_iff, value.ne_nil]

/-- What a first clause declares or evaluates is a declaration. -/
theorem FirstClause.declaration {ts : List Token} {s : Stmt} (h : FirstClause ts (some s)) :
    Phrase .declaration ts s := by
  cases h with
  | var starts rest => exact .var starts rest
  | expression value ends => exact .plain (.expression value ends)

/-- A first clause that is read as the declaration of a variable declares this variable. -/
theorem FirstClause.exists_var {ts : List Token} {o : Option Stmt} (h : FirstClause ts o)
    (proper : ∀ t ∈ ts, t.terminal ≠ .eof) {name : Token} {value : Option Expr}
    (read : ReadAs ts (.var name value)) : ∃ value', o = some (.var name value') := by
  cases o with
  | none =>
      obtain ⟨t, -, rfl⟩ := h.bare_iff.2 rfl
      obtain ⟨word, rest, split, -, clause⟩ := (read.declaration proper).of_var
      obtain ⟨-, rfl⟩ := List.cons.inj split
      cases clause
  | some s =>
      obtain ⟨-, s', one, -, same⟩ := h.declaration.exists_read proper 0
      obtain rfl : s' = .var name value := (List.cons.inj (one.symm.trans read.2)).1
      obtain ⟨value', rfl⟩ := Stmt.exists_var_of_forget same.symm
      exact ⟨value', rfl⟩

def Stmt.round (increment : Option Expr) (body : Stmt) : Stmt :=
  match increment with
  | some e => block [body, .expression e]
  | none => body

theorem Stmt.forLoop_some (first : Stmt) (condition increment : Option Expr) (body : Stmt) :
    forLoop (some first) condition increment body =
      block [first, .while (condition.getD (.literal (.bool true))) (round increment body)] := by
  cases increment <;> rfl

theorem Stmt.forLoop_none (condition increment : Option Expr) (body : Stmt) :
    forLoop none condition increment body =
      .while (condition.getD (.literal (.bool true))) (round increment body) := by
  cases increment <;> rfl

/-- A loop that is the same up to the sites as one that declares a variable declares it too. -/
theorem Stmt.exists_var_of_forLoop {name : Token} {value : Option Expr}
    {initializer : Option Stmt} {condition condition' increment increment' : Option Expr}
    {body body' : Stmt}
    (same : (forLoop initializer condition increment body).relabel .forget =
      (forLoop (some (.var name value)) condition' increment' body').relabel .forget) :
    ∃ value', initializer = some (.var name value') := by
  rw [forLoop_some] at same
  cases initializer with
  | none =>
      rw [forLoop_none] at same
      cases Stmt.ctorIdx_of_forget same
  | some first =>
      rw [forLoop_some] at same
      obtain ⟨first, -⟩ := List.cons.inj (Stmt.block.inj same)
      obtain ⟨value', rfl⟩ := Stmt.exists_var_of_forget first
      exact ⟨value', rfl⟩

namespace Loop

variable {l : Loop} {ts : List Token}

/-- The words and marks of a loop are right, and this is what the other parts stand for. -/
structure Parts (l : Loop) (initializer : Option Stmt) (condition increment : Option Expr)
    (opened : Bool) (body : Stmt) : Prop where
  word : l.word.terminal = .keyword .for
  left : l.left.terminal = .symbol .leftParen
  semicolon : l.semicolon.terminal = .symbol .semicolon
  right : l.right.terminal = .symbol .rightParen
  first : FirstClause l.first initializer
  condition : OptionalExpr l.condition condition
  increment : OptionalExpr l.increment increment
  body : Phrase (.statement opened) l.body body

theorem exists_optionalExpr {ts : List Token} {semicolon : Token}
    (proper : ∀ t ∈ ts ++ [semicolon], t.terminal ≠ .eof)
    (h : ts = [] ∨ ∃ e, ReadAs (ts ++ [semicolon]) (.expression e)) : ∃ o, OptionalExpr ts o := by
  rcases h with rfl | ⟨e, read⟩
  · exact ⟨none, .none⟩
  · obtain ⟨es, last, split, value, -⟩ := (read.declaration proper).of_expression
    obtain ⟨rfl, -⟩ := List.append_inj' split rfl
    exact ⟨some e, .some value⟩

theorem Formed.proper_first (h : l.Formed) : ∀ t ∈ l.first, t.terminal ≠ .eof := by
  have proper := h.proper
  simp only [tokens, List.forall_mem_cons, List.forall_mem_append] at proper
  exact proper.2.2.1

theorem Formed.exists_parts (h : l.Formed) :
    ∃ initializer condition increment opened body,
      l.Parts initializer condition increment opened body := by
  have proper := h.proper
  simp only [tokens, List.forall_mem_cons, List.forall_mem_append] at proper
  obtain ⟨-, -, inFirst, inCondition, semicolon, inIncrement, -, inBody⟩ := proper
  have first : ∃ initializer, FirstClause l.first initializer := by
    rcases h.first with ⟨t, mark, same⟩ | ⟨name, value, read⟩ | ⟨e, read⟩
    · exact ⟨none, same ▸ .none mark⟩
    · obtain ⟨word, rest, same, starts, clause⟩ := (read.declaration inFirst).of_var
      exact ⟨some (.var name value), same ▸ .var starts clause⟩
    · obtain ⟨es, semicolon, same, value, ends⟩ := (read.declaration inFirst).of_expression
      exact ⟨some (.expression e), same ▸ .expression value ends⟩
  obtain ⟨initializer, first⟩ := first
  obtain ⟨condition, second⟩ := exists_optionalExpr
    (List.forall_mem_append.2 ⟨inCondition, List.forall_mem_singleton.2 semicolon⟩) h.condition
  obtain ⟨increment, third⟩ := exists_optionalExpr
    (List.forall_mem_append.2 ⟨inIncrement, List.forall_mem_singleton.2 semicolon⟩) h.increment
  obtain ⟨body, plain, read⟩ := h.body
  obtain ⟨opened, phrase⟩ := (read.declaration inBody).of_plain plain
  exact ⟨initializer, condition, increment, opened, body, h.word, h.left, h.semicolon, h.right,
    first, second, third, phrase⟩

section Parts

variable {initializer : Option Stmt} {condition increment : Option Expr} {opened : Bool}
  {body : Stmt} (h : l.Parts initializer condition increment opened body)
include h

theorem Parts.phrase :
    Phrase (.statement opened) l.tokens (Stmt.forLoop initializer condition increment body) :=
  .for h.word h.left h.first h.condition h.semicolon h.increment h.right h.body

theorem Parts.test (test : l.Test ts) :
    Expr.Spells .assignment ts (condition.getD (.literal (.bool true))) := by
  have second := h.condition
  cases test with
  | given some =>
      generalize l.condition = cs at some second
      cases second with
      | none => exact absurd rfl some
      | some value => exact value
  | @missing word none starts =>
      rw [second.eq_nil_iff.1 none]
      have kind : word.kind = .keyword .true := Token.kind_eq_of_terminal starts nofun nofun
      have literal : Expr.Spells .primary [word] (.literal (.bool true)) := .literal kind
      exact literal.loosen (by decide)

/-- With an increment the rounds are blocks, which no `else` can follow. -/
theorem Parts.round (round : l.Round ts) :
    ∃ o : Bool, (o → opened) ∧ Phrase (.statement o) ts (Stmt.round increment body) := by
  have third := h.increment
  cases round with
  | body none =>
      rw [third.eq_nil_iff.1 none]
      exact ⟨opened, id, h.body⟩
  | @block left semicolon right some opens ends closes =>
      generalize l.increment = ns at some third
      cases third with
      | none => exact absurd rfl some
      | some value =>
          have last := Phrase.singleton_iff.2 (.plain (.expression value ends))
          exact ⟨false, nofun, .block opens (.cons (.plain h.body) last) closes⟩

theorem Parts.core (core : l.Core ts) : ∃ o : Bool, (o → opened) ∧ Phrase (.statement o) ts
    (Stmt.while (condition.getD (.literal (.bool true))) (Stmt.round increment body)) := by
  cases core with
  | intro starts opens test closes round =>
      obtain ⟨o, calm, phrase⟩ := h.round round
      exact ⟨o, calm, .while starts opens (h.test test) closes phrase⟩

/-- The expansion of a loop stands for the loop. -/
theorem Parts.expansion (expansion : l.Expansion ts) : ∃ o : Bool, (o → opened) ∧
    Phrase (.statement o) ts (Stmt.forLoop initializer condition increment body) := by
  have first := h.first
  cases expansion with
  | bare none core =>
      rw [first.bare_iff.1 none, Stmt.forLoop_none]
      exact h.core core
  | enclosed some opens core closes =>
      cases initializer with
      | none => exact absurd (first.bare_iff.2 rfl) some
      | some s =>
          obtain ⟨o, -, phrase⟩ := h.core core
          rw [Stmt.forLoop_some]
          have last := Phrase.singleton_iff.2 (.plain phrase)
          exact ⟨false, nofun, .block opens (.cons first.declaration last) closes⟩

end Parts

/-- What starts with the word `for` has the parts of a loop. -/
theorem exists_parts_of_phrase {word : Token} {s : Stmt} (h : Phrase .declaration (word :: ts) s)
    (starts : word.terminal = .keyword .for) :
    ∃ (l : Loop) (initializer : Option Stmt) (condition increment : Option Expr) (opened : Bool)
      (body : Stmt), l.tokens = word :: ts ∧
        s = Stmt.forLoop initializer condition increment body ∧
          l.Parts initializer condition increment opened body := by
  cases h with
  | plain h =>
      generalize hts : word :: ts = all at h
      cases h with
      | expression value =>
          obtain ⟨t, r, rfl, ne⟩ := value.head_ne
          obtain ⟨rfl, -⟩ := List.cons.inj hts
          exact absurd starts (ne _ rfl)
      | @«for» word left semicolon right first condition increment body _ _ _ _ _ h₁ h₂ first'
          second h₃ third h₄ phrase =>
          exact ⟨⟨word, left, first, condition, semicolon, increment, right, body⟩,
            _, _, _, _, _, rfl, rfl, h₁, h₂, h₃, h₄, first', second, third, phrase⟩
      | _ =>
          obtain ⟨rfl, -⟩ := List.cons.inj hts
          simp_all
  | _ => simp_all

/-- In front of what has no `else` for it, a loop is a statement, and its expansion stands for
it. -/
theorem Formed.exists_stands (formed : l.Formed) (expansion : l.Expansion ts)
    {behind : List Token} (whole : l.Whole behind) : ∃ initializer condition increment body,
      StatementBefore l.tokens behind (Stmt.forLoop initializer condition increment body) ∧
        StandsFor ts behind (Stmt.forLoop initializer condition increment body) := by
  obtain ⟨initializer, condition, increment, opened, body, parts⟩ := formed.exists_parts
  obtain ⟨o, opens, phrase⟩ := parts.expansion expansion
  have calm (h : opened = true) : NoElse behind := whole ⟨body, h ▸ parts.body⟩
  exact ⟨initializer, condition, increment, body, ⟨opened, parts.phrase, calm⟩,
    _, ⟨o, phrase, fun h => calm (opens h)⟩, rfl⟩

/-- A loop alone is read as the loop that it is, with its variable. -/
theorem Formed.exists_read (formed : l.Formed) (firstSite : Site) :
    (parse l.tokens firstSite).errors = [] ∧ ∃ initializer condition increment body,
      (parse l.tokens firstSite).statements =
        [Stmt.forLoop initializer condition increment body] ∧
      ∀ name value, ReadAs l.first (.var name value) →
        ∃ value', initializer = some (.var name value') := by
  obtain ⟨initializer, condition, increment, opened, body, parts⟩ := formed.exists_parts
  obtain ⟨clean, s, one, phrase, same⟩ :=
    Phrase.exists_read (.plain (parts.phrase)) formed.proper firstSite
  obtain ⟨_, initializer', condition', increment', _, body', -, rfl, -⟩ :=
    exists_parts_of_phrase phrase formed.word
  refine ⟨clean, initializer', condition', increment', body', one, fun name value read => ?_⟩
  obtain ⟨value', rfl⟩ := parts.first.exists_var formed.proper_first read
  exact Stmt.exists_var_of_forLoop same

end Loop

/-! ### Loops as parts -/

theorem Stmt.isPlain_relabel (r : Relabeling) (s : Stmt) : (s.relabel r).isPlain = s.isPlain := by
  cases s with
  | var _ o | «return» _ o => cases o <;> rfl
  | branch _ _ o | «class» _ o _ => cases o <;> rfl
  | _ => rfl

theorem Phrase.isPlain {o : Bool} {ts : List Token} {s : Stmt} (h : Phrase (.statement o) ts s) :
    s.isPlain := by
  cases h with
  | @«for» _ _ _ _ _ _ _ _ initializer => cases initializer <;> rfl
  | _ => rfl

theorem Expr.Spells.readAs {ts : List Token} {e : Expr} (h : Spells .assignment ts e)
    {semicolon : Token} (ends : semicolon.terminal = .symbol .semicolon) :
    ∃ e', ReadAs (ts ++ [semicolon]) (.expression e') := by
  have phrase : Phrase .declaration (ts ++ [semicolon]) (Stmt.expression e) :=
    .plain (.expression h ends)
  obtain ⟨clean, s, one, -, same⟩ := phrase.exists_read phrase.proper 0
  obtain ⟨e', rfl⟩ := Stmt.exists_expression_of_forget same
  exact ⟨e', clean, one⟩

theorem OptionalExpr.readAs {ts : List Token} {o : Option Expr} (h : OptionalExpr ts o)
    {semicolon : Token} (ends : semicolon.terminal = .symbol .semicolon) :
    ts = [] ∨ ∃ e, ReadAs (ts ++ [semicolon]) (.expression e) := by
  cases h with
  | none => exact .inl rfl
  | some value => exact .inr (value.readAs ends)

theorem FirstClause.readAs {ts : List Token} {o : Option Stmt} (h : FirstClause ts o) :
    (∃ t : Token, t.terminal = .symbol .semicolon ∧ ts = [t]) ∨
      (∃ name value, ReadAs ts (.var name value)) ∨ ∃ e, ReadAs ts (.expression e) := by
  cases h with
  | none mark => exact .inl ⟨_, mark, rfl⟩
  | @var word ts s starts rest =>
      have phrase : Phrase .declaration (word :: ts) s := .var starts rest
      obtain ⟨clean, s', one, -, same⟩ := phrase.exists_read phrase.proper 0
      obtain ⟨name, value, rfl⟩ : ∃ name value, s = .var name value := by
        cases rest <;> exact ⟨_, _, rfl⟩
      obtain ⟨value', rfl⟩ := Stmt.exists_var_of_forget same
      exact .inr (.inl ⟨name, value', clean, one⟩)
  | expression value ends => exact .inr (.inr (value.readAs ends))

/-- A loop is formed if its parts stand for anything. -/
theorem Loop.Parts.formed {l : Loop} {initializer : Option Stmt} {condition increment : Option Expr}
    {opened : Bool} {body : Stmt} (h : l.Parts initializer condition increment opened body) :
    l.Formed where
  word := h.word
  left := h.left
  semicolon := h.semicolon
  right := h.right
  proper := h.phrase.proper
  first := h.first.readAs
  condition := h.condition.readAs h.semicolon
  increment := h.increment.readAs h.semicolon
  body := by
    have alone : Phrase .declaration l.body body := .plain h.body
    obtain ⟨clean, s, one, -, same⟩ := alone.exists_read alone.proper 0
    refine ⟨s, ?_, clean, one⟩
    rw [← Stmt.isPlain_relabel .forget, same, Stmt.isPlain_relabel]
    exact h.body.isPlain

/-- Whatever starts with the word `for` and is read without errors as one statement is a loop. -/
theorem Loop.exists_formed {word : Token} {ts : List Token} {s : Stmt}
    (starts : word.terminal = .keyword .for) (proper : ∀ t ∈ word :: ts, t.terminal ≠ .eof)
    (read : ReadAs (word :: ts) s) : ∃ l : Loop, l.Formed ∧ l.tokens = word :: ts := by
  obtain ⟨l, _, _, _, _, _, tokens, -, parts⟩ :=
    exists_parts_of_phrase (read.declaration proper) starts
  exact ⟨l, parts.formed, tokens⟩

/-- What stands behind the end of the tokens does not matter. -/
theorem parse_append_of_eof {before : List Token} {t : Token} (mem : t ∈ before)
    (eof : t.terminal = .eof) (ts ts' : List Token) (firstSite : Site) :
    parse (before ++ ts) firstSite = parse (before ++ ts') firstSite := by
  obtain ⟨first, found⟩ : ∃ first, before.find? (·.terminal = .eof) = some first :=
    Option.isSome_iff_exists.1 (List.find?_isSome.2 ⟨t, mem, by simpa using eof⟩)
  obtain ⟨closes, front, back, rfl, proper⟩ := List.find?_eq_some_iff_append.1 found
  have closes : first.terminal = .eof := by simpa using closes
  have proper : ∀ t ∈ front, t.terminal ≠ .eof := by simpa using proper
  have start (ts : List Token) : ParseState.start (front ++ first :: back ++ ts) firstSite =
      ⟨front, first, firstSite, #[]⟩ := by
    rw [ParseState.start, eofOf, List.find?_append, found, List.append_assoc, List.cons_append,
      List.takeWhile_append_of_pos (by simpa using proper),
      List.takeWhile_cons_of_neg (by simpa using closes), List.append_nil]
    rfl
  unfold parse
  rw [start, start]

namespace Loop

variable {l : Loop} {w : List Token}

/-- A loop can be replaced by its expansion in a program: what is read is the same but for the
numbers of the sites. -/
theorem Formed.parse_replaced (formed : l.Formed) (expansion : l.Expansion w)
    {before behind : List Token} (whole : l.Whole behind) (firstSite : Site)
    (clean : (parse (before ++ (l.tokens ++ behind)) firstSite).errors = []) :
    (parse (before ++ (w ++ behind)) firstSite).errors = [] ∧
      Stmt.relabelAll .forget (parse (before ++ (w ++ behind)) firstSite).statements =
        Stmt.relabelAll .forget (parse (before ++ (l.tokens ++ behind)) firstSite).statements := by
  by_cases ended : ∃ t ∈ before, t.terminal = .eof
  · obtain ⟨t, mem, eof⟩ := ended
    rw [parse_append_of_eof mem eof (w ++ behind) (l.tokens ++ behind)]
    exact ⟨clean, rfl⟩
  · have proper : ∀ t ∈ before, t.terminal ≠ .eof := fun t ht eof => ended ⟨t, ht, eof⟩
    let rest := behind.takeWhile (·.terminal ≠ .eof)
    have whole' : l.Whole rest := by
      intro opened t ht
      rw [List.head?_takeWhile, Option.mem_def, Option.filter_eq_some_iff] at ht
      exact whole opened t ht.1
    obtain ⟨_, _, _, _, stands, as⟩ := formed.exists_stands expansion whole'
    have front (ts : List Token) (here : ∀ t ∈ ts, t.terminal ≠ .eof) :
        (before ++ (ts ++ behind)).takeWhile (·.terminal ≠ .eof) = before ++ (ts ++ rest) := by
      rw [List.takeWhile_append_of_pos (by simpa using proper),
        List.takeWhile_append_of_pos (by simpa using here)]
    have phrase := parse_phrase_start clean
    rw [front _ formed.proper] at phrase
    obtain ⟨ss', phrase', same⟩ := phrase.exists_replaced ⟨_, _, rfl, formed.word⟩ stands as
    obtain ⟨_, ⟨_, read, -⟩, -⟩ := as
    rw [← front w read.proper] at phrase'
    obtain ⟨clean', same'⟩ := parse_accepts_start phrase' firstSite
    exact ⟨clean', same'.trans same⟩

/-- A loop and its expansion are read without errors, each as one statement, and these are the same
but for the numbers of the sites. -/
theorem Formed.parse_expansion (formed : l.Formed) (expansion : l.Expansion w) (firstSite : Site) :
    (parse l.tokens firstSite).errors = [] ∧ (parse w firstSite).errors = [] ∧
      ∃ initializer condition increment body s number,
        (parse l.tokens firstSite).statements =
          [Stmt.forLoop initializer condition increment body] ∧
        (∀ name value, ReadAs l.first (.var name value) →
          ∃ value', initializer = some (.var name value')) ∧
        (parse w firstSite).statements = [s] ∧
        Renumbers number [Stmt.forLoop initializer condition increment body] [s] := by
  obtain ⟨clean, initializer, condition, increment, body, read, var⟩ :=
    formed.exists_read firstSite
  have alone : (parse ([] ++ (l.tokens ++ [])) firstSite).errors = [] := by
    rwa [List.nil_append, List.append_nil]
  have whole : l.Whole [] := fun _ => nofun
  obtain ⟨clean', same⟩ := formed.parse_replaced expansion whole firstSite alone
  rw [List.nil_append, List.append_nil] at clean' same
  rw [List.nil_append, List.append_nil] at same
  obtain ⟨number, renumbers⟩ := parse_renumbers same.symm
  rw [read] at renumbers
  refine ⟨clean, clean', initializer, condition, increment, body, _, number, read,
    var, renumbers.relabeled.symm, ?_⟩
  exact ⟨renumbers.injective, rfl⟩

end Loop

end Lox
