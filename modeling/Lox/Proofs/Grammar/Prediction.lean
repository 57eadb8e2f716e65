import Lox.Proofs.Grammar.Derivation
import Lox.Proofs.Grammar.Expectation

/-!
# What the rules expect

Every rule of the parser reads what the nonterminal of its name derives (`Expr.predicts_expression`,
`Stmt.predicts_statements`), and where it fails, nothing that is expected starts with the next
token.

An expression goes on as long as operators, suffixes or an equals sign do, so what is expected after
it must not start with one of these (`Ebnf.Delimits`).  An `else` belongs to the nearest `if`, so if
what is expected after a statement may start with an `else`, it must go on like an `else` branch
(`Ebnf.Absorbs`).
-/

namespace Lox

open Lox.Parser

namespace Ebnf

variable {a K : Ebnf Nonterminal} {k k₀ : Terminal} {ks : List Terminal} {l l' : Level}

/-- Nothing that is derived continues an expression of the level. -/
def Delimits (K : Ebnf Nonterminal) (l : Level) : Prop :=
  ∀ k w, K.Yields (k :: w) → ∀ l', k.level? = some l' → l' < l

namespace Delimits

theorem tighten (h : K.Delimits l) (le : l ≤ l') : K.Delimits l' :=
  fun k w hw k' hk => Nat.lt_of_lt_of_le (h k w hw k' hk) le

theorem apart (h : K.Delimits l) (level : k.level? = some l) (w : List Terminal) :
    ¬K.Yields (k :: w) :=
  fun hw => Nat.lt_irrefl _ (h k w hw l level)

theorem of_terminal (none : k.level? = none) : (seq (terminal k) K).Delimits l := by
  intro k' w hw l' hl
  rw [(yields_terminal_seq.1 hw).1, none] at hl
  cases hl

/-- Operators of looser levels end an expression, too. -/
theorem rounds (k₀ : Terminal) (ks : List Terminal) (h : K.Delimits l)
    (looser : ∀ k ∈ k₀ :: ks, ∀ l', k.level? = some l' → l' < l) :
    (seq (star (seq (oneOf k₀ ks) a)) K).Delimits l := by
  intro k w hw
  rcases yields_star_seq.1 hw with rest | first
  · exact h k w rest
  · exact looser k (yields_oneOf_seq.1 (yields_seq_seq.1 first)).1

end Delimits

/-- What comes after an `else` starts with a statement. -/
def Absorbs (K : Ebnf Nonterminal) : Prop :=
  ∀ w, K.Yields (.keyword .else :: w) → (seq (rule .statement) K).Yields w

theorem Absorbs.of_not (h : ∀ w, ¬K.Yields (.keyword .else :: w)) : K.Absorbs :=
  fun w hw => absurd hw (h w)

/-- An `else` branch may always be left out. -/
theorem Absorbs.branch (h : K.Absorbs) :
    (seq (option (seq (word .else) (rule .statement))) K).Absorbs := by
  have more (v : List Terminal) (hv : K.Yields v) :
      (seq (option (seq (word .else) (rule .statement))) K).Yields v :=
    yields_option_seq.2 (.inl hv)
  intro w hw
  rcases yields_option_seq.1 hw with rest | first
  · exact (h w rest).seq_mono more
  · exact (yields_word_seq.1 (yields_seq_seq.1 first)).2.seq_mono more

end Ebnf

/-! ### Expressions -/

abbrev PredictsLevel (tokens : List Token) (eof : Token) (limit : Nat) (l : Level)
    (x : Parser Expr) : Prop :=
  Predicting tokens eof limit (·.Delimits l) x (.rule l.nonterminal)

abbrev PredictsExpr (tokens : List Token) (eof : Token) (limit : Nat) (x : Parser Expr) : Prop :=
  Predicting tokens eof limit (·.Delimits .assignment) x (.rule .expression)

variable {tokens : List Token} {eof : Token} {n bound limit : Nat} {K : Ebnf Nonterminal}

namespace Expr

open Ebnf

variable {nested : Parser Expr}

theorem yields_primary_seq {k : Terminal} {w : List Terminal} :
    (seq (rule .primary) K).Yields (k :: w) ↔ k ∈ atoms ∧ K.Yields w ∨
      k = .symbol .leftParen ∧
        (seq (rule .expression) (seq (terminal (.symbol .rightParen)) K)).Yields w ∨
      k = .keyword .super ∧
        (seq (terminal (.symbol .dot)) (seq (terminal .identifier) K)).Yields w := by
  rw [yields_rule_seq, relaxedGrammar, grammar, production, yields_alt_seq, yields_alt_seq,
    yields_oneOf_seq, yields_seq_seq, yields_seq_seq, yields_symbol_seq, yields_word_seq,
    yields_seq_seq, yields_seq_seq]
  · rfl
  all_goals exact fun h => by cases h

theorem predicts_atom {t : Token} (mem : t.terminal ∈ atoms) :
    Predicts tokens eof (fun s => Expects tokens n (seq (rule .primary) K) s ∧ s.look = t.terminal)
      skip fun _ => Expects tokens (n - 1) K := by
  have ne {k : Terminal} (other : k ∉ atoms) : t.terminal ≠ k := fun same => other (same ▸ mem)
  refine predicts_skip rfl (ne (by decide)) fun w => ?_
  rw [yields_primary_seq]
  simp [mem, ne (k := .symbol .leftParen) (by decide), ne (k := .keyword .super) (by decide)]

theorem predicts_primary (h : PredictsExpr tokens eof bound nested) :
    Predicting tokens eof (bound + 1) (fun _ => True) (primary nested) (.rule .primary) := by
  intro n short K _
  have opening (w : List Terminal) : (seq (rule .primary) K).Yields (.symbol .leftParen :: w) ↔
      (seq (rule .expression) (seq (terminal (.symbol .rightParen)) K)).Yields w := by
    simp [yields_primary_seq, atoms]
  have word (w : List Terminal) : (seq (rule .primary) K).Yields (.keyword .super :: w) ↔
      (seq (terminal (.symbol .dot)) (seq (terminal .identifier) K)).Yields w := by
    simp [yields_primary_seq, atoms]
  refine predicts_peek.bind fun t => ?_
  have terminal {k : Kind} (hk : t.kind = k) : t.terminal = k.terminal := by
    rw [Token.terminal, hk]
  split
  all_goals rename_i hk
  · exact (predicts_atom (by rw [terminal hk]; decide)).bind fun _ => .pure _ fun _ => id
  · exact (predicts_atom (by rw [terminal hk]; decide)).bind fun _ => .pure _ fun _ => id
  · exact (predicts_atom (by rw [terminal hk]; decide)).bind fun _ => .pure _ fun _ => id
  · refine (predicts_atom ?_).bind fun _ => .pure _ fun _ => id
    rw [terminal hk, Kind.terminal]
    decide
  · refine (predicts_atom ?_).bind fun _ => .pure _ fun _ => id
    rw [terminal hk, Kind.terminal]
    decide
  · refine (predicts_skip (terminal hk) (by decide) word).bind fun _ => ?_
    refine (predicts_expect (by decide) rfl).bind fun _ => ?_
    refine (predicts_expect (by decide) rfl).bind fun _ => predicts_freshSite.bind fun _ => ?_
    exact .pure _ fun _ here => here.mono (by omega)
  · refine (predicts_atom (by rw [terminal hk]; decide)).bind fun _ => ?_
    exact predicts_freshSite.bind fun _ => .pure _ fun _ => id
  · refine (predicts_atom (by rw [terminal hk]; decide)).bind fun _ => ?_
    exact predicts_freshSite.bind fun _ => .pure _ fun _ => id
  · refine (predicts_skip (terminal hk) (by decide) opening).bind fun _ => ?_
    refine (h _ (by omega) _ (.of_terminal rfl)).bind fun _ => ?_
    refine (predicts_expect (by decide) rfl).bind fun _ => ?_
    exact .pure _ fun _ here => here.mono (by omega)
  · rename_i others
    -- all terminals that an operand may start with have had their turn
    refine predicts_fail rfl fun s here => ⟨n, _, here.1, fun w => ?_⟩
    refine not_yields_of_not_mem_first ?_
    rw [here.2, Token.terminal]
    cases hk : t.kind <;> simp_all [Nonterminal.first, operandStarters, atoms, Kind.terminal]

theorem predicts_finishCall (h : PredictsExpr tokens eof bound nested) (short : n ≤ bound)
    (callee : Expr) :
    Predicts tokens eof
      (Expects tokens n (seq (option (rule .arguments)) (seq (terminal (.symbol .rightParen)) K)))
      (finishCall bound nested callee) fun _ => Expects tokens (n - 1) K := by
  have ends : (seq (star (seq (terminal (.symbol .comma)) (rule .expression)))
      (seq (terminal (.symbol .rightParen)) K)).Delimits .assignment := by
    refine Delimits.rounds (.symbol .comma) [] (.of_terminal rfl) fun k mem l' hl => ?_
    rw [List.mem_singleton.1 mem] at hl
    cases hl
  refine (predicts_commaList rfl h rfl (by decide) ends short short).bind fun _ => ?_
  exact (predicts_expect (by decide) rfl).bind fun _ => .pure _ fun _ => id

/-- What comes after the first part of a call, and then `K`. -/
def suffixes (K : Ebnf Nonterminal) : Ebnf Nonterminal :=
  seq (star (alt (seq (symbol .leftParen) (seq (option (rule .arguments)) (symbol .rightParen)))
    (seq (symbol .dot) identifier))) K

theorem yields_suffixes {k : Terminal} {w : List Terminal} :
    (suffixes K).Yields (k :: w) ↔ K.Yields (k :: w) ∨
      k = .symbol .leftParen ∧ (seq (option (rule .arguments))
        (seq (terminal (.symbol .rightParen)) (suffixes K))).Yields w ∨
      k = .symbol .dot ∧ (seq (terminal .identifier) (suffixes K)).Yields w := by
  rw [suffixes, yields_star_seq, yields_alt_seq, yields_seq_seq, yields_seq_seq, yields_symbol_seq,
    yields_symbol_seq, yields_seq_seq]
  rfl

theorem expects_of_suffixes {s : ParseState} (h : Expects tokens n (suffixes K) s)
    (other : s.look ∉ [.symbol .leftParen, .symbol .dot]) : Expects tokens n K s := by
  refine h.refine (fun w hw => yields_star_seq.2 (.inl hw)) fun w hw => ?_
  rcases yields_suffixes.1 hw with rest | ⟨call, -⟩ | ⟨get, -⟩
  · exact rest
  · exact absurd (call ▸ other) (by decide)
  · exact absurd (get ▸ other) (by decide)

theorem predicts_suffix (h : PredictsExpr tokens eof bound nested) (short : n ≤ bound + 1)
    (next : K.Delimits .call) (e : Expr) :
    Predicts tokens eof (Expects tokens n (suffixes K)) (suffix bound nested e)
      fun o => match o with
        | some _ => Expects tokens (n - 1) (suffixes K)
        | none => Expects tokens n K := by
  refine (predicts_either
    (seq (option (rule .arguments)) (seq (terminal (.symbol .rightParen)) (suffixes K)))
    (seq (terminal .identifier) (suffixes K)) (by decide) (fun w => ?_) (by decide)
    fun w => ?_).bind fun o => ?_
  · simp [yields_suffixes, next.apart (k := .symbol .leftParen) rfl w]
  · simp [yields_suffixes, next.apart (k := .symbol .dot) rfl w]
  · cases o with
    | none => exact .pure none fun s here => expects_of_suffixes here.1 here.2
    | some t =>
        dsimp only
        split
        · refine (predicts_finishCall h (by omega) e).bind fun e' => .pure _ fun s here => ?_
          exact here.mono (by omega)
        · refine (predicts_expect (by decide) rfl).bind fun name => .pure _ fun s here => ?_
          exact here.mono (by omega)

theorem predicts_called (h : PredictsExpr tokens eof bound nested) :
    PredictsLevel tokens eof (bound + 1) .call (called bound nested) := by
  intro n short K next
  refine ((predicts_primary h n short (suffixes K) trivial).weaken fun s here => here.unfold).bind
    fun first => ?_
  refine predicts_chain (fun s here => ?_) (fun m le e => ?_) (Nat.sub_le_of_le_add short) first
  · have other : s.look ∉ [.symbol .leftParen, .symbol .dot] := by
      rw [here.look_of_zero]
      decide
    exact (expects_of_suffixes here other).mono (Nat.zero_le _)
  · refine (predicts_suffix h (by omega) next e).imp (fun _ => id) fun o s here => ?_
    cases o with
    | none => exact here.mono le
    | some _ => exact here

theorem yields_unary_seq {w : List Terminal} : (seq (rule .unary) K).Yields w ↔
    (seq (oneOf (.symbol .bang) [.symbol .minus]) (seq (rule .unary) K)).Yields w ∨
      (seq (rule .call) K).Yields w := by
  rw [yields_rule_seq, relaxedGrammar, grammar, production, yields_alt_seq, yields_seq_seq]
  all_goals exact fun h => by cases h

theorem predicts_negated (h : PredictsExpr tokens eof bound nested) :
    PredictsLevel tokens eof (bound + 1) .unary (negated bound nested) := by
  intro n short K next
  have derives : ∀ k ∈ unaryOperators, ∀ w,
      (seq (rule .unary) K).Yields (k :: w) ↔ (seq (rule .unary) K).Yields w := by
    intro k mem w
    have other : k ∉ Nonterminal.call.first := by revert k; decide
    rw [yields_unary_seq, yields_oneOf_seq, or_iff_left (not_yields_of_not_mem_first other)]
    exact and_iff_right mem
  refine (predicts_acceptAll _ (by decide) derives).bind fun operators => ?_
  have called := predicts_called h n short K (next.tighten (by decide))
  refine (called.weaken fun s here => ?_).bind fun e => .pure _ fun _ => id
  exact here.1.right (fun _ => yields_unary_seq) fun w operator =>
    here.2 (yields_oneOf_seq.1 operator).1

/-- Operators of the level `l` between operands of the next level. -/
theorem predicts_grouped {l : Level} {operand : Parser Expr} (build : Expr → Token → Expr → Expr)
    (above : .disjunction ≤ l) (below : l ≤ .factor)
    (h : PredictsLevel tokens eof (bound + 1) l.next operand) :
    PredictsLevel tokens eof (bound + 1) l (leftGrouped bound l.operators build operand) := by
  intro n short K next
  obtain ⟨k₀, ks, production, mem⟩ := Level.exists_grouping above below
  have relaxed : relaxedGrammar l.nonterminal = limitedGrammar l.nonterminal := by
    cases l <;> first | rfl | exact absurd above (by decide)
  have level (k : Terminal) : k ∈ l.operators ↔ k.level? = some l := Level.mem_operators above below
  have tighter : l < l.next :=
    Level.lt_next (Nat.lt_of_le_of_lt below (by decide : Level.factor < .unary))
  have ends : (seq (star (seq (oneOf k₀ ks) (rule l.next.nonterminal))) K).Delimits l.next := by
    refine .rounds k₀ ks (next.tighten (Nat.le_of_lt tighter)) fun k member l' hl => ?_
    obtain rfl := Option.some.inj (((mem k).1 member).symm.trans hl)
    exact tighter
  refine (predicts_leftGrouped build h (fun k => (level k).trans (mem k).symm) (fun member => ?_)
    (fun k member => next.apart ((level k).1 member)) ends short (by omega)).weaken
    fun s here => here.congr fun w => ?_
  · cases (level _).1 member
  · rw [yields_rule_followedBy, relaxed, production]
    rfl

theorem predicts_disjunction (h : PredictsExpr tokens eof bound nested) :
    PredictsLevel tokens eof (bound + 1) .disjunction (disjunction bound nested) := by
  have factor : PredictsLevel tokens eof (bound + 1) .factor (factor bound nested) :=
    predicts_grouped binary (by decide) (by decide) (predicts_negated h)
  have term : PredictsLevel tokens eof (bound + 1) .term (term bound nested) :=
    predicts_grouped binary (by decide) (by decide) factor
  have comparison : PredictsLevel tokens eof (bound + 1) .comparison (comparison bound nested) :=
    predicts_grouped binary (by decide) (by decide) term
  have equality : PredictsLevel tokens eof (bound + 1) .equality (equality bound nested) :=
    predicts_grouped binary (by decide) (by decide) comparison
  have conjunction : PredictsLevel tokens eof (bound + 1) .conjunction (conjunction bound nested) :=
    predicts_grouped logical (by decide) (by decide) equality
  exact predicts_grouped logical (by decide) (by decide) conjunction

theorem predicts_assignTo (target : Expr) (equals : Token) (value : Expr) :
    Predicts tokens eof (Expects tokens n K) (assignTo target equals value) fun _ =>
      Expects tokens n K := by
  unfold assignTo
  split
  · exact predicts_freshSite.bind fun _ => .pure _ fun _ => id
  · exact .pure _ fun _ => id
  · exact (predicts_note rfl equals).bind fun _ => .pure _ fun _ => id

theorem predicts_assignment (h : PredictsExpr tokens eof bound nested) :
    PredictsExpr tokens eof (bound + 1) (assignment bound nested) := by
  intro n short K next
  let R : Ebnf Nonterminal := seq (option (seq (terminal (.symbol .equal)) (rule .assignment))) K
  have derives (w : List Terminal) :
      (seq (rule .expression) K).Yields w ↔ (seq (rule .logicOr) R).Yields w :=
    yields_rule_seq.trans yields_rule_followedBy
  have ends : R.Delimits .disjunction := by
    intro k w hw l' hl
    rcases yields_option_seq.1 hw with rest | first
    · exact next.tighten (by decide) k w rest l' hl
    · rw [(yields_terminal_seq.1 (yields_seq_seq.1 first)).1] at hl
      cases hl
      decide
  have target := predicts_disjunction h n short R ends
  refine (target.weaken fun s here => here.congr derives).bind fun target => ?_
  refine (predicts_option (by decide) fun w hw => absurd hw (next.apart rfl w)).bind fun o => ?_
  cases o with
  | none => exact .pure _ fun _ => id
  | some equals =>
      have value := h (n - 1 - 1) (by omega) K next
      have derives (w : List Terminal) :
          (seq (rule .assignment) K).Yields w ↔ (seq (rule .expression) K).Yields w :=
        (yields_rule_seq (n := .expression)).symm
      refine (value.weaken fun s here => here.congr derives).bind fun value => ?_
      exact (predicts_assignTo target equals value).imp (fun _ => id)
        fun _ _ here => here.mono (by omega)

theorem predicts_expression (bound : Nat) : PredictsExpr tokens eof bound (parser bound) := by
  induction bound with
  | zero => exact predicting_zero rfl (by decide)
  | succ bound ih => exact predicts_assignment ih

end Expr

/-! ### Statements -/

abbrev PredictsStmt (tokens : List Token) (eof : Token) (limit : Nat) (r : Nonterminal)
    (x : Parser α) : Prop :=
  Predicting tokens eof limit Ebnf.Absorbs x (.rule r)

/-- The rule reads what `a` derives, whatever is expected after it. -/
abbrev PredictsPart (tokens : List Token) (eof : Token) (limit : Nat) (x : Parser α)
    (a : Ebnf Nonterminal) : Prop :=
  Predicting tokens eof limit (fun _ => True) x a

namespace Stmt

open Ebnf

variable {expression : Parser Expr} {statement : Parser Stmt} {declaration : Parser (Option Stmt)}

def clause : Ebnf Nonterminal :=
  alt (rule .varDecl) (alt (rule .exprStmt) (symbol .semicolon))

theorem yields_clause_seq {k : Terminal} {w : List Terminal} :
    (seq clause K).Yields (k :: w) ↔
      k = .keyword .var ∧ (seq Nonterminal.varDecl.rest K).Yields w ∨
        (seq (rule .exprStmt) K).Yields (k :: w) ∨ k = .symbol .semicolon ∧ K.Yields w := by
  rw [clause, yields_alt_seq, yields_alt_seq, yields_symbol_seq, yields_rule_seq]
  exact or_congr_left (yields_seq_seq.trans yields_word_seq)

theorem expects_of_clause {s : ParseState} (h : Expects tokens n (seq clause K) s)
    (other : s.look ∉ [.symbol .semicolon, .keyword .var]) :
    Expects tokens n (seq (seq (rule .expression) (terminal (.symbol .semicolon))) K) s := by
  have expression : Expects tokens n (seq (rule .exprStmt) K) s := by
    refine h.refine (fun w hw => ?_) fun w hw => ?_
    · exact yields_alt_seq.2 (.inr (yields_alt_seq.2 (.inl hw)))
    · rcases yields_clause_seq.1 hw with ⟨var, -⟩ | expression | ⟨none, -⟩
      · exact absurd (var ▸ other) (by decide)
      · exact expression
      · exact absurd (none ▸ other) (by decide)
  exact expression.congr fun _ => yields_rule_seq

section Expression

variable (he : PredictsExpr tokens eof limit expression)
include he

theorem predicts_terminated (fault : GrammarFault) (aborts : fault.aborts) :
    PredictsPart tokens eof limit (terminated expression fault)
      (seq (rule .expression) (terminal (.symbol .semicolon))) := by
  intro n short K _
  refine Predicts.weaken ?_ fun s => Expects.spread
  refine (he n short _ (.of_terminal rfl)).bind fun e => ?_
  refine (predicts_expect (by decide) aborts).bind fun _ => .pure _ fun s here => ?_
  exact here.mono (Nat.sub_le _ _)

theorem predicts_optionalBefore {stop : Terminal} (other : stop ∉ expressionStarters)
    (none : stop.level? = none) (short : n ≤ limit) :
    Predicts tokens eof
      (Expects tokens n (seq (option (rule .expression)) (seq (terminal stop) K)))
      (optionalBefore stop expression) fun _ => Expects tokens n (seq (terminal stop) K) := by
  refine (predicts_nextIs_stop other).bind fun there => ?_
  cases there with
  | true => exact .pure _ fun _ => id
  | false =>
      refine (he n short _ (.of_terminal none)).bind fun e => .pure _ fun s here => ?_
      exact here.mono (Nat.sub_le _ _)

theorem predicts_varDecl :
    PredictsPart tokens eof limit (varDecl expression) Nonterminal.varDecl.rest := by
  intro n short K _
  let R : Ebnf Nonterminal := seq (terminal (.symbol .semicolon)) K
  refine Predicts.weaken ?_ fun s => Expects.spread
  refine (predicts_expect (by decide) rfl).bind fun name => ?_
  have rest (initializer : Option Expr) : Predicts tokens eof (Expects tokens (n - 1) R) (do
      let _ ← expect (.symbol .semicolon) .openVariable
      return Stmt.var name initializer) fun _ => Expects tokens (n - 1) K :=
    (predicts_expect (by decide) rfl).bind fun _ => .pure _ fun s here => here.mono (by omega)
  have apart (w : List Terminal) : ¬R.Yields (.symbol .equal :: w) := by simp [R]
  refine (predicts_option (by decide) fun w hw => absurd hw (apart w)).bind fun o => ?_
  cases o with
  | none => exact Predicts.bind (.pure none fun _ => id) rest
  | some equals =>
      refine Predicts.bind (J := fun _ => Expects tokens (n - 1) R) ?_ rest
      exact .map some (he _ (by omega) R (.of_terminal rfl)) fun _ s here => here.mono (by omega)

theorem predicts_returnStatement (keyword : Token) :
    PredictsPart tokens eof limit (returnStatement expression keyword)
      Nonterminal.returnStmt.rest := by
  intro n short K _
  refine Predicts.weaken ?_ fun s => Expects.spread
  refine (predicts_optionalBefore he (by decide) rfl short).bind fun value => ?_
  exact (predicts_expect (by decide) rfl).bind fun _ => .pure _ fun _ => id

variable (hs : PredictsStmt tokens eof limit .statement statement)
include hs

theorem predicts_whileStatement :
    Predicting tokens eof limit Absorbs (whileStatement expression statement)
      Nonterminal.whileStmt.rest := by
  intro n short K absorbs
  refine Predicts.weaken ?_ fun s => Expects.spread
  refine (predicts_expect (by decide) rfl).bind fun _ => ?_
  refine (he _ (by omega) _ (.of_terminal rfl)).bind fun condition => ?_
  refine (predicts_expect (by decide) rfl).bind fun _ => ?_
  refine (hs _ (by omega) K absorbs).bind fun body => .pure _ fun s here => ?_
  exact here.mono (by omega)

theorem predicts_ifStatement :
    Predicting tokens eof limit Absorbs (ifStatement expression statement)
      Nonterminal.ifStmt.rest := by
  intro n short K absorbs
  refine Predicts.weaken ?_ fun s => Expects.spread
  refine (predicts_expect (by decide) rfl).bind fun _ => ?_
  refine (he _ (by omega) _ (.of_terminal rfl)).bind fun condition => ?_
  refine (predicts_expect (by decide) rfl).bind fun _ => ?_
  refine (hs _ (by omega) _ absorbs.branch).bind fun consequence => ?_
  -- an `else` is read here even if it could belong to an outer `if`: what follows is the same
  refine (predicts_option (by decide) absorbs).bind fun o => ?_
  cases o with
  | none => exact .pure _ fun s here => here.mono (by omega)
  | some word =>
      refine (hs _ (by omega) K absorbs).bind fun alternative => .pure _ fun s here => ?_
      exact here.mono (by omega)

theorem predicts_forStatement :
    Predicting tokens eof limit Absorbs (forStatement expression statement)
      Nonterminal.forStmt.rest := by
  intro n short K absorbs
  let R : Ebnf Nonterminal :=
    seq (option (rule .expression)) <| seq (terminal (.symbol .semicolon)) <|
    seq (option (rule .expression)) <| seq (terminal (.symbol .rightParen)) <|
    seq (rule .statement) K
  refine Predicts.weaken ?_ fun s => Expects.spread
  refine (predicts_expect (by decide) rfl).bind fun _ => ?_
  have rest (initializer : Option Stmt) : Predicts tokens eof (Expects tokens (n - 1) R) (do
      let condition ← optionalBefore (.symbol .semicolon) expression
      let _ ← expect (.symbol .semicolon) .openLoopCondition
      let increment ← optionalBefore (.symbol .rightParen) expression
      let _ ← expect (.symbol .rightParen) .openForClauses
      return forLoop initializer condition increment (← statement)) fun _ =>
        Expects tokens (n - 1) K := by
    refine (predicts_optionalBefore he (by decide) rfl (by omega)).bind fun condition => ?_
    refine (predicts_expect (by decide) rfl).bind fun _ => ?_
    refine (predicts_optionalBefore he (by decide) rfl (by omega)).bind fun increment => ?_
    refine (predicts_expect (by decide) rfl).bind fun _ => ?_
    refine (hs _ (by omega) K absorbs).bind fun body => .pure _ fun s here => ?_
    exact here.mono (by omega)
  have expression {k : Terminal} (other : k ∉ expressionStarters) (w : List Terminal) :
      ¬(seq (rule .exprStmt) R).Yields (k :: w) :=
    not_yields_of_not_mem_first other
  have none : .symbol .semicolon ∉ expressionStarters := by decide
  have var : .keyword .var ∉ expressionStarters := by decide
  refine (predicts_either (a := seq clause R) R (seq Nonterminal.varDecl.rest R) (by decide)
    (fun w => ?_) (by decide) fun w => ?_).bind fun o => ?_
  · simp [yields_clause_seq, expression none]
  · simp [yields_clause_seq, expression var]
  · cases o with
    | none =>
        refine Predicts.bind (J := fun _ => Expects tokens (n - 1) R) ?_ rest
        rw [← comp_map]
        have clause := predicts_terminated he .openExpressionStatement rfl (n - 1)
          (by omega) R trivial
        refine .map _ (clause.weaken fun s here => expects_of_clause here.1 here.2) ?_
        exact fun _ s here => here.mono (by omega)
    | some t =>
        dsimp only
        split
        · refine Predicts.bind (J := fun _ => Expects tokens (n - 1) R) ?_ rest
          exact .pure _ fun s here => here.mono (Nat.sub_le _ _)
        · refine Predicts.bind (J := fun _ => Expects tokens (n - 1) R) ?_ rest
          refine .map _ (predicts_varDecl he _ (by omega) R trivial) fun _ s here => ?_
          exact here.mono (by omega)

end Expression

section Declaration

variable (hd : PredictsStmt tokens eof limit .declaration declaration) (enough : limit ≤ bound)
include hd enough

theorem predicts_blockBody :
    PredictsPart tokens eof limit (blockBody bound declaration) Nonterminal.block.rest := by
  intro n short K _
  let R : Ebnf Nonterminal := seq (terminal (.symbol .rightBrace)) K
  have ends (k : Terminal) (w : List Terminal) (hw : R.Yields (k :: w)) :
      k ∈ [.symbol .rightBrace, .eof] :=
    (yields_terminal_seq.1 hw).1 ▸ List.mem_cons_self
  have absorbs : (seq (star (rule .declaration)) R).Absorbs := by
    refine .of_not fun w hw => ?_
    rcases yields_star_seq.1 hw with rest | first
    · exact absurd (ends _ w rest) (by decide)
    · exact absurd (mem_first_of_yields first) (by decide)
  refine Predicts.weaken ?_ fun s => Expects.spread
  refine (predicts_itemsUntil hd (by decide) (by decide) ends absorbs short
    (Nat.le_trans short enough)).bind fun body => ?_
  refine ((predicts_expect (by decide) rfl).weaken fun _ => And.left).bind fun _ => ?_
  exact .pure _ fun _ => id

theorem predicts_functionDecl (form : FunctionForm) :
    PredictsPart tokens eof limit (functionDecl bound declaration form) (rule .function) := by
  intro n short K _
  have parameter : PredictsPart tokens eof limit (expect .identifier .noParameterName) identifier :=
    fun n _ K _ => predicts_expect (by decide) rfl
  refine Predicts.weaken ?_ fun s => Expects.unfold
  refine (predicts_expect (by decide) (by cases form <;> rfl)).bind fun name => ?_
  refine (predicts_expect (by decide) (by cases form <;> rfl)).bind fun _ => ?_
  refine (predicts_commaList rfl parameter rfl (by decide) trivial (by omega) (by omega)).bind
    fun parameters => ?_
  refine (predicts_expect (by decide) rfl).bind fun _ => ?_
  refine Predicts.weaken ?_ fun s => Expects.unfold
  refine (predicts_expect (by decide) (by cases form <;> rfl)).bind fun _ => ?_
  have body := predicts_blockBody hd enough (n - 1 - 1 - 1 - 1) (by omega) K trivial
  refine (body.weaken fun s here => here.congr fun w => yields_followedBy).bind fun body =>
    .pure _ fun s here => ?_
  exact here.mono (by omega)

theorem predicts_classDecl :
    PredictsPart tokens eof limit (classDecl bound declaration) Nonterminal.classDecl.rest := by
  intro n short K _
  let R : Ebnf Nonterminal := seq (terminal (.symbol .rightBrace)) K
  let B : Ebnf Nonterminal := seq (terminal (.symbol .leftBrace)) (seq (star (rule .function)) R)
  have ends (k : Terminal) (w : List Terminal) (hw : R.Yields (k :: w)) :
      k ∈ [.symbol .rightBrace, .eof] :=
    (yields_terminal_seq.1 hw).1 ▸ List.mem_cons_self
  have apart (w : List Terminal) : ¬B.Yields (.symbol .less :: w) := by simp [B]
  have method : PredictsPart tokens eof limit (some <$> functionDecl bound declaration .method)
      (rule .function) :=
    (predicts_functionDecl hd enough .method).map some
  refine Predicts.weaken ?_ fun s => Expects.spread
  refine (predicts_expect (by decide) rfl).bind fun name => ?_
  have rest (superclass : Option Expr) : Predicts tokens eof (Expects tokens (n - 1) B) (do
      let _ ← expect (.symbol .leftBrace) .noClassBody
      let methods ← itemsUntil [.symbol .rightBrace, .eof] bound
        (some <$> functionDecl bound declaration .method)
      let _ ← expect (.symbol .rightBrace) .openClassBody
      return Stmt.class name superclass methods) fun _ => Expects tokens (n - 1) K := by
    refine (predicts_expect (by decide) rfl).bind fun _ => ?_
    refine (predicts_itemsUntil method (by decide) (by decide) ends trivial (by omega)
      (by omega)).bind fun methods => ?_
    refine ((predicts_expect (by decide) rfl).weaken fun _ => And.left).bind fun _ => ?_
    exact .pure _ fun s here => here.mono (by omega)
  refine (predicts_option (by decide) fun w hw => absurd hw (apart w)).bind fun o => ?_
  cases o with
  | none => exact Predicts.bind (.pure none fun _ => id) rest
  | some less =>
      refine (predicts_expect (by decide) rfl).bind fun superName => ?_
      refine predicts_freshSite.bind fun site => Predicts.bind (.pure _ fun s here => ?_) rest
      exact here.mono (by omega)

end Declaration

section Statement

variable (hs : PredictsStmt tokens eof limit .statement statement)
  (hd : PredictsStmt tokens eof limit .declaration declaration)
include hs hd

theorem predicts_simple :
    PredictsStmt tokens eof (limit + 1) .statement (simple (limit + 1) statement declaration) := by
  intro n short K absorbs
  have he : PredictsExpr tokens eof (limit + 1) (Expr.parser (limit + 1)) :=
    Expr.predicts_expression _
  have inner : PredictsExpr tokens eof limit (Expr.parser (limit + 1)) := he.mono (Nat.le_succ _)
  refine predicts_peek.bind fun t => ?_
  split
  · rename_i hk
    exact predicts_form (by decide) rfl hk (by decide) (predicts_forStatement inner hs) absorbs
      short
  · rename_i hk
    exact predicts_form (by decide) rfl hk (by decide) (predicts_ifStatement inner hs) absorbs
      short
  · rename_i hk
    exact predicts_form (by decide) rfl hk (by decide) (predicts_whileStatement inner hs) absorbs
      short
  · rename_i hk
    exact predicts_form (by decide) rfl hk (by decide) (predicts_returnStatement inner t) trivial
      short
  · rename_i hk
    exact predicts_form (m := .printStmt) (by decide) rfl hk (by decide)
      ((predicts_terminated inner .openPrint rfl).map _) trivial short
  · rename_i hk
    exact predicts_form (by decide) rfl hk (by decide)
      ((predicts_blockBody hd (Nat.le_succ limit)).map _) trivial short
  · have expression := (predicts_terminated he .openExpressionStatement rfl).map
      Stmt.expression n short K trivial
    refine expression.weaken fun s here => ?_
    have others : ∀ m ∈ Nonterminal.statement.forms, m ≠ .exprStmt → s.look ∉ m.first := by
      rw [here.2]
      simp_all [Nonterminal.forms, Nonterminal.first]
    exact (here.1.form (by decide) others).congr fun w => yields_rule_seq

theorem predicts_declared : PredictsStmt tokens eof (limit + 1) .declaration
    (declared (limit + 1) statement declaration) := by
  intro n short K absorbs
  refine predicts_peek.bind fun t => ?_
  split
  · rename_i hk
    exact predicts_form (by decide) rfl hk (by decide) (predicts_classDecl hd (Nat.le_succ limit))
      trivial short
  · rename_i hk
    exact predicts_form (m := .funDecl) (by decide) rfl hk (by decide)
      ((predicts_functionDecl hd (Nat.le_succ limit) .function).map _) trivial short
  · rename_i hk
    have inner : PredictsExpr tokens eof limit (Expr.parser (limit + 1)) :=
      (Expr.predicts_expression _).mono (Nat.le_succ _)
    exact predicts_form (by decide) rfl hk (by decide) (predicts_varDecl inner) trivial short
  · refine (predicts_simple hs hd n short K absorbs).weaken fun s here => ?_
    have others : ∀ m ∈ Nonterminal.declaration.forms, m ≠ .statement → s.look ∉ m.first := by
      rw [here.2]
      simp_all [Nonterminal.forms, Nonterminal.first]
    exact here.1.form (by decide) others

end Statement

/-- The rules for statements and declarations read these. -/
theorem predicts_statements (bound : Nat) :
    PredictsStmt tokens eof bound .statement (parser bound) ∧
      PredictsStmt tokens eof bound .declaration (declarationParser bound) := by
  induction bound with
  | zero => exact ⟨predicting_zero rfl (by decide), (predicting_zero rfl (by decide)).attempt⟩
  | succ bound ih => exact ⟨predicts_simple ih.1 ih.2, (predicts_declared ih.1 ih.2).attempt⟩

end Stmt

end Lox
