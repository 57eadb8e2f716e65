import Lox.Proofs.Grammar.Zone

/-!
# The rules of the grammar in surroundings

No rule of the grammar notices what is around it in a zone, so that a declaration is read there like
alone, whether it is dropped or not (`Stmt.follows_statements`).  Expressions stay before the
semicolon that ends their statement.  A statement may end after its semicolon, where the next token
is looked at only for an `else`.
-/

namespace Lox

open Lox.Parser

variable {c : Surroundings} {eof : Token} {z : Zone c eof} {n n' : Nat}

/-- The rule for expressions does the same in the surroundings, and reads a token. -/
def FollowsExpr (z : Zone c eof) (n : Nat) (x y : Parser Expr) : Prop :=
  ∀ m ≤ n, Follows z m (z.Inside m) x y fun _ => z.Inside (m - 1)

/-- The rule for statements or declarations does the same in the surroundings, and reads a token. -/
def FollowsStmt (z : Zone c eof) (n : Nat) (x y : Parser α) : Prop :=
  ∀ m ≤ n, Follows z m (z.Inside m) x y fun _ => z.After (m - 1)

theorem FollowsExpr.inside {x y : Parser Expr} (h : FollowsExpr z n x y) {m : Nat} (le : m ≤ n) :
    Follows z m (z.Inside m) x y fun _ => z.Inside m :=
  (h m le).post fun _ _ hs => hs.mono (Nat.sub_le m 1)

theorem FollowsStmt.after {x y : Parser α} (h : FollowsStmt z n x y) {m : Nat} (le : m ≤ n) :
    Follows z m (z.Inside m) x y fun _ => z.After m :=
  (h m le).post fun _ _ hs => hs.mono (Nat.sub_le m 1)

/-! ### Where the tokens run out -/

section Ended

variable {s : ParseState} (nothing : s.rest = []) (closed : s.eof.terminal = .eof)
include nothing closed

theorem Expr.negated_ended (bound : Nat) (nested : Parser Expr) :
    negated bound nested s = .error ⟨.noExpression, s.eof⟩ s := by
  have next : peek s = .ok s.eof s := by
    rw [peek, nothing, List.headD_nil]
  have kind : s.eof.kind = .eof := by
    rw [Token.terminal] at closed
    cases hk : s.eof.kind with
    | eof => rfl
    | _ => simp [hk, Kind.terminal] at closed
  have primary : primary nested s = .error ⟨.noExpression, s.eof⟩ s := by
    rw [Expr.primary, bind_of_ok next, kind]
    exact bind_of_ok next
  have operators : acceptAll unaryOperators s = .ok [] s := by
    rw [acceptAll, nothing, List.takeWhile_nil, List.dropWhile_nil, ← nothing]
  rw [negated, bind_of_ok operators]
  exact bind_of_error (bind_of_error primary)

/-- No expression consists of no tokens. -/
theorem Expr.parser_ended (bound : Nat) :
    Expr.parser bound s = .error ⟨.noExpression, s.eof⟩ s := by
  have next : peek s = .ok s.eof s := by
    rw [peek, nothing, List.headD_nil]
  cases bound with
  | zero => exact bind_of_ok next
  | succ bound =>
      have negated := Expr.negated_ended nothing closed bound (Expr.parser bound)
      have disjunction : disjunction bound (Expr.parser bound) s =
          .error ⟨.noExpression, s.eof⟩ s :=
        bind_of_error <| bind_of_error <| bind_of_error <| bind_of_error <| bind_of_error <|
          bind_of_error negated
      exact bind_of_error disjunction

theorem Stmt.simple_ended (bound : Nat) (statement : Parser Stmt)
    (declaration : Parser (Option Stmt)) :
    simple bound statement declaration s = .error ⟨.noExpression, s.eof⟩ s := by
  have next : peek s = .ok s.eof s := by
    rw [peek, nothing, List.headD_nil]
  rw [simple, bind_of_ok next, closed]
  have failed : terminated (Expr.parser bound) .openExpressionStatement s =
      .error ⟨.noExpression, s.eof⟩ s := bind_of_error (Expr.parser_ended nothing closed bound)
  exact (congrFun (bind_pure_comp _ _).symm s).trans (bind_of_error failed)

/-- No statement consists of no tokens. -/
theorem Stmt.parser_ended (bound : Nat) :
    Stmt.parser bound s = .error ⟨.noExpression, s.eof⟩ s := by
  have next : peek s = .ok s.eof s := by
    rw [peek, nothing, List.headD_nil]
  cases bound with
  | zero => exact bind_of_ok next
  | succ bound => exact Stmt.simple_ended nothing closed (bound + 1) _ _

theorem Stmt.declared_ended (bound : Nat) (statement : Parser Stmt)
    (declaration : Parser (Option Stmt)) :
    declared bound statement declaration s = .error ⟨.noExpression, s.eof⟩ s := by
  have next : peek s = .ok s.eof s := by
    rw [peek, nothing, List.headD_nil]
  rw [declared, bind_of_ok next, closed]
  exact Stmt.simple_ended nothing closed bound statement declaration

end Ended

/-- Where the tokens run out nothing is behind, and both rules fail. -/
theorem Parser.Follows.of_ended {x y : Parser α} {Q : α → ParseState → Prop}
    (hx : ∀ s, s.rest = [] → s.eof.terminal = .eof → x s = .error ⟨.noExpression, s.eof⟩ s)
    (hy : ∀ s, s.rest = [] → s.eof.terminal = .eof → y s = .error ⟨.noExpression, s.eof⟩ s) :
    Follows z 0 (z.Inside 0) x y Q := by
  intro s hs
  have nothing := List.eq_nil_of_length_eq_zero (Nat.le_zero.1 hs.length)
  have here := hs.here
  rw [nothing] at here
  obtain ⟨none, same⟩ := z.ends here
  have closed : s.eof.terminal = .eof := (congrArg Token.terminal hs.eof).trans z.closed
  have ended : (s.amid c).rest = [] := by rw [ParseState.amid, nothing, none, List.append_nil]
  have eof_amid : (s.amid c).eof = s.eof := same.trans hs.eof.symm
  rw [hx s nothing closed]
  refine ⟨?_, hs⟩
  rw [hy (s.amid c) ended (by rw [eof_amid, closed]), eof_amid]

/-! ### Expressions -/

namespace Expr

section Nested

variable {nested nested' : Parser Expr} (h : FollowsExpr z n nested nested')
include h

theorem follows_primary : FollowsExpr z (n + 1) (primary nested) (primary nested') := by
  intro m le
  have literal (t : Token) (proper : t.terminal ≠ .eof) (other : t.terminal ≠ .symbol .semicolon)
      (e : Expr) : Follows z m (z.Seen m t) (do skip; return e) (do skip; return e) fun _ =>
      z.Inside (m - 1) :=
    .skipThen proper other (.pure e fun _ => id)
  have named (t : Token) (proper : t.terminal ≠ .eof) (other : t.terminal ≠ .symbol .semicolon)
      (f : Site → Expr) : Follows z m (z.Seen m t) (do skip; return f (← freshSite))
      (do skip; return f (← freshSite)) fun _ => z.Inside (m - 1) :=
    .skipThen proper other (follows_freshSite.map f fun _ _ => id)
  refine Follows.dispatch fun t => ?_
  have apart {k : Kind} (hk : t.kind = k) {terminal : Terminal} (ne : k.terminal ≠ terminal) :
      t.terminal ≠ terminal := by
    rwa [Token.terminal, hk]
  split
  · exact literal t (apart (by assumption) (by decide)) (apart (by assumption) (by decide)) _
  · exact literal t (apart (by assumption) (by decide)) (apart (by assumption) (by decide)) _
  · exact literal t (apart (by assumption) (by decide)) (apart (by assumption) (by decide)) _
  · exact literal t (apart (by assumption) (by simp [Kind.terminal]))
      (apart (by assumption) (by simp [Kind.terminal])) _
  · exact literal t (apart (by assumption) (by simp [Kind.terminal]))
      (apart (by assumption) (by simp [Kind.terminal])) _
  · refine .skipThen (apart (by assumption) (by decide)) (apart (by assumption) (by decide)) ?_
    refine (follows_expectInside (by decide) _).bind fun _ => ?_
    refine (follows_expectInside (by decide) _).bind fun method => ?_
    exact follows_freshSite.map (fun site => Expr.super site t method) fun _ _ => id
  · exact named t (apart (by assumption) (by decide)) (apart (by assumption) (by decide))
      fun site => .this site t
  · exact named t (apart (by assumption) (by decide)) (apart (by assumption) (by decide))
      fun site => .variable site t
  · refine .skipThen (apart (by assumption) (by decide)) (apart (by assumption) (by decide)) ?_
    refine (h.inside (Nat.sub_le_of_le_add le)).bind fun inner => ?_
    exact (follows_expectInside (by decide) _).bind fun _ => .pure _ fun _ => id
  · exact (follows_fail _).imp (Nat.le_refl m) (fun _ hs => hs.inside) fun _ _ => id

theorem follows_finishCall {m : Nat} (le : m ≤ n) {b b' : Nat} (fits : n ≤ b) (bounds : b ≤ b')
    (callee : Expr) :
    Follows z m (z.Inside m) (finishCall b nested callee) (finishCall b' nested' callee) fun _ =>
      z.Inside m := by
  refine (follows_commaList _ (fun k le' => h.inside (le'.trans le)) (le.trans fits) bounds).bind
    fun arguments => ?_
  exact (follows_expectInside (by decide) _).bind fun _ => .pure _ fun _ => id

theorem follows_suffix {m : Nat} (le : m ≤ n) {b b' : Nat} (fits : n ≤ b) (bounds : b ≤ b')
    (e : Expr) :
    Follows z m (z.Inside m) (suffix b nested e) (suffix b' nested' e) fun o =>
      z.Inside (m - ifSome o) := by
  refine follows_acceptStep (by decide) (fun t => ?_) rfl rfl
  have le' : m - 1 ≤ n := (Nat.sub_le m 1).trans le
  refine Follows.imp (m := m - 1) ?_ (Nat.sub_le m 1) (fun _ => id) fun _ _ => id
  dsimp only
  split
  · exact (follows_finishCall h le' fits bounds e).bind fun e' => .pure (some e') fun _ => id
  · exact (follows_expectInside (by decide) _).bind fun name =>
      .pure (some (Expr.get e name)) fun _ => id

theorem follows_called (bounds : n ≤ n') :
    FollowsExpr z (n + 1) (called n nested) (called n' nested') := by
  intro m le
  have le : m - 1 ≤ n := Nat.sub_le_of_le_add le
  refine (follows_primary h m (by omega)).bind fun e => ?_
  refine (follows_chain (fun k le' e => ?_) ?_ le bounds e).imp (Nat.sub_le m 1) (fun _ => id)
    fun _ _ => id
  · exact follows_suffix h (le'.trans le) (Nat.le_refl n) bounds e
  · exact idle_acceptStep fun _ => rfl

theorem follows_negated (bounds : n ≤ n') :
    FollowsExpr z (n + 1) (negated n nested) (negated n' nested') := by
  intro m le
  refine (follows_acceptAll _ (by decide)).bind fun operators => ?_
  exact (follows_called h bounds m le).map _ fun _ _ => id

end Nested

theorem follows_leftGrouped (operators : List Terminal) (other : .symbol .semicolon ∉ operators)
    (build : Expr → Token → Expr → Expr) {operand operand' : Parser Expr}
    (h : FollowsExpr z (n + 1) operand operand') (bounds : n ≤ n') :
    FollowsExpr z (n + 1) (leftGrouped n operators build operand)
      (leftGrouped n' operators build operand') := by
  intro m le
  refine (h m le).bind fun first => ?_
  refine (follows_chain (fun k le' left => ?_) ?_ (Nat.sub_le_of_le_add le) bounds first).imp
    (Nat.sub_le m 1) (fun _ => id) fun _ _ => id
  · refine follows_acceptStep other (fun operator => ?_) rfl rfl
    have right := h.inside (show k - 1 ≤ n + 1 by omega)
    exact (right.bind fun e => .pure (some (build left operator e)) fun _ => id).imp
      (Nat.sub_le k 1) (fun _ => id) fun _ _ => id
  · exact idle_acceptStep fun _ => rfl

theorem follows_assignTo (target : Expr) (equals : Token) (value : Expr) :
    Follows z n (z.Inside n) (assignTo target equals value) (assignTo target equals value) fun _ =>
      z.Inside n := by
  unfold assignTo
  split
  · exact follows_freshSite.map (fun site => Expr.assign site _ value) fun _ _ => id
  · exact .pure _ fun _ => id
  · exact (follows_note _ equals).bind fun _ => .pure target fun _ => id

section Nested

variable {nested nested' : Parser Expr} (h : FollowsExpr z n nested nested')
include h

theorem follows_disjunction (bounds : n ≤ n') :
    FollowsExpr z (n + 1) (disjunction n nested) (disjunction n' nested') := by
  have factor :=
    follows_leftGrouped factorOperators (by decide) binary (follows_negated h bounds) bounds
  have term := follows_leftGrouped termOperators (by decide) binary factor bounds
  have comparison :=
    follows_leftGrouped comparisonOperators (by decide) binary term bounds
  have equality :=
    follows_leftGrouped equalityOperators (by decide) binary comparison bounds
  have conjunction :=
    follows_leftGrouped [.keyword .and] (by decide) logical equality bounds
  exact follows_leftGrouped [.keyword .or] (by decide) logical conjunction bounds

theorem follows_assignment (bounds : n ≤ n') :
    FollowsExpr z (n + 1) (assignment n nested) (assignment n' nested') := by
  intro m le
  refine (follows_disjunction h bounds m le).bind fun target => ?_
  have le : m - 1 ≤ n := Nat.sub_le_of_le_add le
  refine Follows.imp (m := m - 1) ?_ (Nat.sub_le m 1) (fun _ => id) fun _ _ => id
  refine (follows_accept? _).bind fun equals => ?_
  cases equals with
  | none => exact .pure target fun _ => id
  | some equals =>
      refine .pass (by decide) ((h.inside le).bind fun value => ?_)
      exact follows_assignTo target equals value

end Nested

theorem follows_expression (bounds : n ≤ n') : FollowsExpr z n (parser n) (parser n') := by
  induction n generalizing n' with
  | zero =>
      intro m le
      obtain rfl := Nat.le_zero.1 le
      exact .of_ended (fun _ nothing closed => Expr.parser_ended nothing closed 0)
        fun _ nothing closed => Expr.parser_ended nothing closed n'
  | succ n ih =>
      obtain ⟨n', rfl⟩ : ∃ n'', n' = n'' + 1 := ⟨n' - 1, by omega⟩
      have bounds : n ≤ n' := Nat.le_of_succ_le_succ bounds
      exact follows_assignment (ih bounds) bounds

end Expr

/-! ### Statements -/

namespace Stmt

section Expression

variable {expression expression' : Parser Expr} (he : FollowsExpr z n expression expression')
include he

theorem follows_terminated {m : Nat} (le : m ≤ n) (fault : GrammarFault) :
    Follows z m (z.Inside m) (terminated expression fault) (terminated expression' fault) fun _ =>
      z.After (m - 1) :=
  (he.inside le).bind fun e => (follows_expectEnd _ _).bind fun _ => .pure e fun _ => id

theorem follows_optionalBefore {m : Nat} (le : m ≤ n) (stop : Terminal) :
    Follows z m (z.Inside m) (optionalBefore stop expression) (optionalBefore stop expression')
      fun _ => z.Inside m := by
  refine (follows_nextIs _).bind fun stops => ?_
  cases stops with
  | true => exact .pure none fun _ => id
  | false => exact (he.inside le).map some fun _ _ => id

theorem follows_varDecl : FollowsStmt z n (varDecl expression) (varDecl expression') := by
  intro m le
  refine (follows_expectInside (by decide) _).bind fun name => ?_
  refine (follows_accept? _).bind fun o => ?_
  have rest (initializer : Option Expr) : Follows z m (z.Inside m)
      (do
        let _ ← expect (.symbol .semicolon) .openVariable
        return Stmt.var name initializer)
      (do
        let _ ← expect (.symbol .semicolon) .openVariable
        return Stmt.var name initializer) fun _ => z.After (m - 1) :=
    (follows_expectEnd _ _).bind fun _ => .pure _ fun _ => id
  cases o with
  | none => exact Follows.bind (Q := fun _ => z.Inside m) (.pure none fun _ => id) rest
  | some t => exact .pass (by decide) (((he.inside le).map some fun _ _ => id).bind rest)

theorem follows_returnStatement (keyword : Token) {m : Nat} (le : m ≤ n) :
    Follows z m (z.Inside m) (returnStatement expression keyword)
      (returnStatement expression' keyword) fun _ => z.After m := by
  refine (follows_optionalBefore he le _).bind fun value => ?_
  exact (follows_expectEnd _ _).bind fun _ => .pure _ fun s hs => hs.mono (Nat.sub_le m 1)

section Statement

variable {statement statement' : Parser Stmt} (hs : FollowsStmt z n statement statement')
include hs

/-- The semicolons between the clauses do not end the statement. -/
theorem follows_forStatement (nothing : z.inside []) {m : Nat} (le : m ≤ n) :
    Follows z m (z.Inside m) (forStatement expression statement)
      (forStatement expression' statement') fun _ => z.After m := by
  have within {α : Type} {x y : Parser α} (h : Follows z m (z.Inside m) x y fun _ =>
      z.After (m - 1)) : Follows z m (z.Inside m) x y fun _ => z.Inside m :=
    h.post fun _ _ hs => (hs.mono (Nat.sub_le m 1)).inside nothing
  refine (follows_expectInside (by decide) _).bind fun _ => (follows_accept? _).bind fun o => ?_
  have rest (initializer : Option Stmt) : Follows z m (z.Inside m)
      (do
        let condition ← optionalBefore (.symbol .semicolon) expression
        let _ ← expect (.symbol .semicolon) .openLoopCondition
        let increment ← optionalBefore (.symbol .rightParen) expression
        let _ ← expect (.symbol .rightParen) .openForClauses
        return forLoop initializer condition increment (← statement))
      (do
        let condition ← optionalBefore (.symbol .semicolon) expression'
        let _ ← expect (.symbol .semicolon) .openLoopCondition
        let increment ← optionalBefore (.symbol .rightParen) expression'
        let _ ← expect (.symbol .rightParen) .openForClauses
        return forLoop initializer condition increment (← statement')) fun _ => z.After m := by
    refine (follows_optionalBefore he le _).bind fun condition => ?_
    refine (within (follows_expectEnd _ _)).bind fun _ => ?_
    refine (follows_optionalBefore he le _).bind fun increment => ?_
    refine (follows_expectInside (by decide) _).bind fun _ => ?_
    exact (hs.after le).bind fun body => .pure _ fun _ => id
  cases o with
  | none =>
      have first := within (follows_terminated he le .openExpressionStatement)
      exact ((first.map Stmt.expression fun _ _ => id).map some fun _ _ => id).bind rest
  | some t =>
      refine Follows.imp (P := z.Inside m) ?_ (Nat.le_refl m)
        (fun _ hs => (hs.2.after.mono (Nat.sub_le m 1)).inside nothing) fun _ _ => id
      dsimp only
      split
      · exact Follows.bind (Q := fun _ => z.Inside m) (.pure none fun _ => id) rest
      · exact ((within (follows_varDecl he m le)).map some fun _ _ => id).bind rest

theorem follows_whileStatement {m : Nat} (le : m ≤ n) :
    Follows z m (z.Inside m) (whileStatement expression statement)
      (whileStatement expression' statement') fun _ => z.After m := by
  refine (follows_expectInside (by decide) _).bind fun _ => (he.inside le).bind fun condition => ?_
  exact (follows_expectInside (by decide) _).bind fun _ => (hs.after le).bind fun body =>
    .pure _ fun _ => id

theorem follows_ifStatement {m : Nat} (le : m ≤ n) :
    Follows z m (z.Inside m) (ifStatement expression statement)
      (ifStatement expression' statement') fun _ => z.After m := by
  refine (follows_expectInside (by decide) _).bind fun _ => (he.inside le).bind fun condition => ?_
  refine (follows_expectInside (by decide) _).bind fun _ => (hs.after le).bind fun consequence => ?_
  refine follows_acceptElse.bind fun o => ?_
  cases o with
  | none => exact .pure _ fun _ => id
  | some _ => exact (hs.after le).bind fun alternative => .pure _ fun _ => id

end Statement

end Expression

section Declaration

variable {declaration declaration' : Parser (Option Stmt)}
  (hd : FollowsStmt z n declaration declaration') {b b' : Nat} (fits : n ≤ b) (bounds : b ≤ b')
include hd fits bounds

theorem follows_blockBody (nothing : z.inside []) :
    FollowsStmt z n (blockBody b declaration) (blockBody b' declaration') := by
  intro m le
  refine (follows_itemsUntil (by decide) nothing (fun k le' => hd k (le'.trans le)) (le.trans fits)
    bounds).bind fun body => ?_
  exact (follows_expectEnd _ _).bind fun _ => .pure body fun _ => id

theorem follows_functionDecl (form : FunctionForm) :
    FollowsStmt z n (functionDecl b declaration form) (functionDecl b' declaration' form) := by
  intro m le
  refine (follows_expectInside (by decide) _).bind fun name => ?_
  refine (follows_expectInside (by decide) _).bind fun _ => ?_
  refine (follows_commaList _ (fun k _ => follows_expectInside (by decide) _) (le.trans fits)
    bounds).bind fun parameters => ?_
  refine (follows_expectInside (by decide) _).bind fun _ => ?_
  refine (follows_expectBrace _).bind fun _ => .of_fact fun nothing => ?_
  exact (follows_blockBody hd fits bounds nothing m le).bind fun body => .pure _ fun _ => id

theorem follows_classDecl :
    FollowsStmt z n (classDecl b declaration) (classDecl b' declaration') := by
  intro m le
  refine (follows_expectInside (by decide) _).bind fun name => ?_
  have rest (superclass : Option Expr) : Follows z m (z.Inside m)
      (do
        let _ ← expect (.symbol .leftBrace) .noClassBody
        let methods ← itemsUntil [.symbol .rightBrace, .eof] b
          (some <$> functionDecl b declaration .method)
        let _ ← expect (.symbol .rightBrace) .openClassBody
        return Stmt.class name superclass methods)
      (do
        let _ ← expect (.symbol .leftBrace) .noClassBody
        let methods ← itemsUntil [.symbol .rightBrace, .eof] b'
          (some <$> functionDecl b' declaration' .method)
        let _ ← expect (.symbol .rightBrace) .openClassBody
        return Stmt.class name superclass methods) fun _ => z.After (m - 1) := by
    refine (follows_expectBrace _).bind fun _ => .of_fact fun nothing => ?_
    refine (follows_itemsUntil (by decide) nothing (fun k le' => ?_) (le.trans fits) bounds).bind
      fun methods => ?_
    · exact (follows_functionDecl hd fits bounds .method k (le'.trans le)).map some fun _ _ => id
    · exact (follows_expectEnd _ _).bind fun _ => .pure _ fun _ => id
  refine (follows_accept? _).bind fun o => ?_
  cases o with
  | none => exact Follows.bind (Q := fun _ => z.Inside m) (.pure none fun _ => id) rest
  | some t =>
      refine .pass (by decide) ((follows_expectInside (by decide) _).bind fun superName => ?_)
      exact follows_freshSite.bind fun site => rest (some (Expr.variable site superName))

end Declaration

section Rules

variable {statement statement' : Parser Stmt} {declaration declaration' : Parser (Option Stmt)}
  (hs : FollowsStmt z n statement statement') (hd : FollowsStmt z n declaration declaration')
  (bounds : n ≤ n')
include hs hd bounds

theorem follows_simple :
    FollowsStmt z (n + 1) (simple (n + 1) statement declaration)
      (simple (n' + 1) statement' declaration') := by
  intro m le
  have he : FollowsExpr z (n + 1) (Expr.parser (n + 1)) (Expr.parser (n' + 1)) :=
    Expr.follows_expression (Nat.succ_le_succ bounds)
  have inside : FollowsExpr z n (Expr.parser (n + 1)) (Expr.parser (n' + 1)) :=
    fun k le => he k (le.trans (Nat.le_succ n))
  have le' : m - 1 ≤ n := Nat.sub_le_of_le_add le
  refine Follows.dispatch fun t => ?_
  have apart {terminal other : Terminal} (ht : t.terminal = terminal) (ne : terminal ≠ other) :
      t.terminal ≠ other := by
    rwa [ht]
  split
  · refine .given (fun _ hs => hs.nests (Or.inl (by assumption))) fun nothing => ?_
    exact .skipThen (apart (by assumption) (by decide)) (apart (by assumption) (by decide))
      (follows_forStatement inside hs nothing le')
  · exact .skipThen (apart (by assumption) (by decide)) (apart (by assumption) (by decide))
      (follows_ifStatement inside hs le')
  · exact .skipThen (apart (by assumption) (by decide)) (apart (by assumption) (by decide))
      (follows_whileStatement inside hs le')
  · exact .skipThen (apart (by assumption) (by decide)) (apart (by assumption) (by decide))
      (follows_returnStatement inside t le')
  · refine .skipThen (apart (by assumption) (by decide)) (apart (by assumption) (by decide)) ?_
    exact (follows_terminated inside le' _).map Stmt.print fun _ _ hs => hs.mono (Nat.sub_le _ 1)
  · refine .given (fun _ hs => hs.nests (Or.inr (by assumption))) fun nothing => ?_
    refine .skipThen (apart (by assumption) (by decide)) (apart (by assumption) (by decide)) ?_
    have body := follows_blockBody hd (Nat.le_succ n) (Nat.succ_le_succ bounds) nothing
    exact (body.after le').map Stmt.block fun _ _ => id
  · refine ((follows_terminated he le _).map Stmt.expression fun _ _ => id).imp (Nat.le_refl m)
      (fun _ hs => hs.inside) fun _ _ => id

theorem follows_declared :
    FollowsStmt z (n + 1) (declared (n + 1) statement declaration)
      (declared (n' + 1) statement' declaration') := by
  intro m le
  have inside : FollowsExpr z n (Expr.parser (n + 1)) (Expr.parser (n' + 1)) :=
    fun k le => Expr.follows_expression (Nat.succ_le_succ bounds) k (le.trans (Nat.le_succ n))
  have le' : m - 1 ≤ n := Nat.sub_le_of_le_add le
  refine Follows.dispatch fun t => ?_
  have apart {terminal other : Terminal} (ht : t.terminal = terminal) (ne : terminal ≠ other) :
      t.terminal ≠ other := by
    rwa [ht]
  split
  · refine .skipThen (apart (by assumption) (by decide)) (apart (by assumption) (by decide)) ?_
    exact (follows_classDecl hd (Nat.le_succ n) (Nat.succ_le_succ bounds)).after le'
  · refine .skipThen (apart (by assumption) (by decide)) (apart (by assumption) (by decide)) ?_
    have function :=
      follows_functionDecl hd (Nat.le_succ n) (Nat.succ_le_succ bounds) .function
    exact (function.after le').map Stmt.function fun _ _ => id
  · refine .skipThen (apart (by assumption) (by decide)) (apart (by assumption) (by decide)) ?_
    exact (follows_varDecl inside).after le'
  · exact (follows_simple hs hd bounds m le).imp (Nat.le_refl m) (fun _ hs => hs.inside)
      fun _ _ => id

end Rules

/-- A declaration that is dropped is dropped in the surroundings, and reading resumes at the same
place. -/
theorem follows_attempt {x y : Parser α} (h : FollowsStmt z n x y) :
    FollowsStmt z n (attempt x) (attempt y) := by
  intro m le s hs
  have all := h m le s hs
  obtain ⟨a, t, ran, attempted⟩ | ⟨e, t, ran, attempted⟩ := attempt_cases x s
  · rw [ran] at all
    rw [attempted]
    exact ⟨attempt_of_ok all.1, all.2⟩
  · rw [ran] at all
    obtain ⟨same, after, length⟩ := Zone.recover_amid all.2.here
    rw [attempted]
    refine ⟨?_, after, all.2.eof, length.trans (Nat.sub_le_sub_right all.2.length 1)⟩
    rw [attempt_of_error all.1]
    simp only [ParseState.amid, same, Array.append_push]

theorem follows_statements : ∀ {n n' : Nat}, n ≤ n' →
    FollowsStmt z n (parser n) (parser n') ∧
      FollowsStmt z n (declarationParser n) (declarationParser n')
  | 0, n', _ => by
      have ended {y : Parser Stmt} (hy : ∀ s, s.rest = [] → s.eof.terminal = .eof →
          y s = .error ⟨.noExpression, s.eof⟩ s) : FollowsStmt z 0 (parser 0) y := by
        intro m le
        obtain rfl := Nat.le_zero.1 le
        exact .of_ended (fun _ nothing closed => Stmt.parser_ended nothing closed 0) hy
      refine ⟨ended fun _ nothing closed => Stmt.parser_ended nothing closed n', ?_⟩
      cases n' with
      | zero => exact follows_attempt (ended fun _ nothing closed =>
          Stmt.parser_ended nothing closed 0)
      | succ n' => exact follows_attempt (ended fun _ nothing closed =>
          Stmt.declared_ended nothing closed (n' + 1) _ _)
  | n + 1, 0, bounds => absurd bounds (Nat.not_succ_le_zero n)
  | n + 1, n' + 1, bounds => by
      have bounds := Nat.le_of_succ_le_succ bounds
      obtain ⟨hs, hd⟩ := follows_statements bounds
      exact ⟨follows_simple hs hd bounds, follows_attempt (follows_declared hs hd bounds)⟩

end Stmt

end Lox
