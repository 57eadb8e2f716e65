import Mathlib.Data.List.TakeWhile
import Lox.Proofs.Grammar.Extension
import Lox.Proofs.Grammar.Phrase

/-!
# Reading joined programs

Every rule of the grammar can be extended, expressions where another token is still to come, and
statements also at the end of the tokens, as long as no `else` follows.  So a program that was read
without errors is read in the same way in front of another one (`parse_append`).
-/

namespace Lox

open Lox.Parser

variable {c : Continuation} {n n' : Nat}

def ExtendsExpr (c : Continuation) (n : Nat) (x y : Parser Expr) : Prop :=
  Extends c (Within n) (atLeast 1) False x y

def ExtendsStmt (c : Continuation) (n : Nat) (x y : Parser α) : Prop :=
  Extends c (Within n) (atLeast 1) True x y

namespace Expr

section Nested

variable {nested nested' : Parser Expr} (h : ExtendsExpr c n nested nested')
include h

theorem extends_primary : ExtendsExpr c (n + 1) (primary nested) (primary nested') := by
  have literal (t : Token) (proper : t.terminal ≠ .eof) (e : Expr) :
      Extends c (Seen (n + 1) t) (atLeast 1) False (do skip; return e) (do skip; return e) :=
    Extends.skipThen (j := 0) proper (.pure e rfl)
  have named (t : Token) (proper : t.terminal ≠ .eof) (f : Site → Expr) :
      Extends c (Seen (n + 1) t) (atLeast 1) False (do skip; return f (← freshSite))
        (do skip; return f (← freshSite)) :=
    .skipThen proper (extends_freshSite.map f)
  refine Extends.dispatch fun t => ?_
  have proper {k : Kind} (hk : t.kind = k) (ne : k.terminal ≠ .eof) : t.terminal ≠ .eof := by
    rwa [Token.terminal, hk]
  split
  · exact literal t (proper (by assumption) (by decide)) _
  · exact literal t (proper (by assumption) (by decide)) _
  · exact literal t (proper (by assumption) (by decide)) _
  · exact literal t (proper (by assumption) (by simp [Kind.terminal])) _
  · exact literal t (proper (by assumption) (by simp [Kind.terminal])) _
  · refine .skipThen (j := 0) (proper (by assumption) (by decide)) ?_
    refine (extends_expect _ _).andThen fun _ => (extends_expect _ _).andThen fun method => ?_
    exact extends_freshSite.map fun site => Expr.super site t method
  · exact named t (proper (by assumption) (by decide)) fun site => .this site t
  · exact named t (proper (by assumption) (by decide)) fun site => .variable site t
  · refine .skipThen (j := 0) (proper (by assumption) (by decide)) ?_
    exact Extends.andThen h fun inner => (extends_expect _ _).andThen fun _ => .pure _ rfl
  · exact extends_fail _

theorem extends_finishCall (bounds : n ≤ n') (callee : Expr) :
    Extends c (Within n) (atLeast 0) False (finishCall n nested callee)
      (finishCall n' nested' callee) := by
  refine (extends_commaList _ h (Nat.le_refl n) bounds).andThen fun arguments => ?_
  exact (extends_expect _ _).andThen fun _ => .pure _ rfl

theorem extends_suffix (bounds : n ≤ n') (e : Expr) :
    Extends c (Within n) ifSome False (suffix n nested e) (suffix n' nested' e) := by
  refine extends_acceptStep (e := False) _ (fun t => ?_) rfl rfl
  dsimp only
  split
  · exact (extends_finishCall h bounds e).andThen fun e' => .pure (some e') rfl
  · exact (extends_expect _ _).andThen fun name => .pure (some (Expr.get e name)) rfl

theorem extends_called (bounds : n ≤ n') :
    ExtendsExpr c (n + 1) (called n nested) (called n' nested') :=
  (extends_primary h).firstThen fun e =>
    extends_chain (extends_suffix h bounds) (Nat.le_refl n) bounds e

theorem extends_negated (bounds : n ≤ n') :
    ExtendsExpr c (n + 1) (negated n nested) (negated n' nested') := by
  refine (extends_acceptAll _).andThen fun operators => ?_
  exact (extends_called h bounds).map _

end Nested

theorem extends_leftGrouped (operators : List Terminal) (build : Expr → Token → Expr → Expr)
    {operand operand' : Parser Expr} (h : ExtendsExpr c (n + 1) operand operand')
    (bounds : n ≤ n') :
    ExtendsExpr c (n + 1) (leftGrouped n operators build operand)
      (leftGrouped n' operators build operand') := by
  have inside : Extends c (Within n) (atLeast 0) False operand operand' :=
    (h.within (Nat.le_succ n)).weak
  refine Extends.firstThen h fun first => ?_
  refine extends_chain (e := False) (fun left => ?_) (Nat.le_refl n) bounds first
  exact extends_acceptStep (e := False) operators
    (fun operator => inside.andThen fun e => .pure (some (build left operator e)) rfl) rfl rfl

section Nested

variable {nested nested' : Parser Expr} (h : ExtendsExpr c n nested nested')
include h

theorem extends_disjunction (bounds : n ≤ n') :
    ExtendsExpr c (n + 1) (disjunction n nested) (disjunction n' nested') := by
  have factor := extends_leftGrouped factorOperators binary (extends_negated h bounds) bounds
  have term := extends_leftGrouped termOperators binary factor bounds
  have comparison := extends_leftGrouped comparisonOperators binary term bounds
  have equality := extends_leftGrouped equalityOperators binary comparison bounds
  have conjunction := extends_leftGrouped [.keyword .and] logical equality bounds
  exact extends_leftGrouped [.keyword .or] logical conjunction bounds

omit h in
theorem extends_assignTo (target : Expr) (equals : Token) (value : Expr) :
    Extends c (Within n) (atLeast 0) False (assignTo target equals value)
      (assignTo target equals value) := by
  unfold assignTo
  split
  · exact extends_freshSite.map fun site => Expr.assign site _ value
  · exact .pure _ rfl
  · exact (extends_note _ equals).andThen fun _ => .pure target rfl

theorem extends_assignment (bounds : n ≤ n') :
    ExtendsExpr c (n + 1) (assignment n nested) (assignment n' nested') := by
  refine (extends_disjunction h bounds).firstThen fun target => ?_
  refine (extends_accept? _).andThen fun equals => ?_
  cases equals with
  | none => exact .pure target rfl
  | some equals => exact Extends.andThen h fun value => extends_assignTo target equals value

end Nested

theorem extends_expression (bounds : n ≤ n') : ExtendsExpr c n (parser n) (parser n') := by
  induction n generalizing n' with
  | zero => exact extends_fail _
  | succ n ih =>
      obtain ⟨n', rfl⟩ : ∃ n'', n' = n'' + 1 := ⟨n' - 1, by omega⟩
      have bounds : n ≤ n' := Nat.le_of_succ_le_succ bounds
      exact extends_assignment (ih bounds) bounds

end Expr

namespace Stmt

section Expression

variable {expression expression' : Parser Expr} (he : ExtendsExpr c n expression expression')
include he

theorem extends_terminated (fault : GrammarFault) :
    Extends c (Within n) (atLeast 1) True (terminated expression fault)
      (terminated expression' fault) :=
  Extends.ending he fun e => (extends_expect _ _).atEnd fun _ => .pure e rfl

theorem extends_optionalBefore (stop : Terminal) :
    Extends c (Within n) (atLeast 0) False (optionalBefore stop expression)
      (optionalBefore stop expression') := by
  refine (extends_nextIs _).andThen fun stops => ?_
  cases stops with
  | true => exact .pure none rfl
  | false => exact Extends.weak (Extends.map some he)

theorem extends_varDecl : ExtendsStmt c n (varDecl expression) (varDecl expression') := by
  have rest (name : Token) (initializer : Option Expr) :
      ExtendsStmt c n (do
        let _ ← expect (.symbol .semicolon) .openVariable
        return Stmt.var name initializer) (do
        let _ ← expect (.symbol .semicolon) .openVariable
        return Stmt.var name initializer) :=
    (extends_expect _ _).atEnd fun _ => .pure _ rfl
  refine (extends_expect _ _).ending fun name => (extends_accept? _).ending fun o => ?_
  cases o with
  | none => exact (Extends.pure (k := atLeast 0) (e := True) none rfl).ending (rest name)
  | some _ => exact Extends.ending (Extends.map some he) (rest name)

theorem extends_returnStatement (keyword : Token) :
    ExtendsStmt c n (returnStatement expression keyword) (returnStatement expression' keyword) :=
  (extends_optionalBefore he _).ending fun _ => (extends_expect _ _).atEnd fun _ => .pure _ rfl

section Statement

variable {statement statement' : Parser Stmt} (hs : ExtendsStmt c n statement statement')
include hs

theorem extends_forStatement :
    ExtendsStmt c n (forStatement expression statement) (forStatement expression' statement') := by
  have rest (initializer : Option Stmt) :
      ExtendsStmt c n (do
        let condition ← optionalBefore (.symbol .semicolon) expression
        let _ ← expect (.symbol .semicolon) .openLoopCondition
        let increment ← optionalBefore (.symbol .rightParen) expression
        let _ ← expect (.symbol .rightParen) .openForClauses
        return forLoop initializer condition increment (← statement)) (do
        let condition ← optionalBefore (.symbol .semicolon) expression'
        let _ ← expect (.symbol .semicolon) .openLoopCondition
        let increment ← optionalBefore (.symbol .rightParen) expression'
        let _ ← expect (.symbol .rightParen) .openForClauses
        return forLoop initializer condition increment (← statement')) := by
    refine (extends_optionalBefore he _).ending fun condition => ?_
    refine (extends_expect _ _).ending fun _ => ?_
    refine (extends_optionalBefore he _).ending fun increment => ?_
    refine (extends_expect _ _).ending fun _ => ?_
    exact Extends.atEnd hs fun body => .pure _ rfl
  refine (extends_expect _ _).ending fun _ => (extends_accept? _).ending fun o => ?_
  cases o with
  | none =>
      exact Extends.ending (((extends_terminated he _).map Stmt.expression).map some) rest
  | some t =>
      dsimp only
      split
      · exact (Extends.pure (k := atLeast 0) (e := True) none rfl).ending rest
      · exact Extends.ending (Extends.map some (extends_varDecl he)) rest

theorem extends_whileStatement :
    ExtendsStmt c n (whileStatement expression statement)
      (whileStatement expression' statement') := by
  refine (extends_expect _ _).ending fun _ => Extends.ending he fun condition => ?_
  exact (extends_expect _ _).ending fun _ => Extends.atEnd hs fun body => .pure _ rfl

/-- An `else` behind would belong to the statement. -/
theorem extends_ifStatement (calm : (c.tokens.headD c.eof).terminal ≠ .keyword .else) :
    ExtendsStmt c n (ifStatement expression statement) (ifStatement expression' statement') := by
  refine (extends_expect _ _).ending fun _ => Extends.ending he fun condition => ?_
  refine (extends_expect _ _).ending fun _ => Extends.atEnd hs fun consequence => ?_
  have other : [Terminal.keyword .else].contains (c.tokens.headD c.eof).terminal = false := by
    simpa using calm
  refine (extends_acceptBefore (e := True) _ fun _ => other).bind (Q := fun _ => Within n)
    (j := fun _ => atLeast 0) (fun o => ?_) (fun _ _ _ w _ => Extends.within_of_le w)
    (fun _ _ => Nat.zero_le _) Or.inl
  cases o with
  | none => exact .pure _ rfl
  | some _ => exact (Extends.atEnd hs fun alternative => .pure _ rfl).reading

end Statement

end Expression

section Declaration

variable {declaration declaration' : Parser (Option Stmt)}
  (hd : ExtendsStmt c n declaration declaration') {b b' : Nat} (fits : n ≤ b) (bounds : b ≤ b')
include hd fits bounds

theorem extends_blockBody :
    ExtendsStmt c n (blockBody b declaration) (blockBody b' declaration') :=
  (extends_itemsUntil _ hd fits bounds).ending fun body => (extends_expect _ _).atEnd fun _ =>
    .pure body rfl

theorem extends_functionDecl (form : FunctionForm) :
    ExtendsStmt c n (functionDecl b declaration form) (functionDecl b' declaration' form) := by
  refine (extends_expect _ _).ending fun name => (extends_expect _ _).ending fun _ => ?_
  refine (extends_commaList _ (extends_expect _ _) fits bounds).ending fun parameters => ?_
  refine (extends_expect _ _).ending fun _ => (extends_expect _ _).ending fun _ => ?_
  exact Extends.atEnd (extends_blockBody hd fits bounds) fun body => .pure _ rfl

theorem extends_classDecl :
    ExtendsStmt c n (classDecl b declaration) (classDecl b' declaration') := by
  have rest (name : Token) (superclass : Option Expr) :
      ExtendsStmt c n (do
        let _ ← expect (.symbol .leftBrace) .noClassBody
        let methods ← itemsUntil [.symbol .rightBrace, .eof] b
          (some <$> functionDecl b declaration .method)
        let _ ← expect (.symbol .rightBrace) .openClassBody
        return Stmt.class name superclass methods) (do
        let _ ← expect (.symbol .leftBrace) .noClassBody
        let methods ← itemsUntil [.symbol .rightBrace, .eof] b'
          (some <$> functionDecl b' declaration' .method)
        let _ ← expect (.symbol .rightBrace) .openClassBody
        return Stmt.class name superclass methods) := by
    have method := Extends.map some (extends_functionDecl hd fits bounds .method)
    refine (extends_expect _ _).ending fun _ => (extends_itemsUntil _ method fits bounds).ending
      fun methods => ?_
    exact (extends_expect _ _).atEnd fun _ => .pure _ rfl
  refine (extends_expect _ _).ending fun name => (extends_accept? _).ending fun o => ?_
  cases o with
  | none => exact (Extends.pure (k := atLeast 0) (e := True) none rfl).ending (rest name)
  | some _ =>
      refine (extends_expect _ _).ending fun superName => ?_
      exact (extends_freshSite (e := True)).ending fun site =>
        rest name (some (Expr.variable site superName))

end Declaration

section Calm

variable (calm : (c.tokens.headD c.eof).terminal ≠ .keyword .else)
include calm

section Rules

variable {statement statement' : Parser Stmt} {declaration declaration' : Parser (Option Stmt)}
  (hs : ExtendsStmt c n statement statement') (hd : ExtendsStmt c n declaration declaration')
  (bounds : n ≤ n')
include hs hd bounds

theorem extends_simple :
    ExtendsStmt c (n + 1) (simple (n + 1) statement declaration)
      (simple (n' + 1) statement' declaration') := by
  have he : ExtendsExpr c (n + 1) (Expr.parser (n + 1)) (Expr.parser (n' + 1)) :=
    Expr.extends_expression (Nat.succ_le_succ bounds)
  have inside : ExtendsExpr c n (Expr.parser (n + 1)) (Expr.parser (n' + 1)) :=
    Extends.within he (Nat.le_succ n)
  refine Extends.dispatch fun t => ?_
  have proper {terminal : Terminal} (ht : t.terminal = terminal) (ne : terminal ≠ .eof) :
      t.terminal ≠ .eof := by
    rwa [ht]
  split
  · exact .skipThen (proper (by assumption) (by decide)) (extends_forStatement inside hs)
  · exact .skipThen (proper (by assumption) (by decide)) (extends_ifStatement inside hs calm)
  · exact .skipThen (proper (by assumption) (by decide)) (extends_whileStatement inside hs)
  · exact .skipThen (proper (by assumption) (by decide)) (extends_returnStatement inside t)
  · exact .skipThen (proper (by assumption) (by decide))
      ((extends_terminated inside _).map Stmt.print)
  · exact .skipThen (proper (by assumption) (by decide))
      (Extends.map Stmt.block (extends_blockBody hd (Nat.le_succ n) (Nat.succ_le_succ bounds)))
  · exact ((extends_terminated he _).map Stmt.expression).seen t

theorem extends_declared :
    ExtendsStmt c (n + 1) (declared (n + 1) statement declaration)
      (declared (n' + 1) statement' declaration') := by
  have inside : ExtendsExpr c n (Expr.parser (n + 1)) (Expr.parser (n' + 1)) :=
    Extends.within (Expr.extends_expression (Nat.succ_le_succ bounds)) (Nat.le_succ n)
  refine Extends.dispatch fun t => ?_
  have proper {terminal : Terminal} (ht : t.terminal = terminal) (ne : terminal ≠ .eof) :
      t.terminal ≠ .eof := by
    rwa [ht]
  split
  · exact .skipThen (proper (by assumption) (by decide))
      (extends_classDecl hd (Nat.le_succ n) (Nat.succ_le_succ bounds))
  · exact .skipThen (proper (by assumption) (by decide))
      (Extends.map Stmt.function
        (extends_functionDecl hd (Nat.le_succ n) (Nat.succ_le_succ bounds) .function))
  · exact .skipThen (proper (by assumption) (by decide)) (extends_varDecl inside)
  · exact Extends.seen (extends_simple calm hs hd bounds) t

end Rules

omit calm in
/-- A declaration that is dropped leaves an error. -/
theorem extends_attempt {x y : Parser α} (h : ExtendsStmt c n x y) :
    ExtendsStmt c n (attempt x) (attempt y) where
  passes s o t ht := by
    obtain ⟨a, u, ran, attempted⟩ | ⟨e, u, ran, attempted⟩ := attempt_cases x s
    · cases attempted.symm.trans ht
      exact h.passes s a _ ran
    · cases attempted.symm.trans ht
      refine (h.fails s e u ran).trans ⟨recover_suffix _, rfl, Nat.le_refl _, ?_⟩
      simp
  fails s er t ht := by
    obtain ⟨a, u, -, attempted⟩ | ⟨e, u, -, attempted⟩ := attempt_cases x s
    · cases attempted.symm.trans ht
    · cases attempted.symm.trans ht
  reads s o t w ht clean := by
    obtain ⟨a, u, ran, attempted⟩ | ⟨e, u, ran, attempted⟩ := attempt_cases x s
    · cases attempted.symm.trans ht
      exact h.reads s a _ w ran clean
    · cases attempted.symm.trans ht
      have le := Extends.size_le (h.fails s e u ran)
      rw [Array.size_push] at clean
      omega
  yields s o t w ht clean left := by
    obtain ⟨a, u, ran, attempted⟩ | ⟨e, u, ran, attempted⟩ := attempt_cases x s
    · cases attempted.symm.trans ht
      exact attempt_of_ok (h.yields s a _ w ran clean left)
    · cases attempted.symm.trans ht
      have le := Extends.size_le (h.fails s e u ran)
      rw [Array.size_push] at clean
      omega

theorem extends_statements : ∀ {n n' : Nat}, n ≤ n' →
    ExtendsStmt c n (parser n) (parser n') ∧
      ExtendsStmt c n (declarationParser n) (declarationParser n')
  | 0, 0, _ => ⟨extends_fail _, extends_attempt (extends_fail _)⟩
  | 0, _ + 1, _ => ⟨extends_fail _, extends_attempt (extends_fail _)⟩
  | n + 1, 0, bounds => absurd bounds (Nat.not_succ_le_zero n)
  | n + 1, n' + 1, bounds => by
      have bounds := Nat.le_of_succ_le_succ bounds
      obtain ⟨hs, hd⟩ := extends_statements bounds
      exact ⟨extends_simple calm hs hd bounds,
        extends_attempt (extends_declared calm hs hd bounds)⟩

end Calm

end Stmt

/-! ### No declaration starts with `else` -/

namespace Parser

/-- The rule fails without reading anything. -/
def StuckAt (s : ParseState) (x : Parser α) : Prop := ∃ e, x s = .error e s

theorem StuckAt.bind {s : ParseState} {x : Parser α} (h : StuckAt s x) (f : α → Parser β) :
    StuckAt s (x >>= f) := by
  obtain ⟨e, he⟩ := h
  exact ⟨e, bind_of_error he⟩

theorem StuckAt.after {s : ParseState} {x : Parser α} {a : α} {f : α → Parser β}
    (h : x s = .ok a s) (stuck : StuckAt s (f a)) : StuckAt s (x >>= f) := by
  obtain ⟨e, he⟩ := stuck
  exact ⟨e, (bind_of_ok h).trans he⟩

theorem StuckAt.map {s : ParseState} {x : Parser α} (h : StuckAt s x) (f : α → β) :
    StuckAt s (f <$> x) := by
  rw [← bind_pure_comp]
  exact h.bind _

end Parser

section Else

variable {s : ParseState} {first : Token} {rest : List Token} (hs : s.rest = first :: rest)
  (hf : first.terminal = .keyword .else)
include hs hf

theorem Expr.stuck_negated (bound : Nat) (nested : Parser Expr) :
    StuckAt s (negated bound nested) := by
  have next : peek s = .ok first s := by
    rw [peek, hs, List.headD_cons]
  have kind : first.kind = .keyword .else := by
    rw [Token.terminal] at hf
    cases hk : first.kind with
    | keyword word =>
        rw [hk, Kind.terminal] at hf
        cases hf
        rfl
    | _ => simp [hk, Kind.terminal] at hf
  have primary : StuckAt s (primary nested) := by
    refine .after next ?_
    rw [kind]
    exact ⟨⟨.noExpression, first⟩, bind_of_ok next⟩
  have none : unaryOperators.contains first.terminal = false := by
    rw [hf]
    rfl
  have operators : acceptAll unaryOperators s = .ok [] s := by
    rw [acceptAll, hs, List.takeWhile_cons, List.dropWhile_cons, none]
    simp [← hs]
  exact .after operators ((primary.bind _).bind _)

theorem Expr.stuck_parser (bound : Nat) : StuckAt s (Expr.parser bound) := by
  have next : peek s = .ok first s := by
    rw [peek, hs, List.headD_cons]
  cases bound with
  | zero => exact .after next ⟨_, rfl⟩
  | succ bound =>
      have negated := stuck_negated hs hf bound (Expr.parser bound)
      have disjunction : StuckAt s (disjunction bound (Expr.parser bound)) :=
        (((((negated.bind _).bind _).bind _).bind _).bind _).bind _
      exact disjunction.bind _

theorem Stmt.errors_declarationParser (bound : Nat) {o : Option Stmt} {t : ParseState}
    (h : declarationParser bound s = .ok o t) : t.errors.size ≠ s.errors.size := by
  have next : peek s = .ok first s := by
    rw [peek, hs, List.headD_cons]
  have pushed {x : Parser Stmt} (stuck : StuckAt s x) (h : attempt x s = .ok o t) :
      t.errors.size ≠ s.errors.size := by
    obtain ⟨e, he⟩ := stuck
    cases (attempt_of_error he).symm.trans h
    simp
  cases bound with
  | zero => exact pushed (.after next ⟨_, rfl⟩) h
  | succ bound =>
      refine pushed (x := declared (bound + 1) (parser bound) (declarationParser bound)) ?_ h
      refine .after next ?_
      rw [hf]
      refine .after next ?_
      rw [hf]
      exact ((Expr.stuck_parser hs hf (bound + 1)).bind _).map Stmt.expression

end Else

/-! ### Whole programs -/

def declarations (n bound : Nat) (found : Array Stmt) : Parser (Array Stmt) :=
  chain (itemStep [.eof] (Stmt.declarationParser n)) bound found

/-- A program that can be read does not start with `else`. -/
theorem declarations_ne_else {bound : Nat} {found found' : Array Stmt} {s t : ParseState}
    (eof : s.eof.terminal = .eof) (fits : s.rest.length ≤ bound)
    (ran : declarations n bound found s = .ok found' t) (clean : t.errors.size = s.errors.size) :
    (s.rest.headD s.eof).terminal ≠ .keyword .else := by
  intro other
  cases hs : s.rest with
  | nil =>
      rw [hs, List.headD_nil, eof] at other
      cases other
  | cons first rest =>
      rw [hs, List.headD_cons] at other
      rw [hs, List.length_cons] at fits
      obtain ⟨bound, rfl⟩ : ∃ k, bound = k + 1 := ⟨bound - 1, by omega⟩
      have proper : first.terminal ≠ .eof := by
        rw [other]
        decide
      rw [declarations, chain_itemStep_cons _ hs proper] at ran
      obtain ⟨o, u, first_ran, ran⟩ := bind_eq_ok_iff.1 ran
      have calm : (Continuation.mk [] s.eof).eof.terminal ≠ .keyword .else := by
        rw [eof]
        decide
      have item := (Stmt.extends_statements (c := ⟨[], s.eof⟩) calm (Nat.le_refl n)).2
      have later := (extends_chain (extends_itemStep [.eof] (item.within (Nat.zero_le n)))
        (Nat.zero_le bound) (Nat.le_refl bound) _).passes u found' t ran
      have le := Extends.size_le (item.passes s o u first_ran)
      have le' := Extends.size_le later
      have errors := Stmt.errors_declarationParser hs other n first_ran
      omega

/-- The declarations that a state still has are read after those of an earlier state. -/
theorem declarations_append {s t s' t' : ParseState} {n m : Nat} {found found' : Array Stmt}
    (w : Within n s) (proper : ∀ t ∈ s.rest, t.terminal ≠ .eof)
    (ran : declarations n n #[] s = .ok found t) (clean : t.errors.size = s.errors.size)
    (w' : Within m s') (proper' : ∀ t ∈ s'.rest, t.terminal ≠ .eof)
    (ran' : declarations m m #[] s' = .ok found' t') (clean' : t'.errors.size = s'.errors.size)
    (continues : s' = { t with rest := s'.rest, eof := s'.eof }) :
    declarations (n + m) (n + m) #[] (s.extend ⟨s'.rest, s'.eof⟩) = .ok (found ++ found') t' := by
  have calm := declarations_ne_else w'.eof w'.length ran' clean'
  obtain ⟨nothing, bound, enough, same⟩ := chain_itemStep_extend
    (Stmt.extends_statements (c := ⟨s'.rest, s'.eof⟩) calm (Nat.le_add_right n m)).2 w.length w
    proper ran clean #[] (Nat.add_le_add w.length w'.length)
  have between : t.extend ⟨s'.rest, s'.eof⟩ = s' := by
    rw [ParseState.extend, nothing, List.nil_append]
    exact continues.symm
  -- The others are read with a larger bound, and after what was found before.
  have end_calm : (Continuation.mk [] s'.eof).eof.terminal ≠ .keyword .else := by
    rw [w'.eof]
    decide
  have item := (Stmt.extends_statements (c := ⟨[], s'.eof⟩) end_calm (Nat.le_add_left m n)).2
  obtain ⟨nothing', bound', -, same'⟩ :=
    chain_itemStep_extend item w'.length w' proper' ran' clean' found enough
  have passed := (extends_chain (extends_itemStep [.eof] (item.within (Nat.zero_le _)))
    (Nat.zero_le _) (Nat.le_refl _) _).passes _ _ _ ran'
  have alone {u : ParseState} (closing : u.eof = s'.eof) : u.extend ⟨[], s'.eof⟩ = u := by
    rw [ParseState.extend, List.append_nil, ← closing]
  rw [Array.empty_append, Array.empty_append, between] at same
  rw [alone rfl, alone passed.eof, Array.append_empty,
    chain_itemStep_nil _ (passed.eof ▸ w'.eof) nothing'] at same'
  exact same.trans same'

section Parse

variable {tokens : List Token} {firstSite : Site}

theorem ParseState.proper_start {t : Token} (ht : t ∈ (ParseState.start tokens firstSite).rest) :
    t.terminal ≠ .eof := by
  simpa using List.mem_takeWhile_imp ht

theorem ParseState.start_of_proper (proper : ∀ t ∈ tokens, t.terminal ≠ .eof) (firstSite : Site) :
    ParseState.start tokens firstSite = ⟨tokens, eofOf tokens, firstSite, #[]⟩ := by
  rw [ParseState.start, List.takeWhile_eq_self_iff.2 (by simpa using proper)]

theorem eofOf_append {first second : List Token} (proper : ∀ t ∈ first, t.terminal ≠ .eof)
    (some : second ≠ []) : eofOf (first ++ second) = eofOf second := by
  have none : first.find? (·.terminal = .eof) = none := by simpa using proper
  rw [eofOf, eofOf, List.find?_append, none, Option.none_or, List.getLast?_append,
    List.getLast?_eq_some_getLast some, Option.some_or]

/-- The tokens before the others are read first. -/
theorem ParseState.start_append {first second : List Token}
    (proper : ∀ t ∈ first, t.terminal ≠ .eof) (some : second ≠ []) :
    ParseState.start (first ++ second) firstSite =
      { ParseState.start second firstSite with
        rest := first ++ (ParseState.start second firstSite).rest } := by
  rw [ParseState.start, eofOf_append proper some,
    List.takeWhile_append_of_pos (by simpa using proper)]
  rfl

theorem parse_of_declarations {n : Nat} (fits : (ParseState.start tokens firstSite).rest.length = n)
    {found : Array Stmt} {t : ParseState}
    (ran : declarations n n #[] (.start tokens firstSite) = .ok found t) :
    parse tokens firstSite = ⟨found.toList, t.errors.toList, t.nextSite⟩ := by
  subst fits
  have items := (congrFun (itemsUntil_eq [.eof] _ (Stmt.declarationParser _)) _).trans
    (bind_of_ok ran)
  exact parse_of_ok items

theorem declarations_of_parse {n : Nat} (fits : (ParseState.start tokens firstSite).rest.length = n)
    (clean : (parse tokens firstSite).errors = []) :
    ∃ found t, declarations n n #[] (.start tokens firstSite) = .ok found t ∧ t.errors = #[] ∧
      parse tokens firstSite = ⟨found.toList, [], t.nextSite⟩ := by
  cases ran : declarations n n #[] (.start tokens firstSite) with
  | ok found t =>
      have parsed := parse_of_declarations fits ran
      rw [parsed] at clean
      have none : t.errors = #[] := Array.toList_eq_nil_iff.1 clean
      exact ⟨found, t, rfl, none, by rw [parsed, none]⟩
  | error e t =>
      subst fits
      have items := (congrFun (itemsUntil_eq [.eof] _ (Stmt.declarationParser _)) _).trans
        (bind_of_error ran)
      rw [parse_of_error items] at clean
      simp at clean

end Parse

/-- Two programs that can be read can be read one after the other. -/
theorem parse_append {first second : List Token} {closing : Token} {firstSite : Site}
    (closes : closing.terminal = .eof) (proper : ∀ t ∈ first, t.terminal ≠ .eof)
    (closed : ∃ t ∈ second, t.terminal = .eof)
    (clean : (parse (first ++ [closing]) firstSite).errors = [])
    (clean' : (parse second (parse (first ++ [closing]) firstSite).nextSite).errors = []) :
    parse (first ++ second) firstSite =
      ⟨(parse (first ++ [closing]) firstSite).statements ++
          (parse second (parse (first ++ [closing]) firstSite).nextSite).statements, [],
        (parse second (parse (first ++ [closing]) firstSite).nextSite).nextSite⟩ := by
  have start : ParseState.start (first ++ [closing]) firstSite =
      ⟨first, closing, firstSite, #[]⟩ := by
    rw [ParseState.start_append proper (List.cons_ne_nil closing [])]
    simp [ParseState.start, eofOf, closes]
  obtain ⟨found, t, ran, errors, parsed⟩ :=
    declarations_of_parse (n := first.length) (by rw [start]) clean
  rw [parsed] at clean' ⊢
  dsimp only at clean' ⊢
  obtain ⟨found', t', ran', errors', parsed'⟩ := declarations_of_parse rfl clean'
  rw [parsed']
  rw [start] at ran
  have whole : ParseState.start (first ++ second) firstSite =
      (ParseState.mk first closing firstSite #[]).extend
        ⟨(ParseState.start second t.nextSite).rest, (ParseState.start second t.nextSite).eof⟩ :=
    ParseState.start_append proper (List.ne_nil_of_mem closed.choose_spec.1)
  have w : Within first.length (.mk first closing firstSite #[]) := ⟨closes, Nat.le_refl _⟩
  have all := declarations_append w proper ran (by rw [errors])
    ⟨eofOf_terminal second, Nat.le_refl _⟩ (fun _ => ParseState.proper_start) ran'
    (by rw [errors']; rfl) (by rw [errors]; rfl)
  rw [← whole] at all
  rw [parse_of_declarations (by rw [whole]; exact List.length_append) all, errors',
    Array.toList_append]

end Lox
