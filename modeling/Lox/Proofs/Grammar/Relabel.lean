import Lox.Bind
import Lox.Grammar.Statement
import Lox.Proofs.Program.Relabel

/-!
# Reading relabeled tokens

The rules of the grammar look at the terminals of tokens only, and hand out sites one after the
other.  So reading relabeled tokens from a relabeled first site gives the relabeled phrase:
`Parser.Carries r g x y` says that `y` does on a relabeled state what `x` does on the state itself,
and that it yields the same up to `g`.
-/

namespace Lox

def GrammarError.relabel (r : Relabeling) (e : GrammarError) : GrammarError :=
  { e with culprit := r.token e.culprit }

def ParseState.relabel (r : Relabeling) (s : ParseState) : ParseState where
  rest := s.rest.map r.token
  eof := r.token s.eof
  nextSite := r.site s.nextSite
  errors := s.errors.map (GrammarError.relabel r)

/-- A relabeling that moves all sites by the same amount. -/
structure Relabeling.Shifts (r : Relabeling) : Prop extends r.Faithful where
  succ : ∀ site, r.site (site + 1) = r.site site + 1

namespace Parser

def relabelResult (r : Relabeling) (g : α → β) :
    EStateM.Result GrammarError ParseState α → EStateM.Result GrammarError ParseState β
  | .ok a s => .ok (g a) (s.relabel r)
  | .error e s => .error (e.relabel r) (s.relabel r)

/-- The second rule does on a relabeled state what the first one does on the state. -/
def Carries (r : Relabeling) (g : α → β) (x : Parser α) (y : Parser β) : Prop :=
  ∀ s, y (s.relabel r) = relabelResult r g (x s)

variable {r : Relabeling}

namespace Carries

theorem pure (g : α → β) (a : α) : Carries r g (pure a) (pure (g a)) := fun _ => rfl

theorem bind {g : α → β} {h : γ → δ} {x : Parser α} {y : Parser β} {f : α → Parser γ}
    {k : β → Parser δ} (hx : Carries r g x y) (hf : ∀ a, Carries r h (f a) (k (g a))) :
    Carries r h (x >>= f) (y >>= k) := by
  intro s
  have first := hx s
  cases ran : x s with
  | ok a s' =>
      rw [ran] at first
      rw [bind_of_ok ran, bind_of_ok first]
      exact hf a s'
  | error e s' =>
      rw [ran] at first
      rw [bind_of_error ran, bind_of_error first]
      rfl

theorem map {g : α → β} {h : γ → δ} {x : Parser α} {y : Parser β} (f : α → γ) (k : β → δ)
    (hx : Carries r g x y) (hfk : ∀ a, k (g a) = h (f a)) : Carries r h (f <$> x) (k <$> y) := by
  rw [← bind_pure_comp, ← bind_pure_comp]
  refine hx.bind fun a => ?_
  rw [hfk]
  exact pure h (f a)

theorem chain {g : α → β} {step : α → Parser (Option α)} {step' : β → Parser (Option β)}
    (h : ∀ a, Carries r (Option.map g) (step a) (step' (g a))) (bound : Nat) {a : α} {b : β}
    (hab : b = g a) : Carries r g (Parser.chain step bound a) (Parser.chain step' bound b) := by
  subst hab
  induction bound generalizing a with
  | zero => exact pure g a
  | succ bound ih =>
      refine (h a).bind fun o => ?_
      cases o with
      | none => exact pure g a
      | some b => exact ih

end Carries

theorem carries_peek : Carries r r.token peek peek := by
  intro s
  change EStateM.Result.ok ((s.rest.map r.token).headD (r.token s.eof)) _ = _
  rw [List.headD_map]
  rfl

theorem carries_skip : Carries r id skip skip := by
  intro s
  change EStateM.Result.ok () { s.relabel r with rest := (s.rest.map r.token).tail } = _
  rw [← List.map_tail]
  rfl

theorem carries_fail (fault : GrammarFault) (g : α → β) :
    Carries r g (fail fault) (fail fault) :=
  carries_peek.bind fun _ => fun _ => rfl

theorem carries_note (fault : GrammarFault) (culprit : Token) :
    Carries r id (note fault culprit) (note fault (r.token culprit)) := by
  intro s
  have errors : (s.errors.map (GrammarError.relabel r)).push ⟨fault, r.token culprit⟩ =
      (s.errors.push ⟨fault, culprit⟩).map (GrammarError.relabel r) := by
    simp [GrammarError.relabel]
  exact congrArg (fun errors => EStateM.Result.ok () { s.relabel r with errors }) errors

theorem carries_limited (excess : GrammarFault) {g : α → β} {item : Parser α} {item' : Parser β}
    (hi : Carries r g item item') {found : Array α} {found' : Array β}
    (hf : found' = found.map g) :
    Carries r (Array.map g) (limited excess item found) (limited excess item' found') := by
  subst hf
  have rest : Carries r (Array.map g) (do return found.push (← item))
      (do return (found.map g).push (← item')) := by
    refine hi.bind fun a => ?_
    simpa using Carries.pure (Array.map g) (found.push a)
  unfold limited
  rw [Array.size_map]
  split
  · exact carries_peek.bind fun t => (carries_note excess t).bind fun _ => rest
  · exact rest

section Shifts

variable (h : r.Shifts)
include h

theorem carries_freshSite : Carries r r.site freshSite freshSite := by
  intro s
  change EStateM.Result.ok (r.site s.nextSite) { s.relabel r with
    nextSite := r.site s.nextSite + 1 } = _
  rw [← h.succ]
  rfl

theorem carries_nextIs (terminals : List Terminal) :
    Carries r id (nextIs terminals) (nextIs terminals) := by
  refine carries_peek.bind fun t => ?_
  rw [h.terminal]
  exact .pure id _

theorem carries_accept? (terminals : List Terminal) :
    Carries r (Option.map r.token) (accept? terminals) (accept? terminals) := by
  intro s
  obtain ⟨t, rest, next, mem, read⟩ | ⟨other, declined⟩ := accept?_cases terminals s
  · rw [read]
    refine accept?_of_mem ?_ ((h.terminal t).symm ▸ mem)
    rw [ParseState.relabel, next, List.map_cons]
  · rw [declined]
    refine accept?_of_forall_notMem ?_
    rw [ParseState.relabel, List.head?_map]
    rintro t' mapped
    obtain ⟨t, first, rfl⟩ := Option.map_eq_some_iff.1 mapped
    rw [h.terminal]
    exact other t first

theorem carries_acceptAll (terminals : List Terminal) :
    Carries r (List.map r.token) (acceptAll terminals) (acceptAll terminals) := by
  intro s
  unfold acceptAll
  simp [ParseState.relabel, relabelResult, List.takeWhile_map, List.dropWhile_map,
    Function.comp_def, h.terminal]

theorem carries_expect (terminal : Terminal) (fault : GrammarFault) :
    Carries r r.token (expect terminal fault) (expect terminal fault) := by
  refine (carries_accept? h _).bind fun o => ?_
  cases o with
  | none => exact carries_fail fault r.token
  | some t => exact .pure r.token t

theorem carries_itemsUntil (stop : List Terminal) (bound : Nat) {g : α → β}
    {item : Parser (Option α)} {item' : Parser (Option β)}
    (hi : Carries r (Option.map g) item item') :
    Carries r (List.map g) (itemsUntil stop bound item) (itemsUntil stop bound item') := by
  refine Carries.bind (g := Array.map g) (Carries.chain (fun found => ?_) bound (by simp))
    fun as => ?_
  · refine (carries_nextIs h stop).bind fun stops => ?_
    cases stops with
    | true => exact .pure _ none
    | false =>
        refine hi.bind fun o => ?_
        cases o with
        | none => exact .pure _ (some found)
        | some a => simpa using Carries.pure (Option.map (Array.map g)) (some (found.push a))
  · simpa using Carries.pure (List.map g) as.toList

theorem carries_commaList (excess : GrammarFault) (bound : Nat) {g : α → β} {item : Parser α}
    {item' : Parser β} (hi : Carries r g item item') :
    Carries r (List.map g) (commaList excess bound item) (commaList excess bound item') := by
  refine (carries_nextIs h _).bind fun empty => ?_
  cases empty with
  | true => exact .pure _ []
  | false =>
      refine (carries_limited excess hi (by simp)).bind fun first => ?_
      refine Carries.bind (g := Array.map g) (Carries.chain (fun found => ?_) bound rfl)
        fun as => ?_
      · refine (carries_accept? h _).bind fun comma => ?_
        cases comma with
        | none => exact .pure _ none
        | some _ => exact (carries_limited excess hi rfl).bind fun as => .pure _ (some as)
      · simpa using Carries.pure (List.map g) as.toList

end Shifts

end Parser

open Lox.Parser

variable {r : Relabeling}

def CarriesExpr (r : Relabeling) (x : Parser Expr) : Prop := Carries r (Expr.relabel r) x x

def CarriesStmt (r : Relabeling) (x : Parser Stmt) : Prop := Carries r (Stmt.relabel r) x x

def CarriesDecl (r : Relabeling) (x : Parser (Option Stmt)) : Prop :=
  Carries r (Option.map (Stmt.relabel r)) x x

namespace Expr

variable (h : r.Shifts)
include h

theorem carries_primary {nested : Parser Expr} (hn : CarriesExpr r nested) :
    CarriesExpr r (primary nested) := by
  have literal (value : Literal) : CarriesExpr r (do skip; return .literal value) :=
    carries_skip.bind fun _ => .pure _ (Expr.literal value)
  refine carries_peek.bind fun t => ?_
  rw [h.kind]
  split
  · exact literal _
  · exact literal _
  · exact literal _
  · exact literal _
  · exact literal _
  · refine carries_skip.bind fun _ => (carries_expect h _ _).bind fun _ => ?_
    refine (carries_expect h _ _).bind fun method => ?_
    exact (carries_freshSite h).bind fun site => .pure _ (Expr.super site t method)
  · exact carries_skip.bind fun _ => (carries_freshSite h).bind fun site =>
      .pure _ (Expr.this site t)
  · exact carries_skip.bind fun _ => (carries_freshSite h).bind fun site =>
      .pure _ (Expr.variable site t)
  · refine carries_skip.bind fun _ => hn.bind fun inner => ?_
    exact (carries_expect h _ _).bind fun _ => .pure _ (Expr.grouping inner)
  · exact carries_fail _ _

theorem carries_finishCall (bound : Nat) {nested : Parser Expr} (hn : CarriesExpr r nested)
    (callee : Expr) :
    Carries r (Expr.relabel r) (finishCall bound nested callee)
      (finishCall bound nested (callee.relabel r)) := by
  refine (carries_commaList h _ bound hn).bind fun arguments => ?_
  refine (carries_expect h _ _).bind fun paren => ?_
  rw [← Expr.relabelAll_eq_map]
  exact .pure _ (Expr.call callee paren arguments)

theorem carries_suffix (bound : Nat) {nested : Parser Expr} (hn : CarriesExpr r nested)
    (e : Expr) :
    Carries r (Option.map (Expr.relabel r)) (suffix bound nested e)
      (suffix bound nested (e.relabel r)) := by
  refine (carries_accept? h _).bind fun o => ?_
  cases o with
  | none => exact .pure _ none
  | some t =>
      dsimp only [Option.map_some]
      rw [h.terminal]
      split
      · exact (carries_finishCall h bound hn e).bind fun e' => .pure _ (some e')
      · exact (carries_expect h _ _).bind fun name => .pure _ (some (Expr.get e name))

theorem carries_called (bound : Nat) {nested : Parser Expr} (hn : CarriesExpr r nested) :
    CarriesExpr r (called bound nested) :=
  (carries_primary h hn).bind fun _ => Carries.chain (carries_suffix h bound hn) bound rfl

theorem carries_negated (bound : Nat) {nested : Parser Expr} (hn : CarriesExpr r nested) :
    CarriesExpr r (negated bound nested) := by
  refine (carries_acceptAll h _).bind fun operators => (carries_called h bound hn).bind fun e => ?_
  have all : (operators.map r.token).foldr unary (e.relabel r) =
      (operators.foldr unary e).relabel r := by
    induction operators with
    | nil => rfl
    | cons operator operators ih => exact congrArg (unary (r.token operator)) ih
  rw [all]
  exact .pure _ (operators.foldr unary e)

theorem carries_leftGrouped (bound : Nat) (operators : List Terminal)
    (build : Expr → Token → Expr → Expr)
    (hb : ∀ a o b, (build a o b).relabel r = build (a.relabel r) (r.token o) (b.relabel r))
    {operand : Parser Expr} (ho : CarriesExpr r operand) :
    CarriesExpr r (leftGrouped bound operators build operand) := by
  refine ho.bind fun first => Carries.chain (fun left => ?_) bound rfl
  refine (carries_accept? h _).bind fun o => ?_
  cases o with
  | none => exact .pure _ none
  | some operator =>
      refine ho.bind fun right => ?_
      rw [← hb]
      exact .pure _ (some (build left operator right))

theorem carries_binary (bound : Nat) (operators : List Terminal) {operand : Parser Expr}
    (ho : CarriesExpr r operand) : CarriesExpr r (leftGrouped bound operators binary operand) :=
  carries_leftGrouped h bound operators binary (fun _ _ _ => rfl) ho

theorem carries_logical (bound : Nat) (operators : List Terminal) {operand : Parser Expr}
    (ho : CarriesExpr r operand) : CarriesExpr r (leftGrouped bound operators logical operand) :=
  carries_leftGrouped h bound operators logical (fun _ _ _ => rfl) ho

theorem carries_disjunction (bound : Nat) {nested : Parser Expr} (hn : CarriesExpr r nested) :
    CarriesExpr r (disjunction bound nested) :=
  carries_logical h bound _ <| carries_logical h bound _ <| carries_binary h bound _ <|
    carries_binary h bound _ <| carries_binary h bound _ <| carries_binary h bound _ <|
    carries_negated h bound hn

theorem carries_assignTo (target value : Expr) (equals : Token) :
    Carries r (Expr.relabel r) (assignTo target equals value)
      (assignTo (target.relabel r) (r.token equals) (value.relabel r)) := by
  have other : Carries r (Expr.relabel r) (do note .invalidTarget equals; return target)
      (do note .invalidTarget (r.token equals); return target.relabel r) :=
    (carries_note _ _).bind fun _ => .pure _ target
  cases target with
  | «variable» _ name =>
      exact (carries_freshSite h).bind fun site => .pure _ (Expr.assign site name value)
  | get object name => exact .pure _ (Expr.set object name value)
  | _ => exact other

theorem carries_assignment (bound : Nat) {nested : Parser Expr} (hn : CarriesExpr r nested) :
    CarriesExpr r (assignment bound nested) := by
  refine (carries_disjunction h bound hn).bind fun target => (carries_accept? h _).bind fun o => ?_
  cases o with
  | none => exact .pure _ target
  | some equals => exact hn.bind fun value => carries_assignTo h target value equals

theorem carries_expression (bound : Nat) : CarriesExpr r (Expr.parser bound) := by
  induction bound with
  | zero => exact carries_fail _ _
  | succ bound ih => exact carries_assignment h bound ih

end Expr

namespace Stmt

variable (h : r.Shifts)
include h

theorem carries_terminated {expression : Parser Expr} (he : CarriesExpr r expression)
    (fault : GrammarFault) : CarriesExpr r (terminated expression fault) :=
  he.bind fun e => (carries_expect h _ _).bind fun _ => .pure _ e

theorem carries_optionalBefore (stop : Terminal) {expression : Parser Expr}
    (he : CarriesExpr r expression) :
    Carries r (Option.map (Expr.relabel r)) (optionalBefore stop expression)
      (optionalBefore stop expression) := by
  refine (carries_nextIs h _).bind fun stops => ?_
  cases stops with
  | true => exact .pure _ none
  | false => exact he.bind fun e => .pure _ (some e)

theorem carries_varDecl {expression : Parser Expr} (he : CarriesExpr r expression) :
    CarriesStmt r (varDecl expression) := by
  refine (carries_expect h _ _).bind fun name => ?_
  have rest (initializer : Option Expr) : Carries r (Stmt.relabel r)
      (do let _ ← expect (.symbol .semicolon) .openVariable; return .var name initializer)
      (do
        let _ ← expect (.symbol .semicolon) .openVariable
        return .var (r.token name) (initializer.map (Expr.relabel r))) := by
    refine (carries_expect h _ _).bind fun _ => ?_
    cases initializer with
    | none => exact .pure _ (Stmt.var name none)
    | some e => exact .pure _ (Stmt.var name (some e))
  refine (carries_accept? h _).bind fun o => ?_
  cases o with
  | none => exact Carries.bind (.pure (Option.map (Expr.relabel r)) none) rest
  | some _ => exact Carries.bind (he.map some some fun _ => rfl) rest

theorem carries_blockBody (bound : Nat) {declaration : Parser (Option Stmt)}
    (hd : CarriesDecl r declaration) :
    Carries r (List.map (Stmt.relabel r)) (blockBody bound declaration)
      (blockBody bound declaration) :=
  (carries_itemsUntil h _ bound hd).bind fun body => (carries_expect h _ _).bind fun _ =>
    .pure _ body

theorem carries_functionDecl (bound : Nat) {declaration : Parser (Option Stmt)}
    (hd : CarriesDecl r declaration) (form : FunctionForm) :
    Carries r (FunctionDecl.relabel r) (functionDecl bound declaration form)
      (functionDecl bound declaration form) := by
  refine (carries_expect h _ _).bind fun name => (carries_expect h _ _).bind fun _ => ?_
  refine (carries_commaList h _ bound (carries_expect h _ _)).bind fun parameters => ?_
  refine (carries_expect h _ _).bind fun _ => (carries_expect h _ _).bind fun _ => ?_
  refine (carries_blockBody h bound hd).bind fun body => ?_
  rw [← Stmt.relabelAll_eq_map]
  exact .pure _ (FunctionDecl.mk name parameters body)

theorem carries_classDecl (bound : Nat) {declaration : Parser (Option Stmt)}
    (hd : CarriesDecl r declaration) : CarriesStmt r (classDecl bound declaration) := by
  refine (carries_expect h _ _).bind fun name => ?_
  have rest (superclass : Option Expr) : Carries r (Stmt.relabel r) (do
        let _ ← expect (.symbol .leftBrace) .noClassBody
        let methods ← itemsUntil [.symbol .rightBrace, .eof] bound
          (some <$> functionDecl bound declaration .method)
        let _ ← expect (.symbol .rightBrace) .openClassBody
        return .class name superclass methods)
      (do
        let _ ← expect (.symbol .leftBrace) .noClassBody
        let methods ← itemsUntil [.symbol .rightBrace, .eof] bound
          (some <$> functionDecl bound declaration .method)
        let _ ← expect (.symbol .rightBrace) .openClassBody
        return .class (r.token name) (superclass.map (Expr.relabel r)) methods) := by
    have method : Carries r (Option.map (FunctionDecl.relabel r))
        (some <$> functionDecl bound declaration .method)
        (some <$> functionDecl bound declaration .method) :=
      (carries_functionDecl h bound hd .method).map some some fun _ => rfl
    refine (carries_expect h _ _).bind fun _ => (carries_itemsUntil h _ bound method).bind
      fun methods => (carries_expect h _ _).bind fun _ => ?_
    rw [← Stmt.relabelMethods_eq_map]
    cases superclass with
    | none => exact .pure _ (Stmt.class name none methods)
    | some e => exact .pure _ (Stmt.class name (some e) methods)
  refine (carries_accept? h _).bind fun o => ?_
  cases o with
  | none => exact Carries.bind (.pure (Option.map (Expr.relabel r)) none) rest
  | some _ =>
      refine (carries_expect h _ _).bind fun superName => (carries_freshSite h).bind fun site => ?_
      exact Carries.bind (.pure (Option.map (Expr.relabel r))
        (some (Expr.variable site superName))) rest

omit h in
theorem relabel_forLoop (initializer : Option Stmt) (condition increment : Option Expr)
    (body : Stmt) :
    (forLoop initializer condition increment body).relabel r =
      forLoop (initializer.map (Stmt.relabel r)) (condition.map (Expr.relabel r))
        (increment.map (Expr.relabel r)) (body.relabel r) := by
  cases initializer <;> cases condition <;> cases increment <;> rfl

theorem carries_forStatement {expression : Parser Expr} {statement : Parser Stmt}
    (he : CarriesExpr r expression) (hs : CarriesStmt r statement) :
    CarriesStmt r (forStatement expression statement) := by
  refine (carries_expect h _ _).bind fun _ => ?_
  have rest (initializer : Option Stmt) : Carries r (Stmt.relabel r) (do
        let condition ← optionalBefore (.symbol .semicolon) expression
        let _ ← expect (.symbol .semicolon) .openLoopCondition
        let increment ← optionalBefore (.symbol .rightParen) expression
        let _ ← expect (.symbol .rightParen) .openForClauses
        return forLoop initializer condition increment (← statement))
      (do
        let condition ← optionalBefore (.symbol .semicolon) expression
        let _ ← expect (.symbol .semicolon) .openLoopCondition
        let increment ← optionalBefore (.symbol .rightParen) expression
        let _ ← expect (.symbol .rightParen) .openForClauses
        return forLoop (initializer.map (Stmt.relabel r)) condition increment (← statement)) := by
    refine (carries_optionalBefore h _ he).bind fun condition => (carries_expect h _ _).bind
      fun _ => (carries_optionalBefore h _ he).bind fun increment => (carries_expect h _ _).bind
      fun _ => hs.bind fun body => ?_
    rw [← relabel_forLoop]
    exact .pure _ (forLoop initializer condition increment body)
  refine (carries_accept? h _).bind fun o => ?_
  cases o with
  | none =>
      have first : CarriesStmt r
          (Stmt.expression <$> terminated expression .openExpressionStatement) :=
        (carries_terminated h he _).map _ _ fun _ => rfl
      exact Carries.bind (g := Option.map (Stmt.relabel r)) (first.map some some fun _ => rfl) rest
  | some t =>
      dsimp only [Option.map_some]
      rw [h.terminal]
      split
      · exact Carries.bind (.pure (Option.map (Stmt.relabel r)) none) rest
      · exact Carries.bind ((carries_varDecl h he).map some some fun _ => rfl) rest

theorem carries_ifStatement {expression : Parser Expr} {statement : Parser Stmt}
    (he : CarriesExpr r expression) (hs : CarriesStmt r statement) :
    CarriesStmt r (ifStatement expression statement) := by
  refine (carries_expect h _ _).bind fun _ => he.bind fun condition =>
    (carries_expect h _ _).bind fun _ => hs.bind fun consequence =>
    (carries_accept? h _).bind fun o => ?_
  cases o with
  | none => exact .pure _ (Stmt.branch condition consequence none)
  | some _ =>
      exact hs.bind fun alternative =>
        .pure _ (Stmt.branch condition consequence (some alternative))

theorem carries_whileStatement {expression : Parser Expr} {statement : Parser Stmt}
    (he : CarriesExpr r expression) (hs : CarriesStmt r statement) :
    CarriesStmt r (whileStatement expression statement) :=
  (carries_expect h _ _).bind fun _ => he.bind fun condition => (carries_expect h _ _).bind
    fun _ => hs.bind fun body => .pure _ (Stmt.while condition body)

theorem carries_returnStatement {expression : Parser Expr} (he : CarriesExpr r expression)
    (keyword : Token) :
    Carries r (Stmt.relabel r) (returnStatement expression keyword)
      (returnStatement expression (r.token keyword)) := by
  refine (carries_optionalBefore h _ he).bind fun value => (carries_expect h _ _).bind fun _ => ?_
  cases value with
  | none => exact .pure _ (Stmt.return keyword none)
  | some e => exact .pure _ (Stmt.return keyword (some e))

theorem carries_simple (bound : Nat) {statement : Parser Stmt}
    {declaration : Parser (Option Stmt)} (hs : CarriesStmt r statement)
    (hd : CarriesDecl r declaration) :
    CarriesStmt r (simple bound statement declaration) := by
  have he : CarriesExpr r (Expr.parser bound) := Expr.carries_expression h bound
  refine carries_peek.bind fun t => ?_
  rw [h.terminal]
  split
  · exact carries_skip.bind fun _ => carries_forStatement h he hs
  · exact carries_skip.bind fun _ => carries_ifStatement h he hs
  · exact carries_skip.bind fun _ => carries_whileStatement h he hs
  · exact carries_skip.bind fun _ => carries_returnStatement h he t
  · exact carries_skip.bind fun _ => (carries_terminated h he _).map _ _ fun _ => rfl
  · refine carries_skip.bind fun _ => (carries_blockBody h bound hd).map _ _ fun body => ?_
    rw [← Stmt.relabelAll_eq_map]
    rfl
  · exact (carries_terminated h he _).map _ _ fun _ => rfl

theorem carries_declared (bound : Nat) {statement : Parser Stmt}
    {declaration : Parser (Option Stmt)} (hs : CarriesStmt r statement)
    (hd : CarriesDecl r declaration) :
    CarriesStmt r (declared bound statement declaration) := by
  refine carries_peek.bind fun t => ?_
  rw [h.terminal]
  split
  · exact carries_skip.bind fun _ => carries_classDecl h bound hd
  · exact carries_skip.bind fun _ => (carries_functionDecl h bound hd _).map _ _ fun _ => rfl
  · exact carries_skip.bind fun _ => carries_varDecl h (Expr.carries_expression h bound)
  · exact carries_simple h bound hs hd

theorem recover_map (tokens : List Token) :
    recover (tokens.map r.token) = (recover tokens).map r.token := by
  induction tokens with
  | nil => rfl
  | cons t rest ih =>
      have next : (rest.map r.token).head?.any (starters.contains ·.terminal) =
          rest.head?.any (starters.contains ·.terminal) := by
        cases rest with
        | nil => rfl
        | cons t' rest => simp [h.terminal]
      rw [List.map_cons, recover, recover, h.terminal, next, ih]
      split <;> rfl

theorem carries_attempt {rule : Parser Stmt} (hr : CarriesStmt r rule) :
    CarriesDecl r (attempt rule) := by
  intro s
  have first := hr s
  obtain ⟨a, t, ran, attempted⟩ | ⟨e, t, ran, attempted⟩ := attempt_cases rule s
  · rw [ran] at first
    rw [attempted, attempt_of_ok first]
    rfl
  · rw [ran] at first
    rw [attempted, attempt_of_error first]
    simp [relabelResult, ParseState.relabel, recover_map h]

theorem carries_statements (bound : Nat) :
    CarriesStmt r (Stmt.parser bound) ∧ CarriesDecl r (Stmt.declarationParser bound) := by
  induction bound with
  | zero => exact ⟨carries_fail _ _, carries_attempt h (carries_fail _ _)⟩
  | succ bound ih =>
      exact ⟨carries_simple h (bound + 1) ih.1 ih.2,
        carries_attempt h (carries_declared h (bound + 1) ih.1 ih.2)⟩

end Stmt

def Parsed.relabel (r : Relabeling) (p : Parsed) : Parsed where
  statements := Stmt.relabelAll r p.statements
  errors := p.errors.map (GrammarError.relabel r)
  nextSite := r.site p.nextSite

theorem eofOf_map (h : r.Shifts) {tokens : List Token}
    (closed : ∃ t ∈ tokens, t.terminal = .eof) :
    eofOf (tokens.map r.token) = r.token (eofOf tokens) := by
  have same : (fun t => decide (t.terminal = .eof)) ∘ r.token =
      fun t => decide (t.terminal = .eof) := funext fun t => by simp [h.terminal]
  rw [eofOf, eofOf, List.find?_map, same]
  cases found : tokens.find? (·.terminal = .eof) with
  | none =>
      obtain ⟨t, ht, eof⟩ := closed
      simpa [eof] using List.find?_eq_none.1 found t ht
  | some t => rfl

/-- Reading relabeled tokens gives the relabeled program. -/
theorem parse_relabel (h : r.Shifts) {tokens : List Token}
    (closed : ∃ t ∈ tokens, t.terminal = .eof) (firstSite : Site) :
    parse (tokens.map r.token) (r.site firstSite) = (parse tokens firstSite).relabel r := by
  have same : (fun t => decide (t.terminal ≠ .eof)) ∘ r.token =
      fun t => decide (t.terminal ≠ .eof) := funext fun t => by simp [h.terminal]
  have start : ParseState.start (tokens.map r.token) (r.site firstSite) =
      (ParseState.start tokens firstSite).relabel r := by
    rw [ParseState.start, eofOf_map h closed, List.takeWhile_map, same]
    simp [ParseState.start, ParseState.relabel]
  have length : ((ParseState.start tokens firstSite).relabel r).rest.length =
      (ParseState.start tokens firstSite).rest.length := List.length_map _
  let bound := (ParseState.start tokens firstSite).rest.length
  have items := carries_itemsUntil h [.eof] bound (Stmt.carries_statements h bound).2
    (.start tokens firstSite)
  cases read : itemsUntil [.eof] bound (Stmt.declarationParser bound) (.start tokens firstSite) with
  | ok statements s =>
      rw [read] at items
      rw [parse_of_ok read, parse_of_ok (by rw [start, length]; exact items)]
      simp [Parsed.relabel, ParseState.relabel, Stmt.relabelAll_eq_map]
  | error e s =>
      rw [read] at items
      rw [parse_of_error read, parse_of_error (by rw [start, length]; exact items)]
      simp [Parsed.relabel, ParseState.relabel, Stmt.relabelAll]

end Lox
