import Lox.Proofs.Grammar.Phrase

/-!
# What a rule comes to

A rule that fails does so at the next token: nothing between the failure and where it is handled
reads on.  A rule that does not fail yields a phrase whose operators and members have the kinds that
the rules ask for.  `Parser.ComesTo rule Q` says both, with `Q` for the phrase, and needs to know
nothing of the state that the rule starts in.  So it holds in the middle of a faulty program as it
does in a correct one.

`Node.Regular` is what the rules ask of operators and members.  Together with `Node.WellFormed` it
is what every node of a program has, whatever the tokens are (`parse_grammatical`).
-/

namespace Lox

open Lox.Parser

def binaryMarks : List Symbol :=
  [.bangEqual, .equalEqual, .greater, .greaterEqual, .less, .lessEqual, .minus, .plus, .slash,
    .star]

/-- The operator of a node is one of its kind, and its member is named by an identifier. -/
def Node.Regular : Node → Prop
  | .expr (.unary operator _) => operator.kind = .symbol .bang ∨ operator.kind = .symbol .minus
  | .expr (.binary _ operator _) => ∃ mark ∈ binaryMarks, operator.kind = .symbol mark
  | .expr (.logical _ operator _) => operator.kind = .keyword .and ∨ operator.kind = .keyword .or
  | .expr (.get _ name) => name.kind = .identifier
  | .expr (.set _ name _) => name.kind = .identifier
  | .expr (.super _ _ method) => method.kind = .identifier
  | _ => True

/-- What the grammar promises of every node. -/
structure Node.Grammatical (n : Node) : Prop where
  formed : n.WellFormed
  regular : n.Regular

theorem Token.kind_of_symbol {t : Token} {mark : Symbol} (h : t.terminal = .symbol mark) :
    t.kind = .symbol mark := by
  rw [Token.terminal] at h
  cases hk : t.kind <;> simp_all [Kind.terminal]

theorem Token.kind_of_keyword {t : Token} {word : Keyword} (h : t.terminal = .keyword word) :
    t.kind = .keyword word := by
  rw [Token.terminal] at h
  cases hk : t.kind <;> simp_all [Kind.terminal]

def Expr.Regular (e : Expr) : Prop := ∀ n ∈ e.nodes, n.Regular

def Stmt.Regular (s : Stmt) : Prop := ∀ n ∈ s.nodes, n.Regular

def FunctionDecl.Regular (d : FunctionDecl) : Prop := ∀ n ∈ d.nodes, n.Regular

namespace Parser

/-- The rule yields something in `Q`, or else it fails at the next token. -/
def ComesTo (x : Parser α) (Q : α → Prop) : Prop :=
  ∀ s, match x s with
    | .ok a _ => Q a
    | .error e s' => e.culprit = s'.rest.headD s'.eof

namespace ComesTo

variable {α β : Type} {x : Parser α} {Q : α → Prop} {T : β → Prop}

theorem pure {a : α} (h : Q a) : ComesTo (pure a) Q := fun _ => h

theorem fail (fault : GrammarFault) : ComesTo (fail fault : Parser α) Q := fun _ => rfl

theorem bind {f : α → Parser β} (hx : ComesTo x Q) (hf : ∀ a, Q a → ComesTo (f a) T) :
    ComesTo (x >>= f) T := by
  intro s
  have first := hx s
  cases hxs : x s with
  | error e s' =>
      rw [hxs] at first
      rw [bind_of_error hxs]
      exact first
  | ok a s' =>
      rw [hxs] at first
      rw [bind_of_ok hxs]
      exact hf a first s'

theorem map (f : α → β) (hx : ComesTo x Q) (hf : ∀ a, Q a → T (f a)) : ComesTo (f <$> x) T := by
  rw [← bind_pure_comp]
  exact hx.bind fun a ha => .pure (hf a ha)

theorem peek : ComesTo peek fun _ => True := fun _ => trivial

theorem skip : ComesTo skip fun _ => True := fun _ => trivial

theorem freshSite : ComesTo freshSite fun _ => True := fun _ => trivial

theorem note (fault : GrammarFault) (culprit : Token) :
    ComesTo (note fault culprit) fun _ => True :=
  fun _ => trivial

theorem nextIs (terminals : List Terminal) : ComesTo (nextIs terminals) fun _ => True :=
  fun _ => trivial

theorem accept? (terminals : List Terminal) :
    ComesTo (accept? terminals) fun o => ∀ t ∈ o, t.terminal ∈ terminals := by
  intro s
  obtain ⟨t, rest, -, here, read⟩ | ⟨-, declined⟩ := accept?_cases terminals s
  · rw [read]
    rintro t' ⟨⟩
    exact here
  · rw [declined]
    exact nofun

theorem acceptAll (terminals : List Terminal) :
    ComesTo (acceptAll terminals) fun ts => ∀ t ∈ ts, t.terminal ∈ terminals := by
  intro s t ht
  simpa using List.mem_takeWhile_imp ht

theorem expect (terminal : Terminal) (fault : GrammarFault) :
    ComesTo (expect terminal fault) fun t => t.terminal = terminal := by
  refine (accept? [terminal]).bind fun o ho => ?_
  cases o with
  | none => exact .fail fault
  | some t => exact .pure (List.mem_singleton.1 (ho t rfl))

theorem chain {step : α → Parser (Option α)}
    (h : ∀ a, Q a → ComesTo (step a) fun o => ∀ b ∈ o, Q b) (bound : Nat) {a : α} (ha : Q a) :
    ComesTo (chain step bound a) Q := by
  induction bound generalizing a with
  | zero => exact .pure ha
  | succ bound ih =>
      refine (h a ha).bind fun o ho => ?_
      cases o with
      | none => exact .pure ha
      | some b => exact ih (ho b rfl)

theorem itemsUntil (stop : List Terminal) (bound : Nat) {item : Parser (Option α)}
    (h : ComesTo item fun o => ∀ a ∈ o, Q a) :
    ComesTo (itemsUntil stop bound item) fun as => ∀ a ∈ as, Q a := by
  refine ComesTo.bind (Q := fun (as : Array α) => ∀ a ∈ as.toList, Q a) ?_ fun as ha => .pure ha
  refine ComesTo.chain (fun found hf => ?_) bound (by simp)
  refine (nextIs stop).bind fun stops _ => ?_
  cases stops with
  | true => exact .pure (by simp)
  | false =>
      refine h.bind fun o ho => ?_
      cases o with
      | none => exact .pure (by simpa using hf)
      | some a =>
          refine .pure ?_
          simpa [or_imp, forall_and] using ⟨by simpa using hf, ho a rfl⟩

theorem limited (excess : GrammarFault) {item : Parser α} (h : ComesTo item Q) {found : Array α}
    (hf : ∀ a ∈ found.toList, Q a) :
    ComesTo (limited excess item found) fun as => ∀ a ∈ as.toList, Q a := by
  have rest :
      ComesTo (do return found.push (← item)) fun (as : Array α) => ∀ a ∈ as.toList, Q a := by
    refine h.bind fun a ha => .pure ?_
    simpa [or_imp, forall_and] using ⟨by simpa using hf, ha⟩
  unfold Parser.limited
  split
  · exact peek.bind fun t _ => (note excess t).bind fun _ _ => rest
  · exact rest

theorem commaList (excess : GrammarFault) (bound : Nat) {item : Parser α} (h : ComesTo item Q) :
    ComesTo (commaList excess bound item) fun as => ∀ a ∈ as, Q a := by
  refine (nextIs _).bind fun empty _ => ?_
  cases empty with
  | true => exact .pure (by simp)
  | false =>
      refine (limited excess h (by simp)).bind fun first hf => ?_
      refine (ComesTo.chain (fun found hf => ?_) bound hf).bind fun as ha => .pure ha
      refine (accept? _).bind fun comma _ => ?_
      cases comma with
      | none => exact .pure (by simp)
      | some _ => exact (limited excess h hf).bind fun as ha => .pure (by simpa using ha)

/-- Reading items separated by operators keeps what holds of them, if building does. -/
theorem leftGrouped (bound : Nat) {operators : List Terminal} {build : Expr → Token → Expr → Expr}
    {operand : Parser Expr} {Q : Expr → Prop} (h : ComesTo operand Q)
    (built : ∀ left operator right, operator.terminal ∈ operators → Q left → Q right →
      Q (build left operator right)) :
    ComesTo (leftGrouped bound operators build operand) Q := by
  refine h.bind fun first hf => ComesTo.chain (fun left hl => ?_) bound hf
  refine (accept? operators).bind fun o ho => ?_
  cases o with
  | none => exact .pure (by simp)
  | some operator =>
      refine h.bind fun right hr => .pure ?_
      simpa using built left operator right (ho operator rfl) hl hr

end ComesTo

end Parser

namespace Expr

variable {nested : Parser Expr}

/-- An expression is regular if it is so itself and what is inside it is. -/
theorem regular_of_parts {e : Expr} (parts : List Expr)
    (here : e.nodes = parts.flatMap Expr.nodes ++ [.expr e]) (regular : (Node.expr e).Regular)
    (inside : ∀ part ∈ parts, part.Regular) : e.Regular := by
  intro n hn
  rw [here, List.mem_append, List.mem_flatMap, List.mem_singleton] at hn
  rcases hn with ⟨part, hp, hn⟩ | rfl
  · exact inside part hp n hn
  · exact regular

theorem regular_leaf {e : Expr} (here : e.nodes = [.expr e]) (regular : (Node.expr e).Regular) :
    e.Regular :=
  regular_of_parts [] here regular (by simp)

theorem regular_unary {operator : Token} {right : Expr}
    (kind : operator.terminal ∈ unaryOperators) (hr : right.Regular) :
    (unary operator right).Regular := by
  refine regular_of_parts [right] (by simp [Expr.nodes]) ?_ (by simpa using hr)
  refine (List.mem_pair.1 kind).imp Token.kind_of_symbol Token.kind_of_symbol

theorem regular_binary (marks : List Symbol) (known : marks ⊆ binaryMarks) {left right : Expr}
    {operator : Token} (kind : operator.terminal ∈ marks.map .symbol) (hl : left.Regular)
    (hr : right.Regular) : (binary left operator right).Regular := by
  refine regular_of_parts [left, right] (by simp [Expr.nodes]) ?_ (by simp [hl, hr])
  obtain ⟨mark, mem, same⟩ := List.mem_map.1 kind
  exact ⟨mark, known mem, Token.kind_of_symbol same.symm⟩

theorem regular_logical {word : Keyword} (known : word = .and ∨ word = .or) {left right : Expr}
    {operator : Token} (kind : operator.terminal ∈ [Terminal.keyword word]) (hl : left.Regular)
    (hr : right.Regular) : (logical left operator right).Regular := by
  refine regular_of_parts [left, right] (by simp [Expr.nodes]) ?_ (by simp [hl, hr])
  have same := Token.kind_of_keyword (List.mem_singleton.1 kind)
  rcases known with rfl | rfl
  · exact .inl same
  · exact .inr same

theorem regular_call {callee : Expr} (paren : Token) {arguments : List Expr} (hc : callee.Regular)
    (ha : ∀ argument ∈ arguments, argument.Regular) : (call callee paren arguments).Regular := by
  refine regular_of_parts (callee :: arguments) ?_ trivial (by simpa using ⟨hc, ha⟩)
  simp [Expr.nodes, nodesAll_eq_flatMap]

theorem regular_get {object : Expr} {name : Token} (identifier : name.terminal = .identifier)
    (ho : object.Regular) : (get object name).Regular :=
  regular_of_parts [object] (by simp [Expr.nodes]) (Token.kind_of_identifier identifier)
    (by simpa using ho)

theorem comesTo_primary (hn : ComesTo nested Regular) : ComesTo (primary nested) Regular := by
  refine ComesTo.peek.bind fun t _ => ?_
  split
  case _ | _ | _ | _ | _ => exact ComesTo.skip.bind fun _ _ => .pure (regular_leaf rfl trivial)
  case _ =>
    refine ComesTo.skip.bind fun _ _ => (ComesTo.expect _ _).bind fun _ _ => ?_
    refine (ComesTo.expect _ _).bind fun method hm => ComesTo.freshSite.bind fun _ _ => ?_
    exact .pure (regular_leaf rfl (Token.kind_of_identifier hm))
  case _ | _ =>
    refine ComesTo.skip.bind fun _ _ => ComesTo.freshSite.bind fun _ _ => ?_
    exact .pure (regular_leaf rfl trivial)
  case _ =>
    refine ComesTo.skip.bind fun _ _ => hn.bind fun inner hi => ?_
    refine (ComesTo.expect _ _).bind fun _ _ => ?_
    refine .pure (regular_of_parts [inner] ?_ trivial (by simpa using hi))
    simp [Expr.nodes]
  case _ => exact .fail _

theorem comesTo_suffix (bound : Nat) (hn : ComesTo nested Regular) {e : Expr} (he : e.Regular) :
    ComesTo (suffix bound nested e) fun o => ∀ e' ∈ o, e'.Regular := by
  refine (ComesTo.accept? _).bind fun o _ => ?_
  cases o with
  | none => exact .pure (by simp)
  | some t =>
      dsimp only
      split
      · have called : ComesTo (finishCall bound nested e) Regular := by
          refine (ComesTo.commaList _ bound hn).bind fun arguments ha => ?_
          exact (ComesTo.expect _ _).bind fun paren _ => .pure (regular_call paren he ha)
        exact called.bind fun e' he' => .pure (by simpa using he')
      · refine (ComesTo.expect _ _).bind fun name identifier => .pure ?_
        simpa using regular_get identifier he

theorem comesTo_called (bound : Nat) (hn : ComesTo nested Regular) :
    ComesTo (called bound nested) Regular :=
  (comesTo_primary hn).bind fun _ he =>
    ComesTo.chain (fun _ ha => comesTo_suffix bound hn ha) bound he

theorem comesTo_negated (bound : Nat) (hn : ComesTo nested Regular) :
    ComesTo (negated bound nested) Regular := by
  refine (ComesTo.acceptAll _).bind fun operators kinds => ?_
  refine (comesTo_called bound hn).bind fun e he => .pure ?_
  induction operators with
  | nil => exact he
  | cons operator operators ih =>
      obtain ⟨kind, kinds⟩ := List.forall_mem_cons.1 kinds
      exact regular_unary kind (ih kinds)

/-- The operators of each rule are of their kind, from the tightest rule to the loosest. -/
theorem comesTo_disjunction (bound : Nat) (hn : ComesTo nested Regular) :
    ComesTo (disjunction bound nested) Regular := by
  have factor : ComesTo (factor bound nested) Regular :=
    (comesTo_negated bound hn).leftGrouped bound fun _ _ _ =>
      regular_binary [.star, .slash] (by decide)
  have term : ComesTo (term bound nested) Regular :=
    factor.leftGrouped bound fun _ _ _ => regular_binary [.minus, .plus] (by decide)
  have comparison : ComesTo (comparison bound nested) Regular :=
    term.leftGrouped bound fun _ _ _ =>
      regular_binary [.greater, .greaterEqual, .less, .lessEqual] (by decide)
  have equality : ComesTo (equality bound nested) Regular :=
    comparison.leftGrouped bound fun _ _ _ =>
      regular_binary [.bangEqual, .equalEqual] (by decide)
  have conjunction : ComesTo (conjunction bound nested) Regular :=
    equality.leftGrouped bound fun _ _ _ => regular_logical (.inl rfl)
  exact conjunction.leftGrouped bound fun _ _ _ => regular_logical (.inr rfl)

/-- The target of an assignment was read as an expression, and is kept if it is no target. -/
theorem comesTo_assignTo {target value : Expr} (equals : Token) (ht : target.Regular)
    (hv : value.Regular) : ComesTo (assignTo target equals value) Regular := by
  unfold assignTo
  split
  · refine ComesTo.freshSite.bind fun site _ => .pure ?_
    exact regular_of_parts [value] (by simp [Expr.nodes]) trivial (by simpa using hv)
  · rename_i object name
    have member : (Node.expr (.get object name)).Regular := ht _ (by simp [Expr.nodes])
    have inside : object.Regular := fun n hn => ht n (by simp [Expr.nodes, hn])
    refine .pure (regular_of_parts [value, object] (by simp [Expr.nodes]) member ?_)
    simp [hv, inside]
  · exact (ComesTo.note _ equals).bind fun _ _ => .pure ht

theorem comesTo_assignment (bound : Nat) (hn : ComesTo nested Regular) :
    ComesTo (assignment bound nested) Regular := by
  refine (comesTo_disjunction bound hn).bind fun target ht => ?_
  refine (ComesTo.accept? _).bind fun o _ => ?_
  cases o with
  | none => exact .pure ht
  | some equals => exact hn.bind fun value hv => comesTo_assignTo equals ht hv

theorem comesTo_expression (bound : Nat) : ComesTo (Expr.parser bound) Regular := by
  induction bound with
  | zero => exact .fail _
  | succ bound ih => exact comesTo_assignment bound ih

end Expr

namespace Stmt

variable {expression : Parser Expr} {statement : Parser Stmt} {declaration : Parser (Option Stmt)}

/-- Statements ask for nothing of their own: what is inside them has to be regular. -/
theorem regular_iff {s : Stmt} (inside : List Node) (here : s.nodes = inside ++ [.stmt s]) :
    s.Regular ↔ ∀ n ∈ inside, n.Regular := by
  rw [Regular, here, List.forall_mem_append]
  exact and_iff_left fun n hn => List.mem_singleton.1 hn ▸ trivial

theorem regular_expression {e : Expr} : (Stmt.expression e).Regular ↔ e.Regular :=
  regular_iff _ (by rw [Stmt.nodes])

theorem regular_print {e : Expr} : (Stmt.print e).Regular ↔ e.Regular :=
  regular_iff _ (by rw [Stmt.nodes])

theorem regular_var {name : Token} {initializer : Option Expr} :
    (Stmt.var name initializer).Regular ↔ ∀ e ∈ initializer, e.Regular := by
  cases initializer with
  | none => exact (regular_iff [] (by rw [Stmt.nodes]; rfl)).trans (by simp)
  | some e => exact (regular_iff _ (by rw [Stmt.nodes])).trans (by simp [Expr.Regular])

theorem regular_return {keyword : Token} {value : Option Expr} :
    (Stmt.return keyword value).Regular ↔ ∀ e ∈ value, e.Regular := by
  cases value with
  | none => exact (regular_iff [] (by rw [Stmt.nodes]; rfl)).trans (by simp)
  | some e => exact (regular_iff _ (by rw [Stmt.nodes])).trans (by simp [Expr.Regular])

theorem regular_block {body : List Stmt} : (block body).Regular ↔ ∀ s ∈ body, s.Regular := by
  refine (regular_iff _ (by rw [Stmt.nodes])).trans ?_
  simp only [nodesAll_eq_flatMap, List.forall_mem_flatMap]
  exact Iff.rfl

theorem regular_branch {condition : Expr} {consequence : Stmt} {alternative : Option Stmt} :
    (branch condition consequence alternative).Regular ↔
      condition.Regular ∧ consequence.Regular ∧ ∀ s ∈ alternative, s.Regular := by
  cases alternative with
  | none =>
      refine (regular_iff _ (by rw [Stmt.nodes])).trans ?_
      simp [or_imp, forall_and, Expr.Regular, Regular]
  | some s =>
      refine (regular_iff _ (by rw [Stmt.nodes])).trans ?_
      simp [or_imp, forall_and, Expr.Regular, Regular]

theorem regular_while {condition : Expr} {body : Stmt} :
    (Stmt.while condition body).Regular ↔ condition.Regular ∧ body.Regular := by
  refine (regular_iff _ (by rw [Stmt.nodes])).trans ?_
  simp [or_imp, forall_and, Expr.Regular, Regular]

theorem regular_function {d : FunctionDecl} : (function d).Regular ↔ d.Regular :=
  regular_iff _ (by rw [Stmt.nodes])

theorem regular_class {name : Token} {superclass : Option Expr} {methods : List FunctionDecl} :
    (Stmt.class name superclass methods).Regular ↔
      (∀ e ∈ superclass, e.Regular) ∧ ∀ d ∈ methods, d.Regular := by
  cases superclass with
  | none =>
      refine (regular_iff _ (by rw [Stmt.nodes])).trans ?_
      simp only [nodesOfMethods_eq_flatMap, List.forall_mem_flatMap]
      simp [FunctionDecl.Regular]
  | some e =>
      refine (regular_iff _ (by rw [Stmt.nodes])).trans ?_
      simp only [nodesOfMethods_eq_flatMap, List.forall_mem_append, List.forall_mem_flatMap]
      simp [FunctionDecl.Regular, Expr.Regular]

theorem comesTo_terminated (he : ComesTo expression Expr.Regular) (fault : GrammarFault) :
    ComesTo (terminated expression fault) Expr.Regular :=
  he.bind fun _ hv => (ComesTo.expect _ _).bind fun _ _ => .pure hv

theorem comesTo_optionalBefore (stop : Terminal) (he : ComesTo expression Expr.Regular) :
    ComesTo (optionalBefore stop expression) fun o => ∀ e ∈ o, e.Regular := by
  refine (ComesTo.nextIs _).bind fun stops _ => ?_
  cases stops with
  | true => exact .pure (by simp)
  | false => exact he.bind fun e hv => .pure (by simpa using hv)

theorem comesTo_varDecl (he : ComesTo expression Expr.Regular) :
    ComesTo (varDecl expression) Regular := by
  refine (ComesTo.expect _ _).bind fun name _ => (ComesTo.accept? _).bind fun o _ => ?_
  cases o with
  | none =>
      exact (ComesTo.expect _ _).bind fun _ _ => .pure (regular_var.2 (by simp))
  | some _ =>
      refine ComesTo.bind (he.map some fun e hv => ?_) fun initializer hi =>
        (ComesTo.expect _ _).bind fun _ _ => .pure (regular_var.2 hi)
      simpa using hv

theorem comesTo_blockBody (bound : Nat)
    (hd : ComesTo declaration fun o => ∀ s ∈ o, s.Regular) :
    ComesTo (blockBody bound declaration) fun body => ∀ s ∈ body, s.Regular :=
  (ComesTo.itemsUntil _ bound hd).bind fun _ hb => (ComesTo.expect _ _).bind fun _ _ => .pure hb

theorem comesTo_functionDecl (bound : Nat) (hd : ComesTo declaration fun o => ∀ s ∈ o, s.Regular)
    (form : FunctionForm) :
    ComesTo (functionDecl bound declaration form) FunctionDecl.Regular := by
  refine (ComesTo.expect _ _).bind fun name _ => (ComesTo.expect _ _).bind fun _ _ => ?_
  refine (ComesTo.commaList _ bound (ComesTo.expect _ _)).bind fun parameters _ => ?_
  refine (ComesTo.expect _ _).bind fun _ _ => (ComesTo.expect _ _).bind fun _ _ => ?_
  refine (comesTo_blockBody bound hd).bind fun body hb => .pure ?_
  rw [FunctionDecl.Regular, FunctionDecl.nodes, nodesAll_eq_flatMap, List.forall_mem_flatMap]
  exact hb

theorem comesTo_classDecl (bound : Nat) (hd : ComesTo declaration fun o => ∀ s ∈ o, s.Regular) :
    ComesTo (classDecl bound declaration) Regular := by
  refine (ComesTo.expect _ _).bind fun name _ => ?_
  have rest (superclass : Option Expr) (hs : ∀ e ∈ superclass, e.Regular) : ComesTo (do
      let _ ← expect (.symbol .leftBrace) .noClassBody
      let methods ← itemsUntil [.symbol .rightBrace, .eof] bound
        (some <$> functionDecl bound declaration .method)
      let _ ← expect (.symbol .rightBrace) .openClassBody
      return Stmt.class name superclass methods) Regular := by
    refine (ComesTo.expect _ _).bind fun _ _ => ?_
    refine (ComesTo.itemsUntil _ bound ?_).bind fun methods hm =>
      (ComesTo.expect _ _).bind fun _ _ => .pure (regular_class.2 ⟨hs, hm⟩)
    exact (comesTo_functionDecl bound hd .method).map some fun d h => by simpa using h
  refine (ComesTo.accept? _).bind fun o _ => ?_
  cases o with
  | none => exact rest none (by simp)
  | some _ =>
      refine (ComesTo.expect _ _).bind fun superName _ => ComesTo.freshSite.bind fun site _ => ?_
      refine ComesTo.bind (.pure ?_) rest
      simpa using Expr.regular_leaf (e := .variable site superName) rfl trivial

/-- The loop that a `for` statement stands for is made of what was read. -/
theorem regular_forLoop {initializer : Option Stmt} {condition increment : Option Expr}
    {body : Stmt} (hi : ∀ s ∈ initializer, s.Regular) (hc : ∀ e ∈ condition, e.Regular)
    (hn : ∀ e ∈ increment, e.Regular) (hb : body.Regular) :
    (forLoop initializer condition increment body).Regular := by
  have head : (condition.getD (.literal (.bool true))).Regular := by
    cases condition with
    | none => exact Expr.regular_leaf rfl trivial
    | some e => exact hc e rfl
  have around {round : Stmt} (hr : round.Regular) :
      (forLoop initializer condition none round).Regular := by
    have loop := regular_while.2 ⟨head, hr⟩
    cases initializer with
    | none => exact loop
    | some first => exact regular_block.2 (by simpa using ⟨hi first rfl, loop⟩)
  cases increment with
  | none => exact around hb
  | some e =>
      exact around (regular_block.2 (by simpa [hb] using regular_expression.2 (hn e rfl)))

theorem comesTo_forStatement (he : ComesTo expression Expr.Regular)
    (hs : ComesTo statement Regular) : ComesTo (forStatement expression statement) Regular := by
  refine (ComesTo.expect _ _).bind fun _ _ => ?_
  have rest (initializer : Option Stmt) (hi : ∀ s ∈ initializer, s.Regular) : ComesTo (do
      let condition ← optionalBefore (.symbol .semicolon) expression
      let _ ← expect (.symbol .semicolon) .openLoopCondition
      let increment ← optionalBefore (.symbol .rightParen) expression
      let _ ← expect (.symbol .rightParen) .openForClauses
      return forLoop initializer condition increment (← statement)) Regular := by
    refine (comesTo_optionalBefore _ he).bind fun condition hc => ?_
    refine (ComesTo.expect _ _).bind fun _ _ => ?_
    refine (comesTo_optionalBefore _ he).bind fun increment hn => ?_
    refine (ComesTo.expect _ _).bind fun _ _ => ?_
    exact hs.bind fun body hb => .pure (regular_forLoop hi hc hn hb)
  refine (ComesTo.accept? _).bind fun o _ => ?_
  cases o with
  | none =>
      have first := (comesTo_terminated he .openExpressionStatement).map Stmt.expression
        fun _ hv => regular_expression.2 hv
      exact ComesTo.bind (first.map some fun s h => by simpa using h) rest
  | some t =>
      dsimp only
      split
      · exact rest none (by simp)
      · exact ComesTo.bind ((comesTo_varDecl he).map some fun s h => by simpa using h) rest

theorem comesTo_ifStatement (he : ComesTo expression Expr.Regular)
    (hs : ComesTo statement Regular) : ComesTo (ifStatement expression statement) Regular := by
  refine (ComesTo.expect _ _).bind fun _ _ => he.bind fun condition hc => ?_
  refine (ComesTo.expect _ _).bind fun _ _ => hs.bind fun consequence hq => ?_
  refine (ComesTo.accept? _).bind fun o _ => ?_
  cases o with
  | none => exact .pure (regular_branch.2 ⟨hc, hq, by simp⟩)
  | some _ => exact hs.bind fun _ ha => .pure (regular_branch.2 ⟨hc, hq, by simpa using ha⟩)

theorem comesTo_whileStatement (he : ComesTo expression Expr.Regular)
    (hs : ComesTo statement Regular) : ComesTo (whileStatement expression statement) Regular := by
  refine (ComesTo.expect _ _).bind fun _ _ => he.bind fun condition hc => ?_
  exact (ComesTo.expect _ _).bind fun _ _ => hs.bind fun _ hb => .pure (regular_while.2 ⟨hc, hb⟩)

theorem comesTo_simple (bound : Nat) (hs : ComesTo statement Regular)
    (hd : ComesTo declaration fun o => ∀ s ∈ o, s.Regular) :
    ComesTo (simple bound statement declaration) Regular := by
  have he := Expr.comesTo_expression bound
  refine ComesTo.peek.bind fun t _ => ?_
  split
  · exact ComesTo.skip.bind fun _ _ => comesTo_forStatement he hs
  · exact ComesTo.skip.bind fun _ _ => comesTo_ifStatement he hs
  · exact ComesTo.skip.bind fun _ _ => comesTo_whileStatement he hs
  · refine ComesTo.skip.bind fun _ _ => (comesTo_optionalBefore _ he).bind fun _ hv => ?_
    exact (ComesTo.expect _ _).bind fun _ _ => .pure (regular_return.2 hv)
  · exact ComesTo.skip.bind fun _ _ =>
      (comesTo_terminated he _).map Stmt.print fun _ => regular_print.2
  · exact ComesTo.skip.bind fun _ _ =>
      (comesTo_blockBody bound hd).map Stmt.block fun _ => regular_block.2
  · exact (comesTo_terminated he _).map Stmt.expression fun _ => regular_expression.2

theorem comesTo_declared (bound : Nat) (hs : ComesTo statement Regular)
    (hd : ComesTo declaration fun o => ∀ s ∈ o, s.Regular) :
    ComesTo (declared bound statement declaration) Regular := by
  refine ComesTo.peek.bind fun t _ => ?_
  split
  · exact ComesTo.skip.bind fun _ _ => comesTo_classDecl bound hd
  · exact ComesTo.skip.bind fun _ _ =>
      (comesTo_functionDecl bound hd .function).map Stmt.function fun _ => regular_function.2
  · exact ComesTo.skip.bind fun _ _ => comesTo_varDecl (Expr.comesTo_expression bound)
  · exact comesTo_simple bound hs hd

/-- A declaration is yielded or dropped, and the attempt does not fail. -/
theorem comesTo_attempt {rule : Parser Stmt} (h : ComesTo rule Regular) :
    ComesTo (attempt rule) fun o => ∀ s ∈ o, s.Regular := by
  intro s
  have all := h s
  obtain ⟨st, t, ran, attempted⟩ | ⟨e, t, -, attempted⟩ := attempt_cases rule s
  · rw [ran] at all
    rw [attempted]
    simpa using all
  · rw [attempted]
    exact nofun

theorem comesTo_statements (bound : Nat) :
    ComesTo (Stmt.parser bound) Regular ∧
      ComesTo (declarationParser bound) fun o => ∀ s ∈ o, s.Regular := by
  induction bound with
  | zero => exact ⟨.fail _, comesTo_attempt (.fail _)⟩
  | succ bound ih =>
      exact ⟨comesTo_simple (bound + 1) ih.1 ih.2,
        comesTo_attempt (comesTo_declared (bound + 1) ih.1 ih.2)⟩

end Stmt

/-- Whatever the tokens are, and whatever errors are found in them, every node of the statements
that are returned is as the grammar promises. -/
theorem parse_grammatical (tokens : List Token) (firstSite : Site) :
    ∀ n ∈ Stmt.nodesAll (parse tokens firstSite).statements, n.Grammatical := by
  obtain ⟨_, built, -⟩ := parse_built tokens firstSite
  suffices regular : ∀ s ∈ (parse tokens firstSite).statements, s.Regular by
    intro n hn
    refine ⟨built.formed n hn, ?_⟩
    rw [Stmt.nodesAll_eq_flatMap, List.mem_flatMap] at hn
    obtain ⟨s, hs, hn⟩ := hn
    exact regular s hs n hn
  let bound := (ParseState.start tokens firstSite).rest.length
  have all := ComesTo.itemsUntil [.eof] bound (Stmt.comesTo_statements bound).2
    (.start tokens firstSite)
  cases hr : itemsUntil [.eof] bound (Stmt.declarationParser bound) (.start tokens firstSite) with
  | ok statements s =>
      rw [hr] at all
      rw [parse_of_ok hr]
      exact all
  | error e s =>
      rw [parse_of_error hr]
      exact nofun

end Lox
