import Mathlib.Data.List.TakeWhile
import Lox.Proofs.Grammar.Reading

/-!
# What the rules of the grammar build

Every rule builds its phrase from the tokens it reads and the sites it hands out, and the phrase is
well formed.  `reads_expression` and `reads_declaration` say so of the two recursive rules, by
induction on their bounds, and `parse_built` of a whole program.
-/

namespace Lox

open Lox.Parser

variable {start : ParseState} {nodes : List Node}

def ReadsExpr (start : ParseState) (x : Parser Expr) : Prop :=
  ∀ nodes, Reads (Built start nodes) x fun e => Built start (nodes ++ e.nodes)

theorem Token.kind_of_identifier {t : Token} (h : t.terminal = .identifier) :
    t.kind = .identifier := by
  rw [Token.terminal] at h
  cases hk : t.kind with
  | identifier => rfl
  | _ => simp [hk, Kind.terminal] at h

namespace Expr

theorem reads_primary {nested : Parser Expr} (hn : ReadsExpr start nested) :
    ReadsExpr start (primary nested) := by
  intro nodes
  have literal (value : Literal) : Reads (Built start nodes)
      (do skip; return Expr.literal value) fun e => Built start (nodes ++ e.nodes) :=
    reads_skip.bind fun _ => .pure _ fun s hs => hs.node (.expr (.literal value)) rfl
      (by simp [Node.tokens]) trivial
  refine reads_peek.bind fun t => .of_fact fun ht => ?_
  have mem {kind : Kind} (hk : t.kind = kind) (ne : kind.terminal ≠ .eof) : t ∈ start.rest :=
    ht (by rwa [Token.terminal, hk])
  split
  · exact literal _
  · exact literal _
  · exact literal _
  · exact literal _
  · exact literal _
  · rename_i hk
    have ht := mem hk (by decide)
    refine reads_skip.bind fun _ => (reads_expect _ _).bind fun _ => .of_fact fun _ => ?_
    refine (reads_expect _ _).bind fun method => .of_fact fun hm => ?_
    refine (reads_freshSite (fun site => .expr (.super site t method)) (fun _ => rfl) (fun _ => ?_)
      (fun _ => hk)).bind fun site => .pure _ fun s hs => hs
    simp [Node.tokens, ht, hm.1]
  · rename_i hk
    have ht := mem hk (by decide)
    refine reads_skip.bind fun _ => ?_
    refine (reads_freshSite (fun site => .expr (.this site t)) (fun _ => rfl) (fun _ => ?_)
      (fun _ => hk)).bind fun site => .pure _ fun s hs => hs
    simp [Node.tokens, ht]
  · rename_i hk
    have ht := mem hk (by decide)
    refine reads_skip.bind fun _ => ?_
    refine (reads_freshSite (fun site => .expr (.variable site t)) (fun _ => rfl) (fun _ => ?_)
      (fun _ => hk)).bind fun site => .pure _ fun s hs => hs
    simp [Node.tokens, ht]
  · refine reads_skip.bind fun _ => (hn nodes).bind fun inner => ?_
    refine (reads_expect _ _).bind fun _ => .of_fact fun _ => .pure _ fun s hs => ?_
    rw [Expr.nodes, ← List.append_assoc]
    exact hs.node _ rfl (by simp [Node.tokens]) trivial
  · exact reads_fail _

theorem reads_finishCall (bound : Nat) {nested : Parser Expr} (hn : ReadsExpr start nested)
    (callee : Expr) :
    Reads (Built start (nodes ++ callee.nodes)) (finishCall bound nested callee)
      fun e => Built start (nodes ++ e.nodes) := by
  refine (reads_commaList .tooManyArguments bound (fun _ => True) Expr.nodes fun nodes =>
    (hn nodes).imp fun _ _ hs => ⟨trivial, hs⟩).bind fun as => .of_fact fun _ => ?_
  refine (reads_expect _ _).bind fun paren => .of_fact fun hp => .pure _ fun s hs => ?_
  rw [Expr.nodes, Expr.nodesAll_eq_flatMap, ← List.append_assoc, ← List.append_assoc]
  exact hs.node _ rfl (by simpa [Node.tokens] using hp.1) trivial

theorem reads_suffix (bound : Nat) {nested : Parser Expr} (hn : ReadsExpr start nested)
    (e : Expr) :
    Reads (Built start (nodes ++ e.nodes)) (suffix bound nested e)
      fun o => Built start (nodes ++ (o.getD e).nodes) := by
  refine (reads_accept? _).bind fun o => .of_fact fun _ => ?_
  cases o with
  | none => exact .pure none fun s hs => hs
  | some t =>
      dsimp only
      split
      · exact (reads_finishCall bound hn e).bind fun e' => .pure (some e') fun s hs => hs
      · refine (reads_expect _ _).bind fun name => .of_fact fun hm => .pure _ fun s hs => ?_
        rw [Option.getD_some, Expr.nodes, ← List.append_assoc]
        exact hs.node _ rfl (by simpa [Node.tokens] using hm.1) trivial

theorem reads_called (bound : Nat) {nested : Parser Expr} (hn : ReadsExpr start nested) :
    ReadsExpr start (called bound nested) := fun nodes =>
  (reads_primary hn nodes).bind fun e => Reads.chain (fun e => reads_suffix bound hn e) bound e

theorem reads_negated (bound : Nat) {nested : Parser Expr} (hn : ReadsExpr start nested) :
    ReadsExpr start (negated bound nested) := by
  refine fun nodes => (reads_acceptAll _).bind fun operators => .of_fact fun mem => ?_
  refine (reads_called bound hn nodes).bind fun e => .pure _ fun s hs => ?_
  induction operators with
  | nil => exact hs
  | cons operator operators ih =>
      rw [List.forall_mem_cons] at mem
      rw [List.foldr_cons, Expr.nodes, ← List.append_assoc]
      exact (ih mem.2).node _ rfl (by simpa [Node.tokens] using mem.1) trivial

/-- Two operands and the operator between them. -/
theorem reads_leftGrouped (bound : Nat) (operators : List Terminal)
    (build : Expr → Token → Expr → Expr)
    (built : ∀ a o b, (build a o b).nodes = a.nodes ++ b.nodes ++ [.expr (build a o b)])
    (refers : ∀ a o b, (Node.expr (build a o b)).reference? = none)
    (tokens : ∀ a o b, (Node.expr (build a o b)).tokens = [o])
    (formed : ∀ a o b, (Node.expr (build a o b)).WellFormed)
    {operand : Parser Expr} (ho : ReadsExpr start operand) :
    ReadsExpr start (leftGrouped bound operators build operand) := by
  refine fun nodes => (ho nodes).bind fun first =>
    Reads.chain (I := fun e => Built start (nodes ++ e.nodes)) (fun left => ?_) bound first
  refine (reads_accept? _).bind fun o => .of_fact fun ht => ?_
  cases o with
  | none => exact .pure none fun s hs => hs
  | some operator =>
      refine (ho _).bind fun right => .pure _ fun s hs => ?_
      have mem := (ht operator rfl).1
      rw [Option.getD_some, built, ← List.append_assoc, ← List.append_assoc]
      exact hs.node _ (refers _ _ _) (by simpa [tokens] using mem) (formed _ _ _)

theorem reads_binary (bound : Nat) (operators : List Terminal) {operand : Parser Expr}
    (ho : ReadsExpr start operand) :
    ReadsExpr start (leftGrouped bound operators binary operand) :=
  reads_leftGrouped bound operators binary (fun _ _ _ => rfl) (fun _ _ _ => rfl)
    (fun _ _ _ => rfl) (fun _ _ _ => trivial) ho

theorem reads_logical (bound : Nat) (operators : List Terminal) {operand : Parser Expr}
    (ho : ReadsExpr start operand) :
    ReadsExpr start (leftGrouped bound operators logical operand) :=
  reads_leftGrouped bound operators logical (fun _ _ _ => rfl) (fun _ _ _ => rfl)
    (fun _ _ _ => rfl) (fun _ _ _ => trivial) ho

theorem reads_disjunction (bound : Nat) {nested : Parser Expr} (hn : ReadsExpr start nested) :
    ReadsExpr start (disjunction bound nested) :=
  reads_logical bound _ <| reads_logical bound _ <| reads_binary bound _ <|
    reads_binary bound _ <| reads_binary bound _ <| reads_binary bound _ <| reads_negated bound hn

/-- The target of an assignment is no longer a node of its own. -/
theorem reads_assignTo (target value : Expr) (equals : Token) :
    Reads (Built start (nodes ++ target.nodes ++ value.nodes)) (assignTo target equals value)
      fun e => Built start (nodes ++ e.nodes) := by
  have other : Reads (Built start (nodes ++ target.nodes ++ value.nodes))
      (do note .invalidTarget equals; return target) fun e => Built start (nodes ++ e.nodes) :=
    (reads_note _ _).bind fun _ => .pure _ fun s hs =>
      hs.sublist (List.sublist_append_left _ _)
  cases target with
  | «variable» site name =>
      refine fun s hs => ?_
      have dropped : Built start (nodes ++ value.nodes) s := hs.sublist (by simp [Expr.nodes])
      have here : .expr (.variable site name) ∈ nodes ++ (Expr.variable site name).nodes ++
          value.nodes := by simp [Expr.nodes]
      have mem : name ∈ start.rest := hs.tokens _ here name (by simp [Node.tokens])
      have identifier : name.kind = .identifier := hs.formed _ here
      have assigned : Reads (Built start (nodes ++ value.nodes))
          (do return Expr.assign (← freshSite) name value)
          fun e => Built start (nodes ++ e.nodes) := by
        refine (reads_freshSite (fun site => .expr (.assign site name value)) (fun _ => rfl)
          (fun _ => ?_) (fun _ => identifier)).bind fun site => .pure _ fun s hs => ?_
        · simpa [Node.tokens] using mem
        · rwa [List.append_assoc] at hs
      exact assigned s dropped
  | get object name =>
      refine .pure _ fun s hs => ?_
      have here : .expr (.get object name) ∈ nodes ++ (get object name).nodes ++
          value.nodes := by simp [Expr.nodes]
      have mem : name ∈ start.rest := hs.tokens _ here name (by simp [Node.tokens])
      have dropped : Built start (nodes ++ object.nodes ++ value.nodes) s :=
        hs.sublist (by simp [Expr.nodes])
      have swapped : Built start (nodes ++ (value.nodes ++ object.nodes)) s := by
        refine dropped.perm ?_
        rw [List.append_assoc]
        exact List.perm_append_comm.append_left nodes
      rw [Expr.nodes, ← List.append_assoc]
      exact swapped.node _ rfl (by simpa [Node.tokens] using mem) trivial
  | _ => exact other

theorem reads_assignment (bound : Nat) {nested : Parser Expr} (hn : ReadsExpr start nested) :
    ReadsExpr start (assignment bound nested) := by
  refine fun nodes => (reads_disjunction bound hn nodes).bind fun target => ?_
  refine (reads_accept? _).bind fun o => .of_fact fun _ => ?_
  cases o with
  | none => exact .pure _ fun s hs => hs
  | some equals => exact (hn _).bind fun value => reads_assignTo target value equals

theorem reads_expression (bound : Nat) : ReadsExpr start (Expr.parser bound) := by
  induction bound with
  | zero => exact fun _ => reads_fail _
  | succ bound ih => exact reads_assignment bound ih

end Expr

def ReadsStmt (start : ParseState) (x : Parser Stmt) : Prop :=
  ∀ nodes, Reads (Built start nodes) x fun st s =>
    st.isPlain ∧ Built start (nodes ++ st.nodes) s

def ReadsDecl (start : ParseState) (x : Parser (Option Stmt)) : Prop :=
  ∀ nodes, Reads (Built start nodes) x fun o =>
    Built start (nodes ++ o.toList.flatMap Stmt.nodes)

namespace Stmt

theorem reads_terminated {expression : Parser Expr} (he : ReadsExpr start expression)
    (fault : GrammarFault) : ReadsExpr start (terminated expression fault) := fun nodes =>
  (he nodes).bind fun _ => (reads_expect _ _).bind fun _ => .of_fact fun _ =>
    .pure _ fun _ hs => hs

theorem reads_optionalBefore (stop : Terminal) {expression : Parser Expr}
    (he : ReadsExpr start expression) :
    Reads (Built start nodes) (optionalBefore stop expression) fun o =>
      Built start (nodes ++ o.toList.flatMap Expr.nodes) := by
  refine (reads_nextIs _).bind fun stops => ?_
  cases stops with
  | true => exact .pure _ fun s hs => by simpa using hs
  | false => exact (he nodes).bind fun e => .pure _ fun s hs => by simpa using hs

def Declares (start : ParseState) (name : Token) : Prop :=
  name ∈ start.rest ∧ name.kind = .identifier

theorem reads_name (fault : GrammarFault) :
    Reads (Built start nodes) (expect .identifier fault) fun name s =>
      Declares start name ∧ Built start nodes s :=
  (reads_expect _ _).imp fun _ _ hs => ⟨⟨hs.1.1, Token.kind_of_identifier hs.1.2⟩, hs.2⟩

theorem built_var {s : ParseState} {name : Token} (hn : Declares start name)
    {initializer : Option Expr}
    (h : Built start (nodes ++ initializer.toList.flatMap Expr.nodes) s) :
    Built start (nodes ++ (Stmt.var name initializer).nodes) s := by
  have mem : ∀ t ∈ [name], t ∈ start.rest := by simpa using hn.1
  have declared := h.node (.stmt (.var name initializer)) rfl mem hn.2
  cases initializer with
  | none => simpa [Stmt.nodes] using declared
  | some e => simpa [Stmt.nodes] using declared

theorem reads_varDecl {expression : Parser Expr} (he : ReadsExpr start expression) :
    Reads (Built start nodes) (varDecl expression) fun st => Built start (nodes ++ st.nodes) := by
  refine (reads_name _).bind fun name => .of_fact fun hn => ?_
  have rest (initializer : Option Expr) :
      Reads (Built start (nodes ++ initializer.toList.flatMap Expr.nodes))
        (do let _ ← expect (.symbol .semicolon) .openVariable; return .var name initializer)
        fun (st : Stmt) => Built start (nodes ++ st.nodes) :=
    (reads_expect _ _).bind fun _ => .of_fact fun _ => .pure _ fun s hs => built_var hn hs
  refine (reads_accept? _).bind fun o => .of_fact fun _ => ?_
  cases o with
  | none => exact Reads.bind (.pure none fun s hs => by simpa using hs) rest
  | some _ =>
      exact Reads.bind ((he nodes).map some fun e s hs => by simpa using hs) rest

theorem reads_blockBody (bound : Nat) {declaration : Parser (Option Stmt)}
    (hd : ReadsDecl start declaration) :
    Reads (Built start nodes) (blockBody bound declaration) fun ss =>
      Built start (nodes ++ Stmt.nodesAll ss) := by
  refine (reads_itemsUntil _ _ (fun _ => True) Stmt.nodes fun nodes =>
    (hd nodes).imp fun _ _ hs => ⟨fun _ _ => trivial, hs⟩).bind fun ss => .of_fact fun _ => ?_
  refine (reads_expect _ _).bind fun _ => .of_fact fun _ => .pure _ fun s hs => ?_
  rwa [Stmt.nodesAll_eq_flatMap]

theorem reads_functionDecl (bound : Nat) {declaration : Parser (Option Stmt)}
    (hd : ReadsDecl start declaration) (form : FunctionForm) :
    Reads (Built start nodes) (functionDecl bound declaration form) fun d s =>
      (∀ name ∈ d.names, Declares start name) ∧ Built start (nodes ++ d.nodes) s := by
  refine (reads_name _).bind fun name => .of_fact fun hn => ?_
  refine (reads_expect _ _).bind fun _ => .of_fact fun _ => ?_
  refine (reads_commaList _ _ (Declares start) (fun _ => []) fun nodes =>
    (reads_name _).imp fun _ _ hs => ⟨hs.1, by simpa using hs.2⟩).bind fun ps =>
      .of_fact fun hp => ?_
  refine (reads_expect _ _).bind fun _ => .of_fact fun _ => ?_
  refine (reads_expect _ _).bind fun _ => .of_fact fun _ => ?_
  refine (reads_blockBody bound hd).bind fun body => .pure _ fun s hs => ⟨?_, ?_⟩
  · exact List.forall_mem_cons.2 ⟨hn, hp⟩
  · have none : ps.flatMap (fun _ => ([] : List Node)) = [] := by simp
    rwa [none, List.append_nil] at hs

theorem built_class {s : ParseState} {name : Token} (hn : Declares start name)
    {superclass : Option Expr} {methods : List FunctionDecl}
    (clause : ∀ e ∈ superclass, e.isName)
    (hm : ∀ d ∈ methods, ∀ name ∈ d.names, Declares start name)
    (h : Built start (nodes ++ superclass.toList.flatMap Expr.nodes ++
      methods.flatMap FunctionDecl.nodes) s) :
    Built start (nodes ++ (Stmt.class name superclass methods).nodes) s := by
  have declared := h.node (.stmt (.class name superclass methods)) rfl
    (List.forall_mem_cons.2 ⟨hn.1, ?_⟩) ⟨hn.2, clause, fun d hd t ht => (hm d hd t ht).2⟩
  · cases superclass with
    | none => simpa [Stmt.nodes, Stmt.nodesOfMethods_eq_flatMap] using declared
    | some e => simpa [Stmt.nodes, Stmt.nodesOfMethods_eq_flatMap] using declared
  · intro t ht
    obtain ⟨d, hd, ht⟩ := List.mem_flatMap.1 ht
    exact (hm d hd t ht).1

theorem reads_classDecl (bound : Nat) {declaration : Parser (Option Stmt)}
    (hd : ReadsDecl start declaration) :
    Reads (Built start nodes) (classDecl bound declaration) fun st =>
      Built start (nodes ++ st.nodes) := by
  refine (reads_name _).bind fun name => .of_fact fun hn => ?_
  have rest (superclass : Option Expr) (clause : ∀ e ∈ superclass, e.isName) :
      Reads (Built start (nodes ++ superclass.toList.flatMap Expr.nodes)) (do
        let _ ← expect (.symbol .leftBrace) .noClassBody
        let methods ← itemsUntil [.symbol .rightBrace, .eof] bound
          (some <$> functionDecl bound declaration .method)
        let _ ← expect (.symbol .rightBrace) .openClassBody
        return .class name superclass methods)
        fun (st : Stmt) => Built start (nodes ++ st.nodes) := by
    refine (reads_expect _ _).bind fun _ => .of_fact fun _ => ?_
    refine (reads_itemsUntil _ _ (fun d => ∀ name ∈ d.names, Declares start name)
      FunctionDecl.nodes fun nodes => ?_).bind fun methods => .of_fact fun hm => ?_
    · refine (reads_functionDecl bound hd .method).map some fun d s hs => ⟨?_, by simpa using hs.2⟩
      intro d' hd'
      exact Option.some.inj hd' ▸ hs.1
    · exact (reads_expect _ _).bind fun _ => .of_fact fun _ => .pure _ fun s hs =>
        built_class hn clause hm hs
  refine (reads_accept? _).bind fun o => .of_fact fun _ => ?_
  cases o with
  | none =>
      exact Reads.bind (.pure none fun s hs => ⟨by simp, by simpa using hs⟩) fun superclass =>
        .of_fact (rest superclass)
  | some _ =>
      refine (reads_name _).bind fun superName => .of_fact fun hs => ?_
      refine (reads_freshSite (fun site => .expr (.variable site superName)) (fun _ => rfl)
        (fun _ => ?_) (fun _ => hs.2)).bind fun site => ?_
      · simpa [Node.tokens] using hs.1
      · exact Reads.bind (.pure (some (Expr.variable site superName)) fun s hs =>
          ⟨by simp [Expr.isName], by simpa [Expr.nodes] using hs⟩) fun superclass =>
          .of_fact (rest superclass)

/-- A loop without an increment. -/
theorem built_loop {s : ParseState} {initializer : Option Stmt} {condition : Expr} {round : Stmt}
    (plain : round.isPlain)
    (h : Built start (nodes ++ initializer.toList.flatMap Stmt.nodes ++ condition.nodes ++
      round.nodes) s) :
    (forLoop initializer (some condition) none round).isPlain ∧
      Built start (nodes ++ (forLoop initializer (some condition) none round).nodes) s := by
  have loop := h.node (.stmt (.while condition round)) rfl (by simp [Node.tokens]) plain
  cases initializer with
  | none => exact ⟨rfl, by simpa [forLoop, Stmt.nodes] using loop⟩
  | some first =>
      have around := loop.node (.stmt (.block [first, .while condition round])) rfl
        (by simp [Node.tokens]) trivial
      exact ⟨rfl, by simpa [forLoop, Stmt.nodes, Stmt.nodesAll] using around⟩

theorem built_forLoop {s : ParseState} {initializer : Option Stmt}
    {condition increment : Option Expr} {body : Stmt} (plain : body.isPlain)
    (h : Built start (nodes ++ initializer.toList.flatMap Stmt.nodes ++
      condition.toList.flatMap Expr.nodes ++ increment.toList.flatMap Expr.nodes ++ body.nodes) s) :
    (forLoop initializer condition increment body).isPlain ∧
      Built start (nodes ++ (forLoop initializer condition increment body).nodes) s := by
  have held : Built start (nodes ++ initializer.toList.flatMap Stmt.nodes ++
      (condition.getD (.literal (.bool true))).nodes ++
      (increment.toList.flatMap Expr.nodes ++ body.nodes)) s := by
    rw [List.append_assoc] at h
    cases condition with
    | some e => simpa using h
    | none =>
        -- a missing condition is read from no tokens
        have always := h.node (.expr (.literal (.bool true))) rfl (by simp [Node.tokens]) trivial
        refine always.perm ?_
        rw [Option.toList_none, List.flatMap_nil, List.append_nil, List.append_assoc,
          List.append_assoc _ _ [_]]
        exact List.perm_append_comm.append_left _
  cases increment with
  | none => exact built_loop plain held
  | some e =>
      have swapped : Built start (nodes ++ initializer.toList.flatMap Stmt.nodes ++
          (condition.getD (.literal (.bool true))).nodes ++ (body.nodes ++ e.nodes)) s := by
        refine held.perm (List.Perm.append_left _ ?_)
        simpa using List.perm_append_comm
      have statement := swapped.node (.stmt (.expression e)) rfl (by simp [Node.tokens]) trivial
      have round := statement.node (.stmt (.block [body, .expression e])) rfl
        (by simp [Node.tokens]) trivial
      change (forLoop initializer (some (condition.getD (.literal (.bool true)))) none
        (.block [body, .expression e])).isPlain ∧ _
      refine built_loop rfl ?_
      simpa [Stmt.nodes, Stmt.nodesAll] using round

theorem reads_forStatement {expression : Parser Expr} {statement : Parser Stmt}
    (he : ReadsExpr start expression) (hs : ReadsStmt start statement) :
    ReadsStmt start (forStatement expression statement) := by
  refine fun nodes => (reads_expect _ _).bind fun _ => .of_fact fun _ => ?_
  have rest (initializer : Option Stmt) :
      Reads (Built start (nodes ++ initializer.toList.flatMap Stmt.nodes)) (do
        let condition ← optionalBefore (.symbol .semicolon) expression
        let _ ← expect (.symbol .semicolon) .openLoopCondition
        let increment ← optionalBefore (.symbol .rightParen) expression
        let _ ← expect (.symbol .rightParen) .openForClauses
        return forLoop initializer condition increment (← statement))
        fun (st : Stmt) s => st.isPlain ∧ Built start (nodes ++ st.nodes) s := by
    refine (reads_optionalBefore _ he).bind fun condition => ?_
    refine (reads_expect _ _).bind fun _ => .of_fact fun _ => ?_
    refine (reads_optionalBefore _ he).bind fun increment => ?_
    refine (reads_expect _ _).bind fun _ => .of_fact fun _ => ?_
    exact (hs _).bind fun body => .of_fact fun plain => .pure _ fun s h => built_forLoop plain h
  refine (reads_accept? _).bind fun o => .of_fact fun _ => ?_
  cases o with
  | none =>
      have first : Reads (Built start nodes)
          (Stmt.expression <$> terminated expression .openExpressionStatement)
          fun st => Built start (nodes ++ st.nodes) := by
        refine (reads_terminated he _ nodes).map Stmt.expression fun e s h => ?_
        have statement := h.node (.stmt (.expression e)) rfl (by simp [Node.tokens]) trivial
        simpa [Stmt.nodes] using statement
      exact Reads.bind (first.map some fun st s h => by simpa using h) rest
  | some t =>
      dsimp only
      split
      · exact Reads.bind (.pure none fun s h => by simpa using h) rest
      · exact Reads.bind ((reads_varDecl he).map some fun st s h => by simpa using h) rest

theorem reads_ifStatement {expression : Parser Expr} {statement : Parser Stmt}
    (he : ReadsExpr start expression) (hs : ReadsStmt start statement) :
    ReadsStmt start (ifStatement expression statement) := by
  refine fun nodes => (reads_expect _ _).bind fun _ => .of_fact fun _ => ?_
  refine (he nodes).bind fun condition => (reads_expect _ _).bind fun _ => .of_fact fun _ => ?_
  refine (hs _).bind fun consequence => .of_fact fun plain => ?_
  refine (reads_accept? _).bind fun o => .of_fact fun _ => ?_
  cases o with
  | none =>
      refine .pure _ fun s h => ⟨rfl, ?_⟩
      have branch := h.node (.stmt (.branch condition consequence none)) rfl
        (by simp [Node.tokens]) plain
      simpa [Stmt.nodes] using branch
  | some _ =>
      refine (hs _).bind fun alternative => .of_fact fun plain' => .pure _ fun s h => ⟨rfl, ?_⟩
      have branch := h.node (.stmt (.branch condition consequence (some alternative))) rfl
        (by simp [Node.tokens]) ⟨plain, plain'⟩
      simpa [Stmt.nodes] using branch

theorem reads_whileStatement {expression : Parser Expr} {statement : Parser Stmt}
    (he : ReadsExpr start expression) (hs : ReadsStmt start statement) :
    ReadsStmt start (whileStatement expression statement) := by
  refine fun nodes => (reads_expect _ _).bind fun _ => .of_fact fun _ => ?_
  refine (he nodes).bind fun condition => (reads_expect _ _).bind fun _ => .of_fact fun _ => ?_
  refine (hs _).bind fun body => .of_fact fun plain => .pure _ fun s h => ⟨rfl, ?_⟩
  have loop := h.node (.stmt (.while condition body)) rfl (by simp [Node.tokens]) plain
  simpa [Stmt.nodes] using loop

theorem reads_returnStatement {expression : Parser Expr} (he : ReadsExpr start expression)
    {keyword : Token} (mem : keyword ∈ start.rest) :
    Reads (Built start nodes) (returnStatement expression keyword) fun st s =>
      st.isPlain ∧ Built start (nodes ++ st.nodes) s := by
  refine (reads_optionalBefore _ he).bind fun value => ?_
  refine (reads_expect _ _).bind fun _ => .of_fact fun _ => .pure _ fun s h => ⟨rfl, ?_⟩
  have statement := h.node (.stmt (.return keyword value)) rfl (by simpa [Node.tokens] using mem)
    trivial
  cases value with
  | none => simpa [Stmt.nodes] using statement
  | some e => simpa [Stmt.nodes] using statement

theorem reads_simple (bound : Nat) {statement : Parser Stmt}
    {declaration : Parser (Option Stmt)} (hs : ReadsStmt start statement)
    (hd : ReadsDecl start declaration) : ReadsStmt start (simple bound statement declaration) := by
  have he : ReadsExpr start (Expr.parser bound) := Expr.reads_expression bound
  have single (f : Expr → Stmt) (built : ∀ e, (f e).nodes = e.nodes ++ [.stmt (f e)])
      (tokens : ∀ e, (Node.stmt (f e)).tokens = []) (formed : ∀ e, (Node.stmt (f e)).WellFormed)
      (plain : ∀ e, (f e).isPlain) (fault : GrammarFault) :
      ReadsStmt start (f <$> terminated (Expr.parser bound) fault) := by
    refine fun nodes => (reads_terminated he fault nodes).map f fun e s h => ⟨plain e, ?_⟩
    rw [built, ← List.append_assoc]
    exact h.node _ rfl (by simp [tokens]) (formed e)
  refine fun nodes => reads_peek.bind fun t => .of_fact fun ht => ?_
  have mem {terminal : Terminal} (h : t.terminal = terminal) (ne : terminal ≠ .eof) :
      t ∈ start.rest := ht (by rwa [h])
  split
  · exact reads_skip.bind fun _ => reads_forStatement he hs nodes
  · exact reads_skip.bind fun _ => reads_ifStatement he hs nodes
  · exact reads_skip.bind fun _ => reads_whileStatement he hs nodes
  · rename_i hk
    exact reads_skip.bind fun _ => reads_returnStatement he (mem hk (by decide))
  · exact reads_skip.bind fun _ => single .print (fun _ => rfl) (fun _ => rfl) (fun _ => trivial)
      (fun _ => rfl) .openPrint nodes
  · refine reads_skip.bind fun _ => (reads_blockBody bound hd).map block fun ss s h => ⟨rfl, ?_⟩
    rw [Stmt.nodes, ← List.append_assoc]
    exact h.node _ rfl (by simp [Node.tokens]) trivial
  · exact single .expression (fun _ => rfl) (fun _ => rfl) (fun _ => trivial) (fun _ => rfl)
      .openExpressionStatement nodes

theorem reads_declared (bound : Nat) {statement : Parser Stmt}
    {declaration : Parser (Option Stmt)} (hs : ReadsStmt start statement)
    (hd : ReadsDecl start declaration) :
    Reads (Built start nodes) (declared bound statement declaration) fun st =>
      Built start (nodes ++ st.nodes) := by
  refine reads_peek.bind fun t => .of_fact fun _ => ?_
  split
  · exact reads_skip.bind fun _ => reads_classDecl bound hd
  · refine reads_skip.bind fun _ => (reads_functionDecl bound hd .function).map function
      fun d s h => ?_
    rw [Stmt.nodes, ← List.append_assoc]
    exact h.2.node _ rfl (fun t ht => (h.1 t ht).1) fun t ht => (h.1 t ht).2
  · exact reads_skip.bind fun _ => reads_varDecl (Expr.reads_expression bound)
  · exact (reads_simple bound hs hd nodes).imp fun _ _ h => h.2

theorem recover_suffix (tokens : List Token) : recover tokens <:+ tokens := by
  induction tokens with
  | nil => exact List.suffix_refl _
  | cons t rest ih =>
      rw [recover]
      split
      · exact List.suffix_cons _ _
      · exact ih.trans (List.suffix_cons _ _)

theorem reads_attempt {rule : Parser Stmt}
    (h : Reads (Built start nodes) rule fun st => Built start (nodes ++ st.nodes)) :
    Reads (Built start nodes) (attempt rule) fun o =>
      Built start (nodes ++ o.toList.flatMap Stmt.nodes) := by
  intro s hs
  have all := h s hs
  obtain ⟨st, t, ran, attempted⟩ | ⟨e, t, ran, attempted⟩ := attempt_cases rule s
  · rw [ran] at all
    rw [attempted]
    exact ⟨all.1, by simpa using all.2⟩
  · rw [ran] at all
    have passed : Passed s { t with rest := recover t.rest, errors := t.errors.push e } :=
      all.trans ((Passed.read (recover_suffix t.rest)).trans (.note _ e))
    rw [attempted]
    exact ⟨passed, by simpa using hs.pass passed⟩

theorem reads_statements (bound : Nat) :
    ReadsStmt start (Stmt.parser bound) ∧ ReadsDecl start (Stmt.declarationParser bound) := by
  induction bound with
  | zero => exact ⟨fun _ => reads_fail _, fun _ => reads_attempt (reads_fail _)⟩
  | succ bound ih =>
      exact ⟨reads_simple (bound + 1) ih.1 ih.2,
        fun _ => reads_attempt (reads_declared (bound + 1) ih.1 ih.2)⟩

end Stmt

theorem eofOf_terminal (tokens : List Token) : (eofOf tokens).terminal = .eof := by
  rw [eofOf]
  cases h : tokens.find? (·.terminal = .eof) with
  | none => rfl
  | some t => simpa using List.find?_some h

theorem ParseState.rest_start {tokens : List Token} (proper : ∀ t ∈ tokens, t.terminal ≠ .eof)
    (firstSite : Site) : (ParseState.start tokens firstSite).rest = tokens :=
  List.takeWhile_eq_self_iff.2 fun t ht => by simpa using proper t ht

/-- The statements of a program are built from its tokens. -/
theorem parse_built (tokens : List Token) (firstSite : Site) :
    ∃ s, Built (.start tokens firstSite) (Stmt.nodesAll (parse tokens firstSite).statements) s ∧
      s.nextSite = (parse tokens firstSite).nextSite := by
  have built : Built (.start tokens firstSite) [] (.start tokens firstSite) :=
    .nil (eofOf_terminal tokens)
  let bound := (ParseState.start tokens firstSite).rest.length
  have all := reads_itemsUntil [.eof] bound (fun _ => True) Stmt.nodes
    (fun nodes => ((Stmt.reads_statements bound).2 nodes).imp
      fun _ _ hs => ⟨fun _ _ => trivial, hs⟩) (.start tokens firstSite) built
  cases hr : itemsUntil [.eof] bound (Stmt.declarationParser bound) (.start tokens firstSite) with
  | ok statements s =>
      rw [hr] at all
      rw [parse_of_ok hr]
      refine ⟨s, ?_, rfl⟩
      rw [Stmt.nodesAll_eq_flatMap]
      exact all.2.2
  | error e s =>
      rw [hr] at all
      rw [parse_of_error hr]
      exact ⟨s, built.pass all, rfl⟩

end Lox
