import Lox.Proofs.Program.Relabel
import Lox.Proofs.Scope.Visit

/-!
# Analysis of relabeled programs

The static analysis finds the same in a relabeled program, at the relabeled sites and tokens, as
long as tokens keep their meaning.  In particular it finds the same distances.
-/

namespace Lox

def Binding.relabel (r : Relabeling) (b : Binding) : Binding := { b with site := r.site b.site }

def ScopeError.relabel (r : Relabeling) (e : ScopeError) : ScopeError :=
  { e with culprit := r.token e.culprit }

def Finding.relabel (r : Relabeling) : Finding → Finding
  | .binding b => .binding (b.relabel r)
  | .error e => .error (e.relabel r)

theorem bindingsOf_map_relabel (r : Relabeling) (fs : List Finding) :
    bindingsOf (fs.map (Finding.relabel r)) = (bindingsOf fs).map (Binding.relabel r) := by
  induction fs with
  | nil => rfl
  | cons f fs ih =>
      cases f with
      | binding b => exact congrArg (Binding.relabel r b :: ·) ih
      | error e => exact ih

theorem scopeErrorsOf_map_relabel (r : Relabeling) (fs : List Finding) :
    scopeErrorsOf (fs.map (Finding.relabel r)) = (scopeErrorsOf fs).map (ScopeError.relabel r) := by
  induction fs with
  | nil => rfl
  | cons f fs ih =>
      cases f with
      | binding b => exact ih
      | error e => exact congrArg (ScopeError.relabel r e :: ·) ih

namespace Relabeling

variable {r : Relabeling}

theorem findingIf_token (faulty : Bool) (fault : ScopeFault) (culprit : Token) :
    findingIf faulty fault (r.token culprit) =
      (findingIf faulty fault culprit).map (Finding.relabel r) := by
  cases faulty <;> rfl

theorem bind_token (h : r.Faithful) (scopes : Scopes) (site : Site) (name : Token) :
    bind scopes (r.site site) (r.token name) =
      (bind scopes site name).map (Finding.relabel r) := by
  rw [bind, h.lexeme]
  rfl

theorem introduce_token (h : r.Faithful) (scopes : Scopes) (name : Token) :
    scopes.introduce (r.token name) = scopes.introduce name := by
  rw [Scopes.introduce, Scopes.introduce, h.lexeme]

theorem declarationFindings_token (h : r.Faithful) (scopes : Scopes) (name : Token) :
    declarationFindings scopes (r.token name) =
      (declarationFindings scopes name).map (Finding.relabel r) := by
  rw [declarationFindings, declarationFindings, h.lexeme, findingIf_token]

theorem introduceAll_map_token (h : r.Faithful) (scopes : Scopes) (names : List Token) :
    scopes.introduceAll (names.map r.token) =
      ((scopes.introduceAll names).1, (scopes.introduceAll names).2.map (Finding.relabel r)) := by
  induction names generalizing scopes with
  | nil => rfl
  | cons name names ih =>
      rw [List.map_cons, Scopes.introduceAll, introduce_token h, ih, declarationFindings_token h]
      simp [Scopes.introduceAll]

end Relabeling

open Relabeling

variable {r : Relabeling}

theorem superclassFindings_relabel (h : r.Faithful) (name : Token) (clause : Expr) :
    superclassFindings (r.token name) (clause.relabel r) =
      (superclassFindings name clause).map (Finding.relabel r) := by
  cases clause with
  | «variable» site n =>
      rw [Expr.relabel, superclassFindings, superclassFindings, h.lexeme, h.lexeme,
        findingIf_token]
  | _ => rfl

mutual

theorem Expr.findings_relabel (h : r.Faithful) (context : Context) (pending : Option String)
    (scopes : Scopes) : ∀ e : Expr, (e.relabel r).findings context pending scopes =
      (e.findings context pending scopes).map (Finding.relabel r)
  | .literal _ => rfl
  | .grouping a | .unary _ a | .get a _ => by
      simp only [Expr.relabel, Expr.findings, Expr.findings_relabel h context pending scopes a]
  | .binary a _ b | .logical a _ b | .set a _ b => by
      simp only [Expr.relabel, Expr.findings, Expr.findings_relabel h context pending scopes a,
        Expr.findings_relabel h context pending scopes b, List.map_append]
  | .variable site n => by
      simp only [Expr.relabel, Expr.findings, h.lexeme, findingIf_token, bind_token h,
        List.map_append]
  | .assign site n a => by
      simp only [Expr.relabel, Expr.findings, Expr.findings_relabel h context pending scopes a,
        bind_token h, List.map_append]
  | .call a _ as => by
      simp only [Expr.relabel, Expr.findings, Expr.findings_relabel h context pending scopes a,
        Expr.findingsAll_relabel h context pending scopes as, List.map_append]
  | .this site keyword => by
      rw [Expr.relabel, Expr.findings, Expr.findings, bind_token h]
      split <;> rfl
  | .super site keyword method => by
      simp only [Expr.relabel, Expr.findings, findingIf_token, bind_token h, List.map_append]

theorem Expr.findingsAll_relabel (h : r.Faithful) (context : Context) (pending : Option String)
    (scopes : Scopes) : ∀ es : List Expr,
    Expr.findingsAll context pending scopes (Expr.relabelAll r es) =
      (Expr.findingsAll context pending scopes es).map (Finding.relabel r)
  | [] => rfl
  | e :: es => by
      rw [Expr.relabelAll, Expr.findingsAll, Expr.findingsAll, List.map_append,
        Expr.findings_relabel h context pending scopes e,
        Expr.findingsAll_relabel h context pending scopes es]

end

mutual

theorem Stmt.findings_relabel (h : r.Faithful) (context : Context) (scopes : Scopes) :
    ∀ s : Stmt, (s.relabel r).findings context scopes =
      ((s.findings context scopes).1, (s.findings context scopes).2.map (Finding.relabel r))
  | .expression e => by simp only [Stmt.relabel, Stmt.findings, Expr.findings_relabel h]
  | .print e => by simp only [Stmt.relabel, Stmt.findings, Expr.findings_relabel h]
  | .var name none => by
      simp only [Stmt.relabel, Stmt.findings, introduce_token h, declarationFindings_token h]
  | .var name (some e) => by
      simp only [Stmt.relabel, Stmt.findings, h.lexeme, Expr.findings_relabel h,
        declarationFindings_token h, List.map_append]
  | .block body => by
      simp only [Stmt.relabel, Stmt.findings, Stmt.findingsAll_relabel h context _ body]
  | .branch e s none => by
      simp only [Stmt.relabel, Stmt.findings, Expr.findings_relabel h,
        Stmt.findings_relabel h context scopes s, List.map_append]
  | .branch e s (some s') => by
      simp only [Stmt.relabel, Stmt.findings, Expr.findings_relabel h,
        Stmt.findings_relabel h context _ s, Stmt.findings_relabel h context _ s',
        List.map_append]
  | .while e s => by
      simp only [Stmt.relabel, Stmt.findings, Expr.findings_relabel h,
        Stmt.findings_relabel h context scopes s, List.map_append]
  | .function d => by
      simp only [Stmt.relabel, Stmt.findings, FunctionDecl.relabel_name, introduce_token h,
        declarationFindings_token h, FunctionDecl.findings_relabel h .function context _ d,
        List.map_append]
  | .return keyword none => by simp only [Stmt.relabel, Stmt.findings, findingIf_token]
  | .return keyword (some e) => by
      simp only [Stmt.relabel, Stmt.findings, findingIf_token, Expr.findings_relabel h,
        List.map_append]
  | .class name none ds => by
      simp only [Stmt.relabel, Stmt.findings, introduce_token h, declarationFindings_token h,
        Stmt.findingsOfMethods_relabel h _ _ ds, List.map_append]
  | .class name (some e) ds => by
      simp only [Stmt.relabel, Stmt.findings, introduce_token h, declarationFindings_token h,
        superclassFindings_relabel h, Expr.findings_relabel h,
        Stmt.findingsOfMethods_relabel h _ _ ds, List.map_append]

theorem Stmt.findingsAll_relabel (h : r.Faithful) (context : Context) (scopes : Scopes) :
    ∀ ss : List Stmt, Stmt.findingsAll context scopes (Stmt.relabelAll r ss) =
      (Stmt.findingsAll context scopes ss).map (Finding.relabel r)
  | [] => rfl
  | s :: ss => by
      simp only [Stmt.relabelAll, Stmt.findingsAll, Stmt.findings_relabel h context scopes s,
        Stmt.findingsAll_relabel h context _ ss, List.map_append]

theorem Stmt.findingsOfMethods_relabel (h : r.Faithful) (context : Context) (scopes : Scopes) :
    ∀ ds : List FunctionDecl,
    Stmt.findingsOfMethods context scopes (Stmt.relabelMethods r ds) =
      (Stmt.findingsOfMethods context scopes ds).map (Finding.relabel r)
  | [] => rfl
  | d :: ds => by
      simp only [Stmt.relabelMethods, Stmt.findingsOfMethods, FunctionDecl.relabel_name, h.lexeme,
        FunctionDecl.findings_relabel h _ context scopes d,
        Stmt.findingsOfMethods_relabel h context scopes ds, List.map_append]

theorem FunctionDecl.findings_relabel (h : r.Faithful) (kind : FunctionContext)
    (context : Context) (scopes : Scopes) :
    ∀ d : FunctionDecl, (d.relabel r).findings kind context scopes =
      (d.findings kind context scopes).map (Finding.relabel r)
  | ⟨_, parameters, body⟩ => by
      simp only [FunctionDecl.relabel, FunctionDecl.findings, introduceAll_map_token h,
        Stmt.findingsAll_relabel h _ _ body, List.map_append]

end

/-- The analysis finds the same in a relabeled program. -/
theorem analyze_relabel (h : r.Faithful) (statements : List Stmt) :
    analyze (Stmt.relabelAll r statements) = (analyze statements).map (Finding.relabel r) :=
  Stmt.findingsAll_relabel h .top [] statements

end Lox
