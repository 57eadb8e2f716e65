import Lox.Proofs.Program.Node

/-!
# Relabeling programs

The same text that is read at another place of a source or of a session gives the same program up to
the lines of its tokens and the numbers of its sites.  A `Relabeling` says what becomes of a site
and of a token, and `Expr.relabel` and `Stmt.relabel` apply it to all sites and tokens of a phrase.
-/

namespace Lox

/-- What becomes of sites and tokens. -/
structure Relabeling where
  site : Site → Site
  token : Token → Token

namespace Relabeling

def same : Relabeling := ⟨id, id⟩

/-- What tokens mean does not change. -/
structure Faithful (r : Relabeling) : Prop where
  kind : ∀ t, (r.token t).kind = t.kind
  lexeme : ∀ t, (r.token t).lexeme = t.lexeme

theorem Faithful.terminal {r : Relabeling} (h : r.Faithful) (t : Token) :
    (r.token t).terminal = t.terminal := by
  rw [Token.terminal, Token.terminal, h.kind]

theorem same_faithful : same.Faithful := ⟨fun _ => rfl, fun _ => rfl⟩

end Relabeling

variable (r : Relabeling)

mutual

def Expr.relabel : Expr → Expr
  | .literal value => .literal value
  | .grouping inner => .grouping inner.relabel
  | .unary operator right => .unary (r.token operator) right.relabel
  | .binary left operator right => .binary left.relabel (r.token operator) right.relabel
  | .logical left operator right => .logical left.relabel (r.token operator) right.relabel
  | .variable site name => .variable (r.site site) (r.token name)
  | .assign site name value => .assign (r.site site) (r.token name) value.relabel
  | .call callee paren arguments =>
    .call callee.relabel (r.token paren) (Expr.relabelAll arguments)
  | .get object name => .get object.relabel (r.token name)
  | .set object name value => .set object.relabel (r.token name) value.relabel
  | .this site keyword => .this (r.site site) (r.token keyword)
  | .super site keyword method => .super (r.site site) (r.token keyword) (r.token method)
termination_by structural e => e

def Expr.relabelAll : List Expr → List Expr
  | [] => []
  | e :: es => e.relabel :: Expr.relabelAll es
termination_by structural es => es

end

mutual

def Stmt.relabel : Stmt → Stmt
  | .expression value => .expression (value.relabel r)
  | .print value => .print (value.relabel r)
  | .var name none => .var (r.token name) none
  | .var name (some value) => .var (r.token name) (some (value.relabel r))
  | .block body => .block (Stmt.relabelAll body)
  | .branch condition consequence none =>
    .branch (condition.relabel r) consequence.relabel none
  | .branch condition consequence (some alternative) =>
    .branch (condition.relabel r) consequence.relabel (some alternative.relabel)
  | .while condition body => .while (condition.relabel r) body.relabel
  | .function declaration => .function declaration.relabel
  | .return keyword none => .return (r.token keyword) none
  | .return keyword (some value) => .return (r.token keyword) (some (value.relabel r))
  | .class name none methods => .class (r.token name) none (Stmt.relabelMethods methods)
  | .class name (some superclass) methods =>
    .class (r.token name) (some (superclass.relabel r)) (Stmt.relabelMethods methods)
termination_by structural s => s

def Stmt.relabelAll : List Stmt → List Stmt
  | [] => []
  | s :: ss => s.relabel :: Stmt.relabelAll ss
termination_by structural ss => ss

def Stmt.relabelMethods : List FunctionDecl → List FunctionDecl
  | [] => []
  | d :: ds => d.relabel :: Stmt.relabelMethods ds
termination_by structural ds => ds

def FunctionDecl.relabel : FunctionDecl → FunctionDecl
  | ⟨name, parameters, body⟩ =>
    ⟨r.token name, parameters.map r.token, Stmt.relabelAll body⟩
termination_by structural d => d

end

variable {r}

theorem Expr.relabelAll_eq_map (es : List Expr) :
    Expr.relabelAll r es = es.map (Expr.relabel r) := by
  induction es with
  | nil => rfl
  | cons e es ih => rw [Expr.relabelAll, ih, List.map_cons]

theorem Stmt.relabelAll_eq_map (ss : List Stmt) :
    Stmt.relabelAll r ss = ss.map (Stmt.relabel r) := by
  induction ss with
  | nil => rfl
  | cons s ss ih => rw [Stmt.relabelAll, ih, List.map_cons]

theorem Stmt.relabelMethods_eq_map (ds : List FunctionDecl) :
    Stmt.relabelMethods r ds = ds.map (FunctionDecl.relabel r) := by
  induction ds with
  | nil => rfl
  | cons d ds ih => rw [Stmt.relabelMethods, ih, List.map_cons]

theorem Stmt.relabel_var (name : Token) (initializer : Option Expr) :
    (Stmt.var name initializer).relabel r =
      .var (r.token name) (initializer.map (Expr.relabel r)) := by
  cases initializer <;> rfl

theorem Stmt.relabel_return (keyword : Token) (value : Option Expr) :
    (Stmt.return keyword value).relabel r =
      .return (r.token keyword) (value.map (Expr.relabel r)) := by
  cases value <;> rfl

theorem Stmt.relabel_class (name : Token) (superclass : Option Expr)
    (methods : List FunctionDecl) :
    (Stmt.class name superclass methods).relabel r =
      .class (r.token name) (superclass.map (Expr.relabel r)) (Stmt.relabelMethods r methods) := by
  cases superclass <;> rfl

@[simp] theorem FunctionDecl.relabel_name (d : FunctionDecl) :
    (d.relabel r).name = r.token d.name := by
  cases d
  rfl

mutual

@[simp] theorem Expr.relabel_same : ∀ e : Expr, e.relabel .same = e
  | .literal _ | .variable _ _ | .this _ _ | .super _ _ _ => rfl
  | .grouping a => by rw [Expr.relabel, Expr.relabel_same a]
  | .unary _ a | .assign _ _ a | .get a _ => by
      rw [Expr.relabel, Expr.relabel_same a]
      rfl
  | .binary a _ b | .logical a _ b | .set a _ b => by
      rw [Expr.relabel, Expr.relabel_same a, Expr.relabel_same b]
      rfl
  | .call a _ as => by
      rw [Expr.relabel, Expr.relabel_same a, Expr.relabelAll_same as]
      rfl

@[simp] theorem Expr.relabelAll_same : ∀ es : List Expr, Expr.relabelAll .same es = es
  | [] => rfl
  | e :: es => by rw [Expr.relabelAll, Expr.relabel_same e, Expr.relabelAll_same es]

end

mutual

@[simp] theorem Stmt.relabel_same : ∀ s : Stmt, s.relabel .same = s
  | .expression e | .print e => by rw [Stmt.relabel, Expr.relabel_same e]
  | .return _ (some e) | .var _ (some e) => by
      rw [Stmt.relabel, Expr.relabel_same e]
      rfl
  | .var _ none | .return _ none => rfl
  | .block body => by rw [Stmt.relabel, Stmt.relabelAll_same body]
  | .branch e s none | .while e s => by
      rw [Stmt.relabel, Expr.relabel_same e, Stmt.relabel_same s]
  | .branch e s (some s') => by
      rw [Stmt.relabel, Expr.relabel_same e, Stmt.relabel_same s, Stmt.relabel_same s']
  | .function d => by rw [Stmt.relabel, FunctionDecl.relabel_same d]
  | .class _ none ds => by
      rw [Stmt.relabel, Stmt.relabelMethods_same ds]
      rfl
  | .class _ (some e) ds => by
      rw [Stmt.relabel, Expr.relabel_same e, Stmt.relabelMethods_same ds]
      rfl

@[simp] theorem Stmt.relabelAll_same : ∀ ss : List Stmt, Stmt.relabelAll .same ss = ss
  | [] => rfl
  | s :: ss => by rw [Stmt.relabelAll, Stmt.relabel_same s, Stmt.relabelAll_same ss]

@[simp] theorem Stmt.relabelMethods_same : ∀ ds : List FunctionDecl,
    Stmt.relabelMethods .same ds = ds
  | [] => rfl
  | d :: ds => by
      rw [Stmt.relabelMethods, FunctionDecl.relabel_same d, Stmt.relabelMethods_same ds]

@[simp] theorem FunctionDecl.relabel_same : ∀ d : FunctionDecl, d.relabel .same = d
  | ⟨_, _, body⟩ => by
      rw [FunctionDecl.relabel, Stmt.relabelAll_same body]
      simp [Relabeling.same]

end

end Lox
