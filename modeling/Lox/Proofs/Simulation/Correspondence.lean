import Lox.Proofs.Simulation.World
import Lox.Proofs.Evaluation.Watched
import Lox.Session

/-!
# Corresponding programs

A `Correspondence` says which expressions, statements and functions of two programs stand for each
other at a point with a given layout.  It is `Closed` if corresponding phrases are built in the same
way from corresponding parts, and if the names in them refer to the same environments: `ExprMatch`,
`StmtMatch` and `DeclMatch` are one layer of that, and say nothing about the layers below.  So a
correspondence is shown to be closed by cases, without an induction.

`Matched` relates the machines that execute two such programs.  They number everything alike, so
that values are the same on both sides; what differs are the functions, the names in environments,
the distances, and what the second machine has printed before.
-/

namespace Lox

/-- Which phrases of two programs stand for each other. -/
structure Correspondence where
  /-- The distances that are known to the first machine. -/
  first : Std.TreeMap Site Nat
  /-- The distances that are known to the second machine. -/
  second : Std.TreeMap Site Nat
  /-- What the second machine has printed before. -/
  before : String
  /-- Tokens that stand for each other in errors. -/
  culprit : Token → Token → Prop
  /-- How the names of an environment may be renamed. -/
  admits : Renaming → Prop
  expr : Layout → Expr → Expr → Prop
  /-- Statements, with the layouts before and after them. -/
  stmt : Layout → Layout → Stmt → Stmt → Prop
  decl : Layout → FunctionDecl → FunctionDecl → Prop

def Layout.inside (l : Layout) (parameters : List Token) (π : Renaming) : Layout :=
  ⟨(Scopes.introduceAll ([] :: l.scopes) parameters).1, π :: l.renamings⟩

def Layout.ofMethods (l : Layout) (name : Token) : Layout :=
  (l.introduce name).push (Scope.holding receiverName) 1

def Layout.ofInherited (l : Layout) (name : Token) : Layout :=
  ((l.introduce name).push (Scope.holding superName) 1).push (Scope.holding receiverName) 1

namespace Correspondence

variable (R : Correspondence)

structure Word (t₁ t₂ : Token) : Prop where
  culprit : R.culprit t₁ t₂
  kind : t₂.kind = t₁.kind
  lexeme : t₂.lexeme = t₁.lexeme

/-- Names that refer to the same environment, where they stand for the same variable. -/
structure Reference (l : Layout) (s₁ : Site) (n₁ : Token) (s₂ : Site) (n₂ : Token) : Prop where
  culprit : R.culprit n₁ n₂
  distance : R.second[s₂]? = R.first[s₁]?
  global : R.first[s₁]? = none → n₂.lexeme = n₁.lexeme
  here : ∀ d, R.first[s₁]? = some d →
    ∃ π, l.renamings[d]? = some π ∧ n₂.lexeme = π n₁.lexeme

/-- One layer of corresponding expressions. -/
inductive ExprMatch (l : Layout) : Expr → Expr → Prop
  | literal (value : Literal) : ExprMatch l (.literal value) (.literal value)
  | grouping {e₁ e₂ : Expr} : R.expr l e₁ e₂ → ExprMatch l (.grouping e₁) (.grouping e₂)
  | unary {o₁ o₂ : Token} {e₁ e₂ : Expr} : R.Word o₁ o₂ → R.expr l e₁ e₂ →
      ExprMatch l (.unary o₁ e₁) (.unary o₂ e₂)
  | binary {a₁ a₂ b₁ b₂ : Expr} {o₁ o₂ : Token} : R.expr l a₁ a₂ → R.Word o₁ o₂ →
      R.expr l b₁ b₂ → ExprMatch l (.binary a₁ o₁ b₁) (.binary a₂ o₂ b₂)
  | logical {a₁ a₂ b₁ b₂ : Expr} {o₁ o₂ : Token} : R.expr l a₁ a₂ → R.Word o₁ o₂ →
      R.expr l b₁ b₂ → ExprMatch l (.logical a₁ o₁ b₁) (.logical a₂ o₂ b₂)
  | variable {s₁ s₂ : Site} {n₁ n₂ : Token} : R.Reference l s₁ n₁ s₂ n₂ →
      ExprMatch l (.variable s₁ n₁) (.variable s₂ n₂)
  | assign {s₁ s₂ : Site} {n₁ n₂ : Token} {e₁ e₂ : Expr} : R.Reference l s₁ n₁ s₂ n₂ →
      R.expr l e₁ e₂ → ExprMatch l (.assign s₁ n₁ e₁) (.assign s₂ n₂ e₂)
  | call {c₁ c₂ : Expr} {p₁ p₂ : Token} {as₁ as₂ : List Expr} : R.expr l c₁ c₂ →
      R.culprit p₁ p₂ → List.Forall₂ (R.expr l) as₁ as₂ →
      ExprMatch l (.call c₁ p₁ as₁) (.call c₂ p₂ as₂)
  | get {e₁ e₂ : Expr} {n₁ n₂ : Token} : R.expr l e₁ e₂ → R.Word n₁ n₂ →
      ExprMatch l (.get e₁ n₁) (.get e₂ n₂)
  | set {e₁ e₂ v₁ v₂ : Expr} {n₁ n₂ : Token} : R.expr l e₁ e₂ → R.Word n₁ n₂ →
      R.expr l v₁ v₂ → ExprMatch l (.set e₁ n₁ v₁) (.set e₂ n₂ v₂)
  | this {s₁ s₂ : Site} {k₁ k₂ : Token} : R.Reference l s₁ k₁ s₂ k₂ →
      ExprMatch l (.this s₁ k₁) (.this s₂ k₂)
  | super {s₁ s₂ : Site} {k₁ k₂ n₁ n₂ : Token} : R.second[s₂]? = R.first[s₁]? →
      R.culprit k₁ k₂ → R.Word n₁ n₂ → ExprMatch l (.super s₁ k₁ n₁) (.super s₂ k₂ n₂)

inductive Statements : Layout → List Stmt → List Stmt → Prop
  | nil (l : Layout) : Statements l [] []
  | cons {l after : Layout} {s₁ s₂ : Stmt} {ss₁ ss₂ : List Stmt} : R.stmt l after s₁ s₂ →
      Statements after ss₁ ss₂ → Statements l (s₁ :: ss₁) (s₂ :: ss₂)

/-- One layer of corresponding functions: their parameters and bodies share a scope. -/
structure DeclMatch (l : Layout) (d₁ d₂ : FunctionDecl) : Prop where
  name : d₂.name.lexeme = d₁.name.lexeme
  body : ∃ π, R.admits π ∧
    d₂.parameters.map Token.lexeme = d₁.parameters.map (fun p => π p.lexeme) ∧
    R.Statements (l.inside d₁.parameters π) d₁.body d₂.body

/-- One layer of corresponding statements, with the layouts before and after them.  Names that are
printed stay the same. -/
inductive StmtMatch (l : Layout) : Layout → Stmt → Stmt → Prop
  | expression {e₁ e₂ : Expr} : R.expr l e₁ e₂ → StmtMatch l l (.expression e₁) (.expression e₂)
  | print {e₁ e₂ : Expr} : R.expr l e₁ e₂ → StmtMatch l l (.print e₁) (.print e₂)
  | var {n₁ n₂ : Token} : n₂.lexeme = l.here n₁.lexeme →
      StmtMatch l (l.introduce n₁) (.var n₁ none) (.var n₂ none)
  | initialized {n₁ n₂ : Token} {e₁ e₂ : Expr} : n₂.lexeme = l.here n₁.lexeme →
      R.expr (l.declare n₁.lexeme) e₁ e₂ →
      StmtMatch l (l.introduce n₁) (.var n₁ (some e₁)) (.var n₂ (some e₂))
  | block {π : Renaming} {ss₁ ss₂ : List Stmt} : R.admits π → R.Statements (l.push [] π) ss₁ ss₂ →
      StmtMatch l l (.block ss₁) (.block ss₂)
  | branch {after : Layout} {c₁ c₂ : Expr} {s₁ s₂ : Stmt} : R.expr l c₁ c₂ →
      R.stmt l after s₁ s₂ → StmtMatch l l (.branch c₁ s₁ none) (.branch c₂ s₂ none)
  | alternative {after after' : Layout} {c₁ c₂ : Expr} {s₁ s₂ s₁' s₂' : Stmt} : R.expr l c₁ c₂ →
      R.stmt l after s₁ s₂ → R.stmt l after' s₁' s₂' →
      StmtMatch l l (.branch c₁ s₁ (some s₁')) (.branch c₂ s₂ (some s₂'))
  | while {after : Layout} {c₁ c₂ : Expr} {s₁ s₂ : Stmt} : R.expr l c₁ c₂ →
      R.stmt l after s₁ s₂ → StmtMatch l l (.while c₁ s₁) (.while c₂ s₂)
  | function {d₁ d₂ : FunctionDecl} : l.here d₁.name.lexeme = d₁.name.lexeme →
      R.decl (l.introduce d₁.name) d₁ d₂ →
      StmtMatch l (l.introduce d₁.name) (.function d₁) (.function d₂)
  | return (k₁ k₂ : Token) : StmtMatch l l (.return k₁ none) (.return k₂ none)
  | returnValue (k₁ k₂ : Token) {e₁ e₂ : Expr} : R.expr l e₁ e₂ →
      StmtMatch l l (.return k₁ (some e₁)) (.return k₂ (some e₂))
  | class {n₁ n₂ : Token} {ds₁ ds₂ : List FunctionDecl} : n₂.lexeme = n₁.lexeme →
      l.here n₁.lexeme = n₁.lexeme → List.Forall₂ (R.decl (l.ofMethods n₁)) ds₁ ds₂ →
      StmtMatch l (l.introduce n₁) (.class n₁ none ds₁) (.class n₂ none ds₂)
  | subclass {n₁ n₂ : Token} {e₁ e₂ : Expr} {ds₁ ds₂ : List FunctionDecl} :
      n₂.lexeme = n₁.lexeme → l.here n₁.lexeme = n₁.lexeme → R.culprit n₁ n₂ →
      R.expr (l.declare n₁.lexeme) e₁ e₂ → List.Forall₂ (R.decl (l.ofInherited n₁)) ds₁ ds₂ →
      StmtMatch l (l.introduce n₁) (.class n₁ (some e₁) ds₁) (.class n₂ (some e₂) ds₂)

/-- Corresponding phrases are built in the same way from corresponding phrases. -/
structure Closed : Prop where
  expr : ∀ {l e₁ e₂}, R.expr l e₁ e₂ → R.ExprMatch l e₁ e₂
  stmt : ∀ {l after s₁ s₂}, R.stmt l after s₁ s₂ → R.StmtMatch l after s₁ s₂
  decl : ∀ {l d₁ d₂}, R.decl l d₁ d₂ → R.DeclMatch l d₁ d₂
  one : R.admits 1
  receiver : ∀ {π}, R.admits π → π receiverName = receiverName
  super : ∀ {π}, R.admits π → π superName = superName

/-- A world whose renamings are admitted.  The environment of the whole program is outermost and
keeps its names. -/
structure Sound (w : World) : Prop where
  root : w.forest.enclosing? w.globals = none
  globals : w.names w.globals = 1
  made : w.globals.index < w.forest.environments.size
  admits : ∀ id, R.admits (w.names id)

structure FunctionMatch (w : World) (f₁ f₂ : Function) : Prop where
  closure : f₂.closure = f₁.closure
  isInitializer : f₂.isInitializer = f₁.isInitializer
  declaration : ∃ l : Layout, w.Chain l.scopes l.renamings f₁.closure ∧
    R.decl l f₁.declaration f₂.declaration

/-- Methods that stand for each other before they are bound to a receiver. -/
structure MethodMatch (w : World) (f₁ f₂ : Function) : Prop where
  closure : f₂.closure = f₁.closure
  isInitializer : f₂.isInitializer = f₁.isInitializer
  declaration : ∃ l : Layout, w.Chain l.scopes l.renamings f₁.closure ∧
    R.decl (l.push (Scope.holding receiverName) 1) f₁.declaration f₂.declaration

structure ClassMatch (w : World) (c₁ c₂ : Class) : Prop where
  name : c₂.name = c₁.name
  superclass : c₂.superclass = c₁.superclass
  methods : List.Forall₂ (fun p q => q.1 = p.1 ∧ R.MethodMatch w p.2 q.2) c₁.methods c₂.methods

/-- Machines that execute corresponding programs. -/
structure Matched (w : World) (m₁ m₂ : Machine) : Prop where
  sound : R.Sound w
  forest₁ : m₁.heap.forest = w.forest
  forest₂ : m₂.heap.forest = w.forest.rename w.names
  functions : List.Forall₂ (R.FunctionMatch w) m₁.heap.functions.toList m₂.heap.functions.toList
  classes : List.Forall₂ (R.ClassMatch w) m₁.heap.classes.toList m₂.heap.classes.toList
  objects : m₂.heap.objects = m₁.heap.objects
  natives : m₂.heap.natives = m₁.heap.natives
  globals₁ : m₁.globals = w.globals
  globals₂ : m₂.globals = w.globals
  current₁ : m₁.current = w.current
  current₂ : m₂.current = w.current
  distances₁ : m₁.distances = R.first
  distances₂ : m₂.distances = R.second
  sink : m₂.sink = { m₁.sink with text := R.before ++ m₁.sink.text }
  clock : m₂.clock = m₁.clock
  readings : m₂.readings = m₁.readings

inductive HaltMatch : Halt → Halt → Prop
  | error (fault : RuntimeFault) {t₁ t₂ : Token} : R.culprit t₁ t₂ →
      HaltMatch (.error ⟨fault, t₁⟩) (.error ⟨fault, t₂⟩)
  | output (e : OutputError) : HaltMatch (.output e) (.output e)
  | outOfFuel : HaltMatch .outOfFuel .outOfFuel

/-- What two runs side by side end in, from the world `w`. -/
inductive Outcome (w : World) (Q : World → α → β → Prop) :
    EStateM.Result Halt Machine α → EStateM.Result Halt Machine β → Prop
  | ok {w' : World} {a : α} {b : β} {m₁ m₂ : Machine} : w ≤ w' → R.Matched w' m₁ m₂ → Q w' a b →
      Outcome w Q (.ok a m₁) (.ok b m₂)
  | error {w' : World} {h₁ h₂ : Halt} {m₁ m₂ : Machine} : w ≤ w' → R.Matched w' m₁ m₂ →
      R.HaltMatch h₁ h₂ → Outcome w Q (.error h₁ m₁) (.error h₂ m₂)

/-- Two steps side by side: from matched machines they end alike, with results related by `Q`. -/
def Sim (w : World) (x : Run α) (y : Run β) (Q : World → α → β → Prop) : Prop :=
  ∀ m₁ m₂, R.Matched w m₁ m₂ → R.Outcome w Q (x m₁) (y m₂)

end Correspondence

end Lox
