import Lox.Grammar.Statement
import Lox.Proofs.Grammar.Spelling

/-!
# Tokens that stand for a program

`Phrase` says which token lists a rule of the grammar can be read from, and as what: a `for`
statement, which has no form of its own, stands for a loop.  The rule for statements tells apart
whether a following `else` would still belong to the statement, so that every token list is read in
one way.  Expressions have no such peculiarity: their tokens stand for what they spell
(`Expr.Spells`).

Without `for`, statements too are what they spell: `Phrase.written` and `Stmt.Shaped.phrase`.
-/

namespace Lox

theorem Token.kind_eq_of_terminal {t : Token} {k : Kind} (h : t.terminal = k.terminal)
    (number : ∀ value, k ≠ .number value) (string : ∀ contents, k ≠ .string contents) :
    t.kind = k := by
  rw [Token.terminal] at h
  cases hk : t.kind <;> cases k <;> simp_all [Kind.terminal]

namespace Mark

@[simp] theorem admits_symbol {t : Token} {m : Symbol} :
    (Mark.symbol m).Admits t ↔ t.terminal = .symbol m := by
  constructor
  · intro h
    rw [Token.terminal, show t.kind = .symbol m from h, Kind.terminal]
  · intro h
    exact Token.kind_eq_of_terminal h (by simp) (by simp)

@[simp] theorem admits_keyword {t : Token} {word : Keyword} :
    (Mark.keyword word).Admits t ↔ t.terminal = .keyword word := by
  constructor
  · intro h
    rw [Token.terminal, show t.kind = .keyword word from h, Kind.terminal]
  · intro h
    exact Token.kind_eq_of_terminal h (by simp) (by simp)

end Mark

/-! ### Lists with commas -/

/-- Tokens that stand for a list of items, with commas between them. -/
inductive CommaList (item : List Token → α → Prop) : List Token → List α → Prop
  | nil : CommaList item [] []
  | one {ts : List Token} {a : α} : item ts a → CommaList item ts [a]
  | cons {ts ts' : List Token} {comma : Token} {a b : α} {as : List α} : item ts a →
      comma.terminal = .symbol .comma → CommaList item ts' (b :: as) →
      CommaList item (ts ++ comma :: ts') (a :: b :: as)

namespace CommaList

variable {item : List Token → α → Prop} {f : α → List Mark} {ts : List Token} {as : List α}

theorem fits (spelled : ∀ ts a, item ts a → Fits ts (f a)) (h : CommaList item ts as) :
    Fits ts (Mark.separated (as.map f)) := by
  induction h with
  | nil => exact .nil
  | one first => exact spelled _ _ first
  | cons first comma _ ih =>
      exact (spelled _ _ first).append (.cons (Mark.admits_symbol.2 comma) ih)

theorem forall_mem {P : α → Prop} (holds : ∀ ts a, item ts a → P a) (h : CommaList item ts as) :
    ∀ a ∈ as, P a := by
  induction h with
  | nil => exact List.forall_mem_nil _
  | one first => exact List.forall_mem_singleton.2 (holds _ _ first)
  | cons first _ _ ih => exact List.forall_mem_cons.2 ⟨holds _ _ first, ih⟩

theorem snoc {ts' : List Token} {comma : Token} {a : α} (h : CommaList item ts as)
    (some : as ≠ []) (mark : comma.terminal = .symbol .comma) (last : item ts' a) :
    CommaList item (ts ++ comma :: ts') (as ++ [a]) := by
  induction h with
  | nil => exact absurd rfl some
  | one first => exact .cons first mark (.one last)
  | cons first comma' _ ih =>
      rw [List.append_assoc, List.cons_append]
      exact .cons first comma' (ih (List.cons_ne_nil _ _))

/-- What holds of the commas and of all tokens of the items. -/
theorem forall_tokens {P : Token → Prop} (h : CommaList item ts as)
    (commas : ∀ t : Token, t.terminal = .symbol .comma → P t)
    (items : ∀ ts' a, ts'.length ≤ ts.length → item ts' a → ∀ t ∈ ts', P t) : ∀ t ∈ ts, P t := by
  induction h with
  | nil => exact List.forall_mem_nil _
  | one first => exact items _ _ (Nat.le_refl _) first
  | cons first comma _ ih =>
      rw [List.forall_mem_append, List.forall_mem_cons]
      simp only [List.length_append, List.length_cons] at items
      exact ⟨items _ _ (by omega) first, commas _ comma,
        ih fun ts' a short => items ts' a (by omega)⟩

theorem of_fits (h : Fits ts (Mark.separated (as.map f)))
    (spelled : ∀ a ∈ as, ∀ ts, Fits ts (f a) → item ts a) : CommaList item ts as := by
  induction as generalizing ts with
  | nil =>
      rw [h.eq_nil]
      exact .nil
  | cons a as ih =>
      obtain ⟨first, others⟩ := List.forall_mem_cons.1 spelled
      cases as with
      | nil => exact .one (first ts h)
      | cons b as =>
          obtain ⟨ts₁, ts₂, rfl, one, rest⟩ := Fits.exists_of_append h
          obtain ⟨comma, ts₃, rfl, admits, rest⟩ := rest.exists_of_cons
          exact .cons (first ts₁ one) (Mark.admits_symbol.1 admits) (ih rest others)

end CommaList

inductive Sequence (item : List Token → α → Prop) : List Token → List α → Prop
  | nil : Sequence item [] []
  | cons {ts ts' : List Token} {a : α} {as : List α} : item ts a → Sequence item ts' as →
      Sequence item (ts ++ ts') (a :: as)

theorem Sequence.snoc {item : List Token → α → Prop} {ts ts' : List Token} {as : List α} {a : α}
    (h : Sequence item ts as) (last : item ts' a) : Sequence item (ts ++ ts') (as ++ [a]) := by
  induction h with
  | nil => simpa using cons last nil
  | cons first _ ih =>
      rw [List.append_assoc]
      exact cons first ih

/-! ### Expressions -/

def Level.operators : Level → List Terminal
  | .disjunction => [.keyword .or]
  | .conjunction => [.keyword .and]
  | .equality => Expr.equalityOperators
  | .comparison => Expr.comparisonOperators
  | .term => Expr.termOperators
  | .factor => Expr.factorOperators
  | _ => []

theorem Level.mem_operators {l : Level} (above : .disjunction ≤ l) (below : l ≤ .factor)
    {k : Terminal} : k ∈ l.operators ↔ k.level? = some l := by
  cases l <;> first | exact absurd above (by decide) | exact absurd below (by decide) | skip
  all_goals
    rcases k with m | w | _
    · cases m <;> decide
    · cases w <;> decide
    all_goals decide

theorem Expr.spellings_eq_map (es : List Expr) : Expr.spellings es = es.map Expr.spelling := by
  induction es with
  | nil => rfl
  | cons e es ih => rw [Expr.spellings, ih, List.map_cons]

theorem Expr.shapedAll_iff {es : List Expr} : Expr.ShapedAll es ↔ ∀ e ∈ es, e.Shaped := by
  induction es with
  | nil => simp [Expr.ShapedAll]
  | cons e es ih => rw [Expr.ShapedAll, ih, List.forall_mem_cons]

/-- The tokens stand for an expression that binds at least as tightly as the level. -/
structure Expr.Spells (l : Level) (ts : List Token) (e : Expr) : Prop where
  shaped : e.Shaped
  level : l ≤ e.level
  fits : Fits ts e.spelling

namespace Expr.Spells

variable {l l' : Level} {ts ts' : List Token} {a b e : Expr} {o name : Token}

theorem loosen (h : Spells l ts e) (le : l' ≤ l) : Spells l' ts e :=
  ⟨h.shaped, Nat.le_trans le h.level, h.fits⟩

theorem literal {t : Token} {value : Literal} (kind : t.kind = value.kind) :
    Spells .primary [t] (.literal value) :=
  ⟨trivial, Nat.le_refl _, .one kind⟩

theorem grouping {left right : Token} (opens : left.terminal = .symbol .leftParen)
    (inner : Spells .assignment ts e) (closes : right.terminal = .symbol .rightParen) :
    Spells .primary (left :: (ts ++ [right])) (.grouping e) where
  shaped := inner.shaped
  level := Nat.le_refl _
  fits := .cons (Mark.admits_symbol.2 opens)
    (inner.fits.append (.one (Mark.admits_symbol.2 closes)))

theorem unary (operator : o.terminal ∈ unaryOperators) (right : Spells .unary ts e) :
    Spells .unary (o :: ts) (.unary o e) :=
  ⟨⟨operator, right.shaped, right.level⟩, Nat.le_refl _, .cons rfl right.fits⟩

theorem negated {os : List Token} (operators : ∀ o ∈ os, o.terminal ∈ unaryOperators)
    (operand : Spells .unary ts e) : Spells .unary (os ++ ts) (os.foldr Expr.unary e) := by
  induction os with
  | nil => exact operand
  | cons o os ih =>
      obtain ⟨first, others⟩ := List.forall_mem_cons.1 operators
      exact .unary first (ih others)

theorem binary (operator : o.terminal.level? = some l) (above : .equality ≤ l) (below : l ≤ .factor)
    (left : Spells l ts a) (right : Spells l' ts' b) (tighter : l < l') :
    Spells l (ts ++ o :: ts') (.binary a o b) where
  shaped := ⟨l, operator, above, below, left.shaped, left.level, right.shaped,
    Nat.lt_of_lt_of_le tighter right.level⟩
  level := by
    rw [Expr.level, operator]
    exact Nat.le_refl _
  fits := left.fits.append (.cons rfl right.fits)

theorem logical (operator : o.terminal.level? = some l) (above : .disjunction ≤ l)
    (below : l ≤ .conjunction) (left : Spells l ts a) (right : Spells l' ts' b) (tighter : l < l') :
    Spells l (ts ++ o :: ts') (.logical a o b) where
  shaped := ⟨l, operator, above, below, left.shaped, left.level, right.shaped,
    Nat.lt_of_lt_of_le tighter right.level⟩
  level := by
    rw [Expr.level, operator]
    exact Nat.le_refl _
  fits := left.fits.append (.cons rfl right.fits)

theorem «variable» (site : Site) (identifier : name.terminal = .identifier) :
    Spells .primary [name] (.variable site name) :=
  ⟨identifier, Nat.le_refl _, .token name⟩

theorem assign (site : Site) {equals : Token} (identifier : name.terminal = .identifier)
    (sign : equals.terminal = .symbol .equal) (value : Spells .assignment ts e) :
    Spells .assignment (name :: equals :: ts) (.assign site name e) where
  shaped := ⟨identifier, value.shaped⟩
  level := Nat.le_refl _
  fits := .cons rfl (.cons (Mark.admits_symbol.2 sign) value.fits)

theorem call {left right : Token} {arguments : List Expr} (callee : Spells .call ts e)
    (opens : left.terminal = .symbol .leftParen)
    (given : CommaList (Spells .assignment) ts' arguments) (few : arguments.length ≤ 255)
    (closes : right.terminal = .symbol .rightParen) :
    Spells .call (ts ++ left :: (ts' ++ [right])) (.call e right arguments) where
  shaped := ⟨callee.shaped, callee.level, closes, few,
    Expr.shapedAll_iff.2 (given.forall_mem fun _ _ h => h.shaped)⟩
  level := Nat.le_refl _
  fits := by
    have spelled := given.fits fun _ _ h => h.fits
    rw [Expr.spelling, Expr.spellings_eq_map]
    exact callee.fits.append (.cons (Mark.admits_symbol.2 opens) (spelled.append (.token right)))

theorem get {dot : Token} (object : Spells .call ts e) (mark : dot.terminal = .symbol .dot)
    (identifier : name.terminal = .identifier) :
    Spells .call (ts ++ [dot, name]) (.get e name) where
  shaped := ⟨object.shaped, object.level, identifier⟩
  level := Nat.le_refl _
  fits := object.fits.append (.cons (Mark.admits_symbol.2 mark) (Fits.token name))

theorem set {dot equals : Token} (object : Spells .call ts a) (mark : dot.terminal = .symbol .dot)
    (identifier : name.terminal = .identifier) (sign : equals.terminal = .symbol .equal)
    (value : Spells .assignment ts' b) :
    Spells .assignment (ts ++ dot :: name :: equals :: ts') (.set a name b) where
  shaped := ⟨object.shaped, object.level, identifier, value.shaped⟩
  level := Nat.le_refl _
  fits := object.fits.append (.cons (Mark.admits_symbol.2 mark) (.cons rfl
    (.cons (Mark.admits_symbol.2 sign) value.fits)))

theorem this (site : Site) {keyword : Token} (word : keyword.terminal = .keyword .this) :
    Spells .primary [keyword] (.this site keyword) :=
  ⟨word, Nat.le_refl _, .token keyword⟩

theorem super (site : Site) {keyword dot : Token} (word : keyword.terminal = .keyword .super)
    (mark : dot.terminal = .symbol .dot) (identifier : name.terminal = .identifier) :
    Spells .primary [keyword, dot, name] (.super site keyword name) where
  shaped := ⟨word, identifier⟩
  level := Nat.le_refl _
  fits := .cons rfl (.cons (Mark.admits_symbol.2 mark) (Fits.token name))

end Expr.Spells

/-! ### Statements -/

inductive OptionalExpr : List Token → Option Expr → Prop
  | none : OptionalExpr [] none
  | some {ts : List Token} {e : Expr} : Expr.Spells .assignment ts e → OptionalExpr ts (some e)

/-- The rest of the declaration of a variable, after its first word. -/
inductive VarPhrase : List Token → Stmt → Prop
  | none {name semicolon : Token} : name.terminal = .identifier →
      semicolon.terminal = .symbol .semicolon → VarPhrase [name, semicolon] (.var name none)
  | some {name equals semicolon : Token} {ts : List Token} {e : Expr} :
      name.terminal = .identifier → equals.terminal = .symbol .equal →
      Expr.Spells .assignment ts e → semicolon.terminal = .symbol .semicolon →
      VarPhrase (name :: equals :: (ts ++ [semicolon])) (.var name (some e))

/-- The first clause of a `for` statement, up to its semicolon. -/
inductive FirstClause : List Token → Option Stmt → Prop
  | none {semicolon : Token} : semicolon.terminal = .symbol .semicolon →
      FirstClause [semicolon] none
  | var {word : Token} {ts : List Token} {s : Stmt} : word.terminal = .keyword .var →
      VarPhrase ts s → FirstClause (word :: ts) (some s)
  | expression {semicolon : Token} {ts : List Token} {e : Expr} : Expr.Spells .assignment ts e →
      semicolon.terminal = .symbol .semicolon →
      FirstClause (ts ++ [semicolon]) (some (.expression e))

inductive SuperClause : List Token → Option Expr → Prop
  | none : SuperClause [] none
  | some {less name : Token} (site : Site) : less.terminal = .symbol .less →
      name.terminal = .identifier → SuperClause [less, name] (some (.variable site name))

abbrev Parameters : List Token → List Token → Prop :=
  CommaList fun ts p => ts = [p] ∧ p.terminal = .identifier

/-- The rules that statements are read by.  A statement is opened if it ends in an `if` without
`else`. -/
inductive Rule where
  | statement (opened : Bool)
  | declaration
  | declarations
  | function
  | functions

abbrev Rule.Result : Rule → Type
  | .statement _ => Stmt
  | .declaration => Stmt
  | .declarations => List Stmt
  | .function => FunctionDecl
  | .functions => List FunctionDecl

/-- The tokens can be read by a rule, and stand for what is read. -/
inductive Phrase : (r : Rule) → List Token → r.Result → Prop
  | expression {ts : List Token} {e : Expr} {semicolon : Token} : Expr.Spells .assignment ts e →
      semicolon.terminal = .symbol .semicolon →
      Phrase (.statement false) (ts ++ [semicolon]) (Stmt.expression e)
  | print {word : Token} {ts : List Token} {e : Expr} {semicolon : Token} :
      word.terminal = .keyword .print → Expr.Spells .assignment ts e →
      semicolon.terminal = .symbol .semicolon →
      Phrase (.statement false) (word :: (ts ++ [semicolon])) (Stmt.print e)
  | return {word : Token} {ts : List Token} {value : Option Expr} {semicolon : Token} :
      word.terminal = .keyword .return → OptionalExpr ts value →
      semicolon.terminal = .symbol .semicolon →
      Phrase (.statement false) (word :: (ts ++ [semicolon])) (Stmt.return word value)
  | block {left : Token} {ts : List Token} {body : List Stmt} {right : Token} :
      left.terminal = .symbol .leftBrace → Phrase .declarations ts body →
      right.terminal = .symbol .rightBrace →
      Phrase (.statement false) (left :: (ts ++ [right])) (Stmt.block body)
  | branch {word left right : Token} {cs ts : List Token} {condition : Expr} {o : Bool}
      {consequence : Stmt} :
      word.terminal = .keyword .if → left.terminal = .symbol .leftParen →
      Expr.Spells .assignment cs condition → right.terminal = .symbol .rightParen →
      Phrase (.statement o) ts consequence →
      Phrase (.statement true) (word :: left :: (cs ++ right :: ts))
        (Stmt.branch condition consequence none)
  | alternative {word left right word' : Token} {cs ts ts' : List Token} {condition : Expr}
      {o : Bool} {consequence alternative : Stmt} :
      word.terminal = .keyword .if → left.terminal = .symbol .leftParen →
      Expr.Spells .assignment cs condition → right.terminal = .symbol .rightParen →
      Phrase (.statement false) ts consequence → word'.terminal = .keyword .else →
      Phrase (.statement o) ts' alternative →
      Phrase (.statement o) (word :: left :: (cs ++ right :: (ts ++ word' :: ts')))
        (Stmt.branch condition consequence (some alternative))
  | while {word left right : Token} {cs ts : List Token} {condition : Expr} {o : Bool}
      {body : Stmt} :
      word.terminal = .keyword .while → left.terminal = .symbol .leftParen →
      Expr.Spells .assignment cs condition → right.terminal = .symbol .rightParen →
      Phrase (.statement o) ts body →
      Phrase (.statement o) (word :: left :: (cs ++ right :: ts)) (Stmt.while condition body)
  | for {word left semicolon right : Token} {is cs ns ts : List Token} {initializer : Option Stmt}
      {condition increment : Option Expr} {o : Bool} {body : Stmt} :
      word.terminal = .keyword .for → left.terminal = .symbol .leftParen →
      FirstClause is initializer → OptionalExpr cs condition →
      semicolon.terminal = .symbol .semicolon → OptionalExpr ns increment →
      right.terminal = .symbol .rightParen → Phrase (.statement o) ts body →
      Phrase (.statement o) (word :: left :: (is ++ (cs ++ semicolon :: (ns ++ right :: ts))))
        (Stmt.forLoop initializer condition increment body)
  | plain {o : Bool} {ts : List Token} {s : Stmt} : Phrase (.statement o) ts s →
      Phrase .declaration ts s
  | var {word : Token} {ts : List Token} {s : Stmt} : word.terminal = .keyword .var →
      VarPhrase ts s → Phrase .declaration (word :: ts) s
  | function {word : Token} {ts : List Token} {d : FunctionDecl} :
      word.terminal = .keyword .fun → Phrase .function ts d →
      Phrase .declaration (word :: ts) (Stmt.function d)
  | class {word name left right : Token} {cs ts : List Token} {superclass : Option Expr}
      {methods : List FunctionDecl} :
      word.terminal = .keyword .class → name.terminal = .identifier → SuperClause cs superclass →
      left.terminal = .symbol .leftBrace → Phrase .functions ts methods →
      right.terminal = .symbol .rightBrace →
      Phrase .declaration (word :: name :: (cs ++ left :: (ts ++ [right])))
        (Stmt.class name superclass methods)
  | nil : Phrase .declarations [] []
  | cons {ts ts' : List Token} {s : Stmt} {ss : List Stmt} : Phrase .declaration ts s →
      Phrase .declarations ts' ss → Phrase .declarations (ts ++ ts') (s :: ss)
  | decl {name left right left' right' : Token} {ps ts parameters : List Token}
      {body : List Stmt} :
      name.terminal = .identifier → left.terminal = .symbol .leftParen →
      Parameters ps parameters → parameters.length ≤ 255 →
      right.terminal = .symbol .rightParen → left'.terminal = .symbol .leftBrace →
      Phrase .declarations ts body → right'.terminal = .symbol .rightBrace →
      Phrase .function (name :: left :: (ps ++ right :: left' :: (ts ++ [right'])))
        (FunctionDecl.mk name parameters body)
  | noMethods : Phrase .functions [] []
  | method {ts ts' : List Token} {d : FunctionDecl} {ds : List FunctionDecl} :
      Phrase .function ts d → Phrase .functions ts' ds → Phrase .functions (ts ++ ts') (d :: ds)

namespace Phrase

theorem declaration_ne_nil {ts : List Token} {s : Stmt} (h : Phrase .declaration ts s) :
    ts ≠ [] := by
  cases h with
  | plain h => cases h <;> simp
  | var => simp
  | function => simp
  | «class» => simp

theorem function_ne_nil {ts : List Token} {d : FunctionDecl} (h : Phrase .function ts d) :
    ts ≠ [] := by
  cases h
  simp

theorem declarations_iff {ts : List Token} {ss : List Stmt} :
    Phrase .declarations ts ss ↔ Sequence (Phrase .declaration) ts ss := by
  refine ⟨fun h => ?_, fun h => ?_⟩
  · induction ss generalizing ts with
    | nil =>
        cases h
        exact .nil
    | cons _ ss ih =>
        cases h with
        | cons first rest => exact .cons first (ih rest)
  · induction h with
    | nil => exact nil
    | cons first _ ih => exact cons first ih

theorem functions_iff {ts : List Token} {ds : List FunctionDecl} :
    Phrase .functions ts ds ↔ Sequence (Phrase .function) ts ds := by
  refine ⟨fun h => ?_, fun h => ?_⟩
  · induction ds generalizing ts with
    | nil =>
        cases h
        exact .nil
    | cons _ ds ih =>
        cases h with
        | method first rest => exact .cons first (ih rest)
  · induction h with
    | nil => exact noMethods
    | cons first _ ih => exact method first ih

end Phrase

/-! ### Phrases without `for` -/

/-- The tokens are how the result of a rule is written, and it has the shape that it requires. -/
def Rule.Written : (r : Rule) → List Token → r.Result → Prop
  | .statement opened, ts, s =>
    s.isPlain ∧ s.opened = opened ∧ Stmt.Shaped s ∧ Fits ts (Stmt.spelling s)
  | .declaration, ts, s => Stmt.Shaped s ∧ Fits ts (Stmt.spelling s)
  | .declarations, ts, ss => Stmt.ShapedAll ss ∧ Fits ts (Stmt.spellingAll ss)
  | .function, ts, d => FunctionDecl.Shaped d ∧ Fits ts (FunctionDecl.spelling d)
  | .functions, ts, ds => Stmt.ShapedMethods ds ∧ Fits ts (Stmt.spellingOfMethods ds)

theorem VarPhrase.written {word : Token} {ts : List Token} {s : Stmt}
    (starts : word.terminal = .keyword .var) (h : VarPhrase ts s) :
    Rule.declaration.Written (word :: ts) s := by
  cases h with
  | none identifier ends =>
      exact ⟨identifier, .cons (Mark.admits_keyword.2 starts)
        (.cons rfl (Fits.one (Mark.admits_symbol.2 ends)))⟩
  | some identifier sign value ends =>
      refine ⟨⟨identifier, value.shaped⟩, .cons (Mark.admits_keyword.2 starts) (.cons rfl ?_)⟩
      exact .cons (Mark.admits_symbol.2 sign) (value.fits.append (.one (Mark.admits_symbol.2 ends)))

/-- Without `for`, what stands for a phrase is how the phrase is written. -/
theorem Phrase.written {r : Rule} {ts : List Token} {a : r.Result} (h : Phrase r ts a)
    (none : ∀ t ∈ ts, t.terminal ≠ .keyword .for) : r.Written ts a := by
  have sub {ts ts' : List Token} (none : ∀ t ∈ ts, t.terminal ≠ .keyword .for)
      (part : ∀ t ∈ ts', t ∈ ts) : ∀ t ∈ ts', t.terminal ≠ .keyword .for :=
    fun t ht => none t (part t ht)
  induction h with
  | expression value ends =>
      exact ⟨rfl, rfl, value.shaped, value.fits.append (.one (Mark.admits_symbol.2 ends))⟩
  | print starts value ends =>
      exact ⟨rfl, rfl, value.shaped, .cons (Mark.admits_keyword.2 starts)
        (value.fits.append (.one (Mark.admits_symbol.2 ends)))⟩
  | «return» starts value ends =>
      cases value with
      | none => exact ⟨rfl, rfl, starts, .cons rfl (Fits.one (Mark.admits_symbol.2 ends))⟩
      | some value =>
          exact ⟨rfl, rfl, ⟨starts, value.shaped⟩, .cons rfl
            (value.fits.append (.one (Mark.admits_symbol.2 ends)))⟩
  | block opens _ closes ih =>
      obtain ⟨shaped, fits⟩ := ih (sub none (by simp +contextual))
      exact ⟨rfl, rfl, shaped, .cons (Mark.admits_symbol.2 opens)
        (fits.append (.one (Mark.admits_symbol.2 closes)))⟩
  | branch starts opens condition closes _ ih =>
      obtain ⟨plain, -, shaped, fits⟩ := ih (sub none (by simp +contextual))
      exact ⟨rfl, rfl, ⟨condition.shaped, plain, shaped⟩, .cons (Mark.admits_keyword.2 starts)
        (.cons (Mark.admits_symbol.2 opens) (condition.fits.append
          (.cons (Mark.admits_symbol.2 closes) fits)))⟩
  | alternative starts opens condition closes _ word _ ih ih' =>
      obtain ⟨plain, closed, shaped, fits⟩ := ih (sub none (by simp +contextual))
      obtain ⟨plain', opened, shaped', fits'⟩ := ih' (sub none (by simp +contextual))
      exact ⟨rfl, opened, ⟨condition.shaped, plain, shaped, closed, plain', shaped'⟩,
        .cons (Mark.admits_keyword.2 starts) (.cons (Mark.admits_symbol.2 opens)
          (condition.fits.append (.cons (Mark.admits_symbol.2 closes)
            (fits.append (.cons (Mark.admits_keyword.2 word) fits')))))⟩
  | «while» starts opens condition closes _ ih =>
      obtain ⟨plain, opened, shaped, fits⟩ := ih (sub none (by simp +contextual))
      exact ⟨rfl, opened, ⟨condition.shaped, plain, shaped⟩, .cons (Mark.admits_keyword.2 starts)
        (.cons (Mark.admits_symbol.2 opens) (condition.fits.append
          (.cons (Mark.admits_symbol.2 closes) fits)))⟩
  | «for» starts => exact absurd starts (none _ (by simp))
  | plain _ ih =>
      obtain ⟨-, -, shaped, fits⟩ := ih none
      exact ⟨shaped, fits⟩
  | var starts rest => exact rest.written starts
  | function starts _ ih =>
      obtain ⟨shaped, fits⟩ := ih (sub none (by simp +contextual))
      exact ⟨shaped, .cons (Mark.admits_keyword.2 starts) fits⟩
  | «class» starts identifier clause opens _ closes ih =>
      obtain ⟨shaped, fits⟩ := ih (sub none (by simp +contextual))
      have body := Fits.cons (Mark.admits_symbol.2 opens)
        (fits.append (.one (Mark.admits_symbol.2 closes)))
      cases clause with
      | none => exact ⟨⟨identifier, shaped⟩, .cons (Mark.admits_keyword.2 starts) (.cons rfl body)⟩
      | some _ less superName =>
          exact ⟨⟨identifier, rfl, superName, shaped⟩, .cons (Mark.admits_keyword.2 starts)
            (.cons rfl (.cons (Mark.admits_symbol.2 less) (.cons rfl body)))⟩
  | nil => exact ⟨trivial, .nil⟩
  | cons _ _ ih ih' =>
      obtain ⟨shaped, fits⟩ := ih (sub none (by simp +contextual))
      obtain ⟨shaped', fits'⟩ := ih' (sub none (by simp +contextual))
      exact ⟨⟨shaped, shaped'⟩, fits.append fits'⟩
  | decl identifier opens given few closes opens' _ closes' ih =>
      obtain ⟨shaped, fits⟩ := ih (sub none (by simp +contextual))
      have names := given.fits (f := fun p => [.token p]) fun ts p h => by
        rw [h.1]
        exact .token p
      exact ⟨⟨identifier, few, given.forall_mem fun _ _ h => h.2, shaped⟩, .cons rfl
        (.cons (Mark.admits_symbol.2 opens) (names.append (.cons (Mark.admits_symbol.2 closes)
          (.cons (Mark.admits_symbol.2 opens') (fits.append
            (.one (Mark.admits_symbol.2 closes')))))))⟩
  | noMethods => exact ⟨trivial, .nil⟩
  | method _ _ ih ih' =>
      obtain ⟨shaped, fits⟩ := ih (sub none (by simp +contextual))
      obtain ⟨shaped', fits'⟩ := ih' (sub none (by simp +contextual))
      exact ⟨⟨shaped, shaped'⟩, fits.append fits'⟩

theorem Expr.spells {e : Expr} {ts : List Token} (shaped : e.Shaped) (fits : Fits ts e.spelling) :
    Expr.Spells .assignment ts e :=
  ⟨shaped, Nat.zero_le _, fits⟩

/-- The tokens stand for a declaration, and for a statement if it is one. -/
structure Stmt.ReadFrom (ts : List Token) (s : Stmt) : Prop where
  statement : s.isPlain → Phrase (.statement s.opened) ts s
  declaration : Phrase .declaration ts s

theorem Phrase.readFrom {o : Bool} {ts : List Token} {s : Stmt} (h : Phrase (.statement o) ts s)
    (opened : s.opened = o) : Stmt.ReadFrom ts s :=
  ⟨fun _ => opened ▸ h, h.plain⟩

mutual

/-- How a shaped statement is written stands for it. -/
theorem Stmt.Shaped.readFrom : ∀ {s : Stmt}, s.Shaped → ∀ {ts : List Token},
    Fits ts s.spelling → Stmt.ReadFrom ts s
  | .expression _, shaped, _, fits => by
    obtain ⟨ts, semicolon, rfl, value, ends⟩ := fits.exists_of_concat
    exact (Phrase.expression (Expr.spells shaped value) (Mark.admits_symbol.1 ends)).readFrom rfl
  | .print _, shaped, _, fits => by
    obtain ⟨word, _, rfl, starts, fits⟩ := fits.exists_of_cons
    obtain ⟨ts, semicolon, rfl, value, ends⟩ := fits.exists_of_concat
    exact (Phrase.print (Mark.admits_keyword.1 starts) (Expr.spells shaped value)
      (Mark.admits_symbol.1 ends)).readFrom rfl
  | .var _ none, shaped, _, fits => by
    obtain ⟨word, _, rfl, starts, fits⟩ := fits.exists_of_cons
    obtain ⟨_, rfl, rest⟩ := fits.exists_of_token
    obtain ⟨semicolon, _, rfl, ends, fits⟩ := rest.exists_of_cons
    rw [fits.eq_nil]
    exact ⟨fun plain => (Bool.false_ne_true plain).elim,
      .var (Mark.admits_keyword.1 starts) (.none shaped (Mark.admits_symbol.1 ends))⟩
  | .var _ (some _), shaped, _, fits => by
    obtain ⟨word, _, rfl, starts, fits⟩ := fits.exists_of_cons
    obtain ⟨_, rfl, rest⟩ := fits.exists_of_token
    obtain ⟨equals, _, rfl, sign, fits⟩ := rest.exists_of_cons
    obtain ⟨ts, semicolon, rfl, value, ends⟩ := fits.exists_of_concat
    exact ⟨fun plain => (Bool.false_ne_true plain).elim, .var (Mark.admits_keyword.1 starts)
      (.some shaped.1 (Mark.admits_symbol.1 sign) (Expr.spells shaped.2 value)
        (Mark.admits_symbol.1 ends))⟩
  | .block _, shaped, _, fits => by
    obtain ⟨left, _, rfl, opens, fits⟩ := fits.exists_of_cons
    obtain ⟨ts, right, rfl, body, closes⟩ := fits.exists_of_concat
    exact (Phrase.block (Mark.admits_symbol.1 opens) (Stmt.ShapedAll.phrase shaped body)
      (Mark.admits_symbol.1 closes)).readFrom rfl
  | .branch _ _ none, shaped, _, fits => by
    obtain ⟨word, _, rfl, starts, fits⟩ := fits.exists_of_cons
    obtain ⟨left, _, rfl, opens, fits⟩ := fits.exists_of_cons
    obtain ⟨cs, _, rfl, condition, fits⟩ := fits.exists_of_append
    obtain ⟨right, ts, rfl, closes, body⟩ := fits.exists_of_cons
    obtain ⟨shaped, plain, shaped'⟩ := shaped
    exact (Phrase.branch (Mark.admits_keyword.1 starts) (Mark.admits_symbol.1 opens)
      (Expr.spells shaped condition) (Mark.admits_symbol.1 closes)
      ((Stmt.Shaped.readFrom shaped' body).statement plain)).readFrom rfl
  | .branch _ consequence (some _), shaped, _, fits => by
    obtain ⟨word, _, rfl, starts, fits⟩ := fits.exists_of_cons
    obtain ⟨left, _, rfl, opens, fits⟩ := fits.exists_of_cons
    obtain ⟨cs, _, rfl, condition, fits⟩ := fits.exists_of_append
    obtain ⟨right, _, rfl, closes, fits⟩ := fits.exists_of_cons
    obtain ⟨ts, _, rfl, first, fits⟩ := fits.exists_of_append
    obtain ⟨word', ts', rfl, between, second⟩ := fits.exists_of_cons
    obtain ⟨shaped, plain, shaped₁, closed, plain', shaped₂⟩ := shaped
    have consequence := (Stmt.Shaped.readFrom shaped₁ first).statement plain
    rw [closed] at consequence
    exact (Phrase.alternative (Mark.admits_keyword.1 starts) (Mark.admits_symbol.1 opens)
      (Expr.spells shaped condition) (Mark.admits_symbol.1 closes) consequence
      (Mark.admits_keyword.1 between)
      ((Stmt.Shaped.readFrom shaped₂ second).statement plain')).readFrom rfl
  | .while _ _, shaped, _, fits => by
    obtain ⟨word, _, rfl, starts, fits⟩ := fits.exists_of_cons
    obtain ⟨left, _, rfl, opens, fits⟩ := fits.exists_of_cons
    obtain ⟨cs, _, rfl, condition, fits⟩ := fits.exists_of_append
    obtain ⟨right, ts, rfl, closes, body⟩ := fits.exists_of_cons
    obtain ⟨shaped, plain, shaped'⟩ := shaped
    exact (Phrase.while (Mark.admits_keyword.1 starts) (Mark.admits_symbol.1 opens)
      (Expr.spells shaped condition) (Mark.admits_symbol.1 closes)
      ((Stmt.Shaped.readFrom shaped' body).statement plain)).readFrom rfl
  | .function _, shaped, _, fits => by
    obtain ⟨word, ts, rfl, starts, fits⟩ := fits.exists_of_cons
    exact ⟨fun plain => (Bool.false_ne_true plain).elim,
      .function (Mark.admits_keyword.1 starts) (FunctionDecl.Shaped.phrase shaped fits)⟩
  | .return _ none, shaped, _, fits => by
    obtain ⟨_, rfl, rest⟩ := fits.exists_of_token
    obtain ⟨semicolon, _, rfl, ends, fits⟩ := rest.exists_of_cons
    rw [fits.eq_nil]
    exact (Phrase.return shaped .none (Mark.admits_symbol.1 ends)).readFrom rfl
  | .return _ (some _), shaped, _, fits => by
    obtain ⟨_, rfl, rest⟩ := fits.exists_of_token
    obtain ⟨ts, semicolon, rfl, value, ends⟩ := rest.exists_of_concat
    exact (Phrase.return shaped.1 (.some (Expr.spells shaped.2 value))
      (Mark.admits_symbol.1 ends)).readFrom rfl
  | .class _ none _, shaped, _, fits => by
    obtain ⟨word, _, rfl, starts, fits⟩ := fits.exists_of_cons
    obtain ⟨_, rfl, rest⟩ := fits.exists_of_token
    obtain ⟨left, _, rfl, opens, fits⟩ := rest.exists_of_cons
    obtain ⟨ts, right, rfl, body, closes⟩ := fits.exists_of_concat
    exact ⟨fun plain => (Bool.false_ne_true plain).elim,
      .class (Mark.admits_keyword.1 starts) shaped.1 .none (Mark.admits_symbol.1 opens)
        (Stmt.ShapedMethods.phrase shaped.2 body) (Mark.admits_symbol.1 closes)⟩
  | .class _ (some superclass) _, shaped, _, fits => by
    obtain ⟨word, _, rfl, starts, fits⟩ := fits.exists_of_cons
    obtain ⟨_, rfl, rest⟩ := fits.exists_of_token
    obtain ⟨less, _, rfl, derived, fits⟩ := rest.exists_of_cons
    obtain ⟨ss, _, rfl, parent, fits⟩ := fits.exists_of_append
    obtain ⟨left, _, rfl, opens, fits⟩ := fits.exists_of_cons
    obtain ⟨ts, right, rfl, body, closes⟩ := fits.exists_of_concat
    obtain ⟨identifier, named, shaped, methods⟩ := shaped
    cases superclass with
    | «variable» site superName =>
        obtain ⟨_, rfl, nothing⟩ := parent.exists_of_token
        rw [nothing.eq_nil]
        exact ⟨fun plain => (Bool.false_ne_true plain).elim,
          .class (Mark.admits_keyword.1 starts) identifier
            (.some site (Mark.admits_symbol.1 derived) shaped) (Mark.admits_symbol.1 opens)
            (Stmt.ShapedMethods.phrase methods body) (Mark.admits_symbol.1 closes)⟩
    | _ => exact (Bool.false_ne_true named).elim

theorem Stmt.ShapedAll.phrase : ∀ {ss : List Stmt}, Stmt.ShapedAll ss → ∀ {ts : List Token},
    Fits ts (Stmt.spellingAll ss) → Phrase .declarations ts ss
  | [], _, _, fits => by
    rw [fits.eq_nil]
    exact .nil
  | _ :: _, shaped, _, fits => by
    obtain ⟨ts, ts', rfl, first, rest⟩ := fits.exists_of_append
    exact .cons (Stmt.Shaped.readFrom shaped.1 first).declaration
      (Stmt.ShapedAll.phrase shaped.2 rest)

theorem Stmt.ShapedMethods.phrase : ∀ {ds : List FunctionDecl}, Stmt.ShapedMethods ds →
    ∀ {ts : List Token}, Fits ts (Stmt.spellingOfMethods ds) → Phrase .functions ts ds
  | [], _, _, fits => by
    rw [fits.eq_nil]
    exact .noMethods
  | _ :: _, shaped, _, fits => by
    obtain ⟨ts, ts', rfl, first, rest⟩ := fits.exists_of_append
    exact .method (FunctionDecl.Shaped.phrase shaped.1 first)
      (Stmt.ShapedMethods.phrase shaped.2 rest)

theorem FunctionDecl.Shaped.phrase : ∀ {d : FunctionDecl}, d.Shaped → ∀ {ts : List Token},
    Fits ts d.spelling → Phrase .function ts d
  | ⟨_, _, _⟩, shaped, _, fits => by
    obtain ⟨_, rfl, rest⟩ := fits.exists_of_token
    obtain ⟨left, _, rfl, opens, fits⟩ := rest.exists_of_cons
    obtain ⟨ps, _, rfl, given, fits⟩ := fits.exists_of_append
    obtain ⟨right, _, rfl, closes, fits⟩ := fits.exists_of_cons
    obtain ⟨left', _, rfl, opens', fits⟩ := fits.exists_of_cons
    obtain ⟨ts, right', rfl, body, closes'⟩ := fits.exists_of_concat
    obtain ⟨identifier, few, named, shaped⟩ := shaped
    refine .decl identifier (Mark.admits_symbol.1 opens) (CommaList.of_fits given ?_) few
      (Mark.admits_symbol.1 closes) (Mark.admits_symbol.1 opens')
      (Stmt.ShapedAll.phrase shaped body) (Mark.admits_symbol.1 closes')
    intro p hp ts fits
    obtain ⟨_, rfl, rest⟩ := fits.exists_of_token
    rw [rest.eq_nil]
    exact ⟨rfl, named _ hp⟩

end

end Lox
