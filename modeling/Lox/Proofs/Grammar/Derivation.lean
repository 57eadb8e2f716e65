import Lox.Proofs.Grammar.Composition
import Lox.Proofs.Grammar.Ebnf

/-!
# Deriving phrases

What stands for a phrase can be derived by the rules of the grammar (`Phrase.derivable`).

Where expressions group to the left, the first operand and the steps behind it
(`Expr.Spells.spine`) are those of the rule.  The proof for expressions is by induction on the
number of tokens: what holds of expressions in parentheses and of arguments up to `n` tokens
(`Expr.DerivableUpTo`) gives it for one more token at the tightest level, and from there for each
looser one.
-/

namespace Lox

open Ebnf

/-- The tokens can be derived, with at most 255 entries in a list. -/
abbrev Derivable (a : Ebnf Nonterminal) (ts : List Token) : Prop := Matches limitedGrammar a ts

def Level.nonterminal : Level → Nonterminal
  | .assignment => .assignment
  | .disjunction => .logicOr
  | .conjunction => .logicAnd
  | .equality => .equality
  | .comparison => .comparison
  | .term => .term
  | .factor => .factor
  | .unary => .unary
  | .call => .call
  | .primary => .primary

/-- The rules for the levels that group to the left are alike. -/
theorem Level.exists_grouping {l : Level} (above : .disjunction ≤ l) (below : l ≤ .factor) :
    ∃ k ks, limitedGrammar l.nonterminal = .seq (.rule l.next.nonterminal)
        (.star (.seq (oneOf k ks) (.rule l.next.nonterminal))) ∧
      ∀ k' : Terminal, k' ∈ k :: ks ↔ k'.level? = some l := by
  have operators (k : Terminal) (ks : List Terminal) (perm : (k :: ks).Perm l.operators)
      (k' : Terminal) : k' ∈ k :: ks ↔ k'.level? = some l :=
    perm.mem_iff.trans (Level.mem_operators above below)
  cases l
  case disjunction => exact ⟨_, [], rfl, operators (.keyword .or) [] (.refl _)⟩
  case conjunction => exact ⟨_, [], rfl, operators (.keyword .and) [] (.refl _)⟩
  case equality => exact ⟨_, _, rfl, operators _ _ (.refl _)⟩
  case comparison => exact ⟨_, _, rfl, operators _ _ (.refl _)⟩
  case term => exact ⟨_, _, rfl, operators _ _ (.refl _)⟩
  case factor => exact ⟨_, _, rfl, operators _ _ (.swap _ _ _)⟩
  all_goals first | exact absurd above (by decide) | exact absurd below (by decide)

/-! ### Lists with commas -/

section Lists

variable {P : List Token → α → Prop} {ts : List Token} {a : α} {as : List α}

def CommaItem (P : List Token → α → Prop) (p : List Token) : Prop :=
  ∃ comma ts a, p = comma :: ts ∧ comma.terminal = .symbol .comma ∧ P ts a

theorem CommaList.imp {Q : List Token → α → Prop} (h : CommaList P ts as)
    (hPQ : ∀ ts' a, ts'.length ≤ ts.length → P ts' a → Q ts' a) : CommaList Q ts as := by
  induction h with
  | nil => exact .nil
  | one first => exact .one (hPQ _ _ (Nat.le_refl _) first)
  | cons first comma _ ih =>
      simp only [List.length_append, List.length_cons] at hPQ
      exact .cons (hPQ _ _ (by omega) first) comma (ih fun ts' a short => hPQ ts' a (by omega))

theorem CommaList.exists_parts (h : CommaList P ts (a :: as)) :
    ∃ (ts₁ : List Token) (parts : List (List Token)), ts = ts₁ ++ parts.flatten ∧ P ts₁ a ∧
      parts.length = as.length ∧ ∀ p ∈ parts, CommaItem P p := by
  induction as generalizing ts a with
  | nil =>
      cases h with
      | one first => exact ⟨ts, [], by simp, first, rfl, List.forall_mem_nil _⟩
  | cons b as ih =>
      cases h with
      | @cons ts₁ ts' comma _ _ _ first mark rest =>
          obtain ⟨ts₂, parts, rfl, second, count, all⟩ := ih rest
          exact ⟨ts₁, (comma :: ts₂) :: parts, by simp, first, by simp [count],
            List.forall_mem_cons.2 ⟨⟨comma, ts₂, b, rfl, mark, second⟩, all⟩⟩

theorem CommaList.of_parts {ts₁ : List Token} {parts : List (List Token)} (first : P ts₁ a)
    (all : ∀ p ∈ parts, CommaItem P p) :
    ∃ as, as.length = parts.length ∧ CommaList P (ts₁ ++ parts.flatten) (a :: as) := by
  induction parts generalizing ts₁ a with
  | nil => exact ⟨[], rfl, by simpa using .one first⟩
  | cons p parts ih =>
      obtain ⟨⟨comma, ts', b, rfl, mark, second⟩, others⟩ := List.forall_mem_cons.1 all
      obtain ⟨as, count, rest⟩ := ih second others
      exact ⟨b :: as, by simp [count], by simpa using .cons first mark rest⟩

theorem Ebnf.Matches.upTo {g : N → Ebnf N} {a : Ebnf N} {parts : List (List Token)} {most : Nat}
    (all : ∀ p ∈ parts, Matches g a p) (few : parts.length ≤ most) :
    Matches g (.upTo most a) parts.flatten := by
  induction parts generalizing most with
  | nil => exact .upToNil
  | cons p parts ih =>
      obtain ⟨first, others⟩ := List.forall_mem_cons.1 all
      cases most with
      | zero => exact absurd few (Nat.not_succ_le_zero _)
      | succ most => exact first.upToCons (ih others (Nat.le_of_succ_le_succ few))

/-- A list with at most 255 entries, or none. -/
theorem CommaList.derivable {n : Nonterminal} {entry : Ebnf Nonterminal}
    (rule : limitedGrammar n = .seq entry (.upTo 254 (.seq (symbol .comma) entry)))
    (h : CommaList P ts as) (few : as.length ≤ 255)
    (item : ∀ ts' a, ts'.length ≤ ts.length → P ts' a → Derivable entry ts') :
    Derivable (.option (.rule n)) ts := by
  cases as with
  | nil =>
      cases h
      exact .none
  | cons a as =>
      have derived := h.imp (Q := fun ts' _ => Derivable entry ts') item
      obtain ⟨ts₁, parts, rfl, first, count, all⟩ := derived.exists_parts
      refine .some (.rule ?_)
      rw [rule]
      refine first.seq (Matches.upTo (fun p hp => ?_) (by simp at few; omega))
      obtain ⟨comma, ts', b, rfl, mark, one⟩ := all p hp
      exact .first mark one

end Lists

/-! ### From phrases to derivations -/

namespace Expr

/-- Expressions of a level that consist of at most `n` tokens can be derived. -/
def DerivableUpTo (n : Nat) (l : Level) : Prop :=
  ∀ ⦃ts e⦄, Spells l ts e → ts.length ≤ n → Derivable (.rule l.nonterminal) ts

variable {n : Nat} {l : Level}

theorem derivable_primary (h : DerivableUpTo n .assignment) : DerivableUpTo (n + 1) .primary := by
  intro ts e spells fits
  refine .rule ?_
  cases spells.composed_of_primary with
  | @literal t value kind =>
      refine .left (Matches.oneOf ?_)
      rw [Token.terminal, kind]
      rcases value with _ | (_ | _) | _ | _ <;> simp [Literal.kind, Kind.terminal]
  | @grouping left right ts e opens inner closes =>
      have short : ts.length ≤ n := by simp at fits; omega
      exact .right (.left (Matches.first opens
        (Matches.seq (Derives.rule (h inner short)) (Matches.token closes))))
  | «variable» identifier => exact .left (Matches.oneOf (by simp [identifier]))
  | this word => exact .left (Matches.oneOf (by simp [word]))
  | «super» word mark identifier =>
      exact .right (.right (Matches.first word (Matches.first mark (Matches.token identifier))))
  | binary _ _ below => exact absurd below (by decide)
  | logical _ _ below => exact absurd below (by decide)

theorem derivable_call (h : DerivableUpTo n .assignment) : DerivableUpTo (n + 1) .call := by
  intro ts e spells fits
  obtain ⟨ts₁, a, ts₂, rfl, first, tail⟩ := spells.call_spine
  obtain ⟨t, ts₃, k, rfl, -⟩ := first.head
  simp only [List.length_append, List.length_cons] at fits
  refine .rule (Matches.seq (derivable_primary h first (by rw [List.length_cons]; omega)) ?_)
  have short : ts₂.length ≤ n := by omega
  clear first spells fits
  induction tail with
  | nil => exact .starNil
  | cons grows _ ih =>
      rw [List.length_append] at short
      refine Matches.starCons ?_ (ih (by omega))
      cases grows with
      | call opens given few closes =>
          refine .left (Matches.first opens (Matches.seq ?_ (Matches.token closes)))
          refine given.derivable (n := .arguments) rfl few fun ts' e short' spells => .rule ?_
          exact h spells (by simp at short; omega)
      | get mark identifier => exact .right (Matches.first mark (Matches.token identifier))

theorem derivable_unary (h : DerivableUpTo n .assignment) : DerivableUpTo (n + 1) .unary := by
  intro ts e spells fits
  obtain ⟨os, ts', a, rfl, operators, operand, rfl⟩ := spells.exists_operators
  have call := derivable_call h operand (by simp at fits; omega)
  clear spells fits
  induction os with
  | nil => exact .rule (.right call)
  | cons o os ih =>
      obtain ⟨first, others⟩ := List.forall_mem_cons.1 operators
      exact .rule (.left (Matches.operator first (ih others)))

theorem derivable_grouped {build : Expr → Token → Expr → Expr} (above : .disjunction ≤ l)
    (below : l ≤ .factor) (h : DerivableUpTo n l.next)
    (spine : ∀ ⦃ts e⦄, Spells l ts e → ∃ ts₁ a ts₂, ts = ts₁ ++ ts₂ ∧ Spells l.next ts₁ a ∧
      Tail (Grouped l build) a ts₂ e) : DerivableUpTo n l := by
  intro ts e spells fits
  obtain ⟨k, ks, rule, operators⟩ := Level.exists_grouping above below
  obtain ⟨ts₁, a, ts₂, rfl, first, tail⟩ := spine spells
  rw [List.length_append] at fits
  refine .rule ?_
  rw [rule]
  refine Matches.seq (h first (by omega)) ?_
  have short : ts₂.length ≤ n := by omega
  clear first spells fits
  induction tail with
  | nil => exact .starNil
  | cons grows _ ih =>
      rw [List.length_append] at short
      refine Matches.starCons ?_ (ih (by omega))
      cases grows with
      | intro operator right =>
          exact Matches.operator ((operators _).2 operator) (h right (by simp at short; omega))

theorem derivable_disjunction (h : DerivableUpTo n .assignment) :
    DerivableUpTo (n + 1) .disjunction := by
  have binary {l : Level} (above : .equality ≤ l) (below : l ≤ .factor)
      (h : DerivableUpTo (n + 1) l.next) : DerivableUpTo (n + 1) l :=
    derivable_grouped (Nat.le_trans (by decide) above) below h fun _ _ =>
      Spells.binary_spine above below
  have logical {l : Level} (above : .disjunction ≤ l) (below : l ≤ .conjunction)
      (h : DerivableUpTo (n + 1) l.next) : DerivableUpTo (n + 1) l :=
    derivable_grouped above (Nat.le_trans below (by decide)) h fun _ _ =>
      Spells.logical_spine above below
  have factor := binary (l := .factor) (by decide) (by decide) (derivable_unary h)
  have term := binary (l := .term) (by decide) (by decide) factor
  have comparison := binary (l := .comparison) (by decide) (by decide) term
  have equality := binary (l := .equality) (by decide) (by decide) comparison
  have conjunction := logical (l := .conjunction) (by decide) (by decide) equality
  exact logical (by decide) (by decide) conjunction

theorem derivable_assignment (n : Nat) : DerivableUpTo n .assignment := by
  induction n with
  | zero =>
      intro ts e spells fits
      obtain ⟨t, ts, k, rfl, -⟩ := spells.head
      exact absurd fits (Nat.not_succ_le_zero _)
  | succ n h =>
      intro ts e spells fits
      refine .rule ?_
      rcases spells.next_or_composed with spells | composed
      · exact .right (derivable_disjunction h spells fits)
      · cases composed with
        | assign identifier sign value =>
            refine .left (Matches.without ?_)
            exact .first identifier (.first sign (h value (by simp at fits; omega)))
        | @set dot name equals ts ts' a b object mark identifier sign value =>
            have target := derivable_call h object (by simp at fits; omega)
            have rest := Matches.first identifier (.first sign (h value (by simp at fits; omega)))
            have split : ts ++ dot :: name :: equals :: ts' =
                (ts ++ [dot]) ++ name :: equals :: ts' := by simp
            rw [split]
            exact .left (Matches.seq (.some (Matches.seq target (.token mark))) rest)
        | binary _ above => exact absurd above (by decide)
        | logical _ above => exact absurd above (by decide)

theorem Spells.derivable {ts : List Token} {e : Expr} (h : Spells .assignment ts e) :
    Derivable (.rule .expression) ts :=
  .rule (derivable_assignment ts.length h (Nat.le_refl _))

end Expr

theorem OptionalExpr.derivable {ts : List Token} {o : Option Expr} (h : OptionalExpr ts o) :
    Derivable (.option (.rule .expression)) ts := by
  cases h with
  | none => exact .none
  | some spells => exact .some spells.derivable

theorem VarPhrase.derivable {word : Token} {ts : List Token} {s : Stmt}
    (starts : word.terminal = .keyword .var) (h : VarPhrase ts s) :
    Derivable (.rule .varDecl) (word :: ts) := by
  refine .rule (Matches.first starts ?_)
  cases h with
  | none identifier ends =>
      exact Matches.first identifier (Matches.without (.token ends))
  | some identifier sign value ends =>
      exact Matches.first identifier
        (Matches.seq (.some (Matches.first sign value.derivable)) (.token ends))

/-- What a rule for statements reads, as the right side of a rule. -/
def Rule.derived : Rule → Ebnf Nonterminal
  | .statement _ => .rule .statement
  | .declaration => .rule .declaration
  | .declarations => .star (.rule .declaration)
  | .function => .rule .function
  | .functions => .star (.rule .function)

theorem Derivable.statement {n : Nonterminal} {ts : List Token} (h : Derivable (.rule n) ts)
    (one : n ∈ [.exprStmt, .forStmt, .ifStmt, .printStmt, .returnStmt, .whileStmt, .block]) :
    Derivable (.rule .statement) ts := by
  simp only [List.mem_cons, List.not_mem_nil, or_false] at one
  rcases one with rfl | rfl | rfl | rfl | rfl | rfl | rfl
  · exact .rule (.left h)
  · exact .rule (.right (.left h))
  · exact .rule (.right (.right (.left h)))
  · exact .rule (.right (.right (.right (.left h))))
  · exact .rule (.right (.right (.right (.right (.left h)))))
  · exact .rule (.right (.right (.right (.right (.right (.left h))))))
  · exact .rule (.right (.right (.right (.right (.right (.right h))))))

namespace Phrase

/-- The tokens of a phrase can be derived. -/
theorem derivable {r : Rule} {ts : List Token} {a : r.Result} (h : Phrase r ts a) :
    Derivable r.derived ts := by
  induction h with
  | expression value ends =>
      have derived : Derivable (.rule .exprStmt) _ :=
        .rule (Matches.seq value.derivable (.token ends))
      exact derived.statement (by decide)
  | print starts value ends =>
      have derived : Derivable (.rule .printStmt) _ :=
        .rule (Matches.first starts (.seq value.derivable (.token ends)))
      exact derived.statement (by decide)
  | «return» starts value ends =>
      have derived : Derivable (.rule .returnStmt) _ :=
        .rule (Matches.first starts (.seq value.derivable (.token ends)))
      exact derived.statement (by decide)
  | block opens _ closes ih =>
      have derived : Derivable (.rule .block) _ :=
        .rule (Matches.first opens (.seq ih (.token closes)))
      exact derived.statement (by decide)
  | @branch _ _ _ _ ts _ _ _ starts opens condition closes _ ih =>
      have rest : Derivable (.seq (.rule .statement)
          (.option (.seq (Ebnf.word .else) (.rule .statement)))) (ts ++ []) :=
        Matches.seq ih .none
      rw [List.append_nil] at rest
      have derived : Derivable (.rule .ifStmt) _ :=
        .rule (Matches.first starts (.first opens (.seq condition.derivable (.first closes rest))))
      exact derived.statement (by decide)
  | alternative starts opens condition closes _ between _ ih ih' =>
      have derived : Derivable (.rule .ifStmt) _ :=
        .rule (Matches.first starts (.first opens (.seq condition.derivable (.first closes
          (.seq ih (.some (Matches.first between ih')))))))
      exact derived.statement (by decide)
  | «while» starts opens condition closes _ ih =>
      have derived : Derivable (.rule .whileStmt) _ :=
        .rule (Matches.first starts (.first opens (.seq condition.derivable (.first closes ih))))
      exact derived.statement (by decide)
  | @«for» _ _ _ _ is _ _ _ _ _ _ _ _ starts opens first second ends third closes _ ih =>
      have clause : Derivable
          (.alt (.rule .varDecl) (.alt (.rule .exprStmt) (symbol .semicolon))) is := by
        cases first with
        | none mark => exact .right (.right (Matches.token mark))
        | var word clause => exact .left (clause.derivable word)
        | expression value mark =>
            exact .right (.left (.rule (Matches.seq value.derivable (.token mark))))
      have derived : Derivable (.rule .forStmt) _ :=
        .rule (Matches.first starts (.first opens (.seq clause (.seq second.derivable
          (.first ends (.seq third.derivable (.first closes ih)))))))
      exact derived.statement (by decide)
  | plain _ ih => exact .rule (.right (.right (.right ih)))
  | var starts clause => exact .rule (.right (.right (.left (clause.derivable starts))))
  | function starts _ ih => exact .rule (.right (.left (.rule (Matches.first starts ih))))
  | «class» starts identifier clause opens _ closes ih =>
      refine .rule (.left (.rule (Matches.first starts (.first identifier (.seq ?_ (.first opens
        (.seq ih (.token closes))))))))
      cases clause with
      | none => exact .none
      | some _ mark parent => exact .some (Matches.first mark (.token parent))
  | nil => exact .starNil
  | cons _ _ ih ih' => exact Matches.starCons ih ih'
  | decl identifier opens given few closes opens' _ closes' ih =>
      refine .rule (Matches.first identifier (.first opens (.seq ?_ (.first closes (.rule
        (Matches.first opens' (.seq ih (.token closes'))))))))
      refine given.derivable (n := .parameters) rfl few ?_
      rintro _ p - ⟨rfl, identifier⟩
      exact Matches.token identifier
  | noMethods => exact .starNil
  | method _ _ ih ih' => exact Matches.starCons ih ih'

end Phrase

end Lox
