import Lox.Proofs.Grammar.Shape

/-!
# How expressions are composed

`Expr.Composed` says how the tokens of an expression are made up of those of its parts.  Where a
rule groups to the left, the first operand comes first and the expression grows from it step by
step: `Expr.Spells.spine` turns the tree around, from its root at the last operator to a `Tail` of
steps.

The first token of an expression tells that it is one (`Expr.Spells.head`).
-/

namespace Lox

def Level.next : Level → Level
  | .assignment => .disjunction
  | .disjunction => .conjunction
  | .conjunction => .equality
  | .equality => .comparison
  | .comparison => .term
  | .term => .factor
  | .factor => .unary
  | .unary => .call
  | .call => .primary
  | .primary => .primary

theorem Level.next_le {l l' : Level} (h : l < l') : l.next ≤ l' := by
  cases l <;> cases l' <;> first | decide | exact absurd h (by decide)

theorem Level.lt_next {l l' : Level} (h : l < l') : l < l.next := by
  cases l <;> first | decide | exact absurd h (by cases l' <;> decide)

theorem Level.eq_of_not_lt {l l' : Level} (h : l ≤ l') (h' : ¬l < l') : l' = l := by
  cases l <;> cases l' <;> first
    | rfl
    | exact absurd h (by decide)
    | exact absurd (by decide) h'

/-- The growth of something in steps, each of which takes tokens. -/
inductive Tail (step : α → List Token → α → Prop) : α → List Token → α → Prop
  | nil (a : α) : Tail step a [] a
  | cons {a b c : α} {ts ts' : List Token} : step a ts b → Tail step b ts' c →
      Tail step a (ts ++ ts') c

theorem Tail.snoc {step : α → List Token → α → Prop} {a b c : α} {ts ts' : List Token}
    (h : Tail step a ts b) (last : step b ts' c) : Tail step a (ts ++ ts') c := by
  induction h with
  | nil => simpa using cons last (nil c)
  | cons first _ ih =>
      rw [List.append_assoc]
      exact cons first (ih last)

section Lists

variable {P : List Token → α → Prop}

def Appended (P : List Token → α → Prop) (found : List α) (ts : List Token) (found' : List α) :
    Prop :=
  ∃ a, P ts a ∧ found' = found ++ [a]

theorem Sequence.tail {ts : List Token} {as : List α} (h : Sequence P ts as) (found : List α) :
    Tail (Appended P) found ts (found ++ as) := by
  induction h generalizing found with
  | nil => simpa using Tail.nil found
  | @cons _ _ a as first _ ih =>
      have rest := ih (found ++ [a])
      rw [List.append_assoc] at rest
      exact .cons ⟨a, first, rfl⟩ rest

def CommaAppended (P : List Token → α → Prop) (found : List α) (ts : List Token)
    (found' : List α) : Prop :=
  found.length < 255 ∧ ∃ comma ts' a, ts = comma :: ts' ∧ comma.terminal = .symbol .comma ∧
    P ts' a ∧ found' = found ++ [a]

theorem CommaList.exists_tail {ts : List Token} {a : α} {as : List α}
    (h : CommaList P ts (a :: as)) (found : List α) (few : (found ++ a :: as).length ≤ 255) :
    ∃ ts₁ ts₂, ts = ts₁ ++ ts₂ ∧ P ts₁ a ∧
      Tail (CommaAppended P) (found ++ [a]) ts₂ (found ++ a :: as) := by
  induction as generalizing ts a found with
  | nil =>
      cases h with
      | one first => exact ⟨ts, [], by simp, first, .nil _⟩
  | cons b as ih =>
      cases h with
      | @cons ts₁ ts' comma _ _ _ first mark rest =>
          obtain ⟨ts₂, ts₃, rfl, second, tail⟩ := ih rest (found ++ [a]) (by simpa using few)
          refine ⟨ts₁, comma :: (ts₂ ++ ts₃), rfl, first, ?_⟩
          have size : (found ++ [a]).length < 255 := by
            simp only [List.length_append, List.length_cons, List.length_nil] at few ⊢
            omega
          simp only [List.append_assoc, List.singleton_append] at tail
          exact .cons ⟨size, comma, ts₂, b, rfl, mark, second, by simp⟩ tail

end Lists

/-- The level of the phrases that start with a terminal and are not shorter phrases with something
behind them. -/
def Terminal.starts? : Terminal → Option Level
  | .keyword .true | .keyword .false | .keyword .nil | .number | .string | .identifier
  | .keyword .this | .keyword .super | .symbol .leftParen => some .primary
  | .symbol .bang | .symbol .minus => some .unary
  | _ => none

theorem Terminal.ne_of_starts {k k' : Terminal} {l : Level} (h : k.starts? = some l)
    (other : k'.starts? = none) : k ≠ k' := by
  rintro rfl
  rw [h] at other
  cases other

/-- A terminal that neither ends the tokens nor starts a loop. -/
def Terminal.Clausal (k : Terminal) : Prop := k ≠ .eof ∧ k ≠ .keyword .for

instance (k : Terminal) : Decidable k.Clausal := inferInstanceAs (Decidable (_ ∧ _))

theorem Terminal.Clausal.of_eq {t : Token} {k : Terminal} (h : t.terminal = k)
    (clausal : k.Clausal) : t.terminal.Clausal := h ▸ clausal

namespace Expr

/-- How the tokens of an expression are made up, with the level of the expression. -/
inductive Composed : Level → List Token → Expr → Prop
  | literal {t : Token} {value : Literal} : t.kind = value.kind →
      Composed .primary [t] (.literal value)
  | grouping {left right : Token} {ts : List Token} {e : Expr} :
      left.terminal = .symbol .leftParen → Spells .assignment ts e →
      right.terminal = .symbol .rightParen →
      Composed .primary (left :: (ts ++ [right])) (.grouping e)
  | variable {site : Site} {name : Token} : name.terminal = .identifier →
      Composed .primary [name] (.variable site name)
  | this {site : Site} {keyword : Token} : keyword.terminal = .keyword .this →
      Composed .primary [keyword] (.this site keyword)
  | super {site : Site} {keyword dot name : Token} : keyword.terminal = .keyword .super →
      dot.terminal = .symbol .dot → name.terminal = .identifier →
      Composed .primary [keyword, dot, name] (.super site keyword name)
  | call {ts ts' : List Token} {left right : Token} {e : Expr} {arguments : List Expr} :
      Spells .call ts e → left.terminal = .symbol .leftParen →
      CommaList (Spells .assignment) ts' arguments → arguments.length ≤ 255 →
      right.terminal = .symbol .rightParen →
      Composed .call (ts ++ left :: (ts' ++ [right])) (.call e right arguments)
  | get {ts : List Token} {dot name : Token} {e : Expr} : Spells .call ts e →
      dot.terminal = .symbol .dot → name.terminal = .identifier →
      Composed .call (ts ++ [dot, name]) (.get e name)
  | unary {o : Token} {ts : List Token} {e : Expr} : o.terminal ∈ unaryOperators →
      Spells .unary ts e → Composed .unary (o :: ts) (.unary o e)
  | binary {l : Level} {o : Token} {ts ts' : List Token} {a b : Expr} :
      o.terminal.level? = some l → .equality ≤ l → l ≤ .factor → Spells l ts a →
      Spells l.next ts' b → Composed l (ts ++ o :: ts') (.binary a o b)
  | logical {l : Level} {o : Token} {ts ts' : List Token} {a b : Expr} :
      o.terminal.level? = some l → .disjunction ≤ l → l ≤ .conjunction → Spells l ts a →
      Spells l.next ts' b → Composed l (ts ++ o :: ts') (.logical a o b)
  | assign {site : Site} {name equals : Token} {ts : List Token} {e : Expr} :
      name.terminal = .identifier → equals.terminal = .symbol .equal → Spells .assignment ts e →
      Composed .assignment (name :: equals :: ts) (.assign site name e)
  | set {dot name equals : Token} {ts ts' : List Token} {a b : Expr} : Spells .call ts a →
      dot.terminal = .symbol .dot → name.terminal = .identifier →
      equals.terminal = .symbol .equal → Spells .assignment ts' b →
      Composed .assignment (ts ++ dot :: name :: equals :: ts') (.set a name b)

theorem Spells.composed {l : Level} {ts : List Token} {e : Expr} (h : Spells l ts e) :
    Composed e.level ts e := by
  obtain ⟨shaped, -, fits⟩ := h
  have operator {o : Token} {k : Level} (ho : o.terminal.level? = some k) :
      o.terminal.level?.getD .primary = k := by rw [ho, Option.getD_some]
  cases e with
  | literal value =>
      obtain ⟨t, _, rfl, kind, rest⟩ := fits.exists_of_cons
      rw [rest.eq_nil]
      exact .literal kind
  | grouping e =>
      obtain ⟨left, _, rfl, opens, rest⟩ := fits.exists_of_cons
      obtain ⟨ts, right, rfl, inner, closes⟩ := rest.exists_of_concat
      exact .grouping (Mark.admits_symbol.1 opens) (Expr.spells shaped inner)
        (Mark.admits_symbol.1 closes)
  | «variable» site name =>
      obtain ⟨_, rfl, rest⟩ := fits.exists_of_token
      rw [rest.eq_nil]
      exact .variable shaped
  | this site keyword =>
      obtain ⟨_, rfl, rest⟩ := fits.exists_of_token
      rw [rest.eq_nil]
      exact .this shaped
  | super site keyword name =>
      obtain ⟨_, rfl, rest⟩ := fits.exists_of_token
      obtain ⟨dot, _, rfl, mark, rest⟩ := rest.exists_of_cons
      obtain ⟨_, rfl, nothing⟩ := rest.exists_of_token
      rw [nothing.eq_nil]
      exact .super shaped.1 (Mark.admits_symbol.1 mark) shaped.2
  | call callee paren arguments =>
      obtain ⟨shaped, tight, closes, few, given⟩ := shaped
      obtain ⟨ts, _, rfl, first, rest⟩ := fits.exists_of_append
      obtain ⟨left, _, rfl, opens, rest⟩ := rest.exists_of_cons
      obtain ⟨ts', right, rfl, inner, last⟩ := rest.exists_of_concat
      obtain rfl : right = paren := last
      rw [Expr.spellings_eq_map] at inner
      exact .call ⟨shaped, tight, first⟩ (Mark.admits_symbol.1 opens)
        (.of_fits inner fun e he ts fits => Expr.spells (Expr.shapedAll_iff.1 given e he) fits)
        few closes
  | get object name =>
      obtain ⟨shaped, tight, identifier⟩ := shaped
      obtain ⟨ts, _, rfl, first, rest⟩ := fits.exists_of_append
      obtain ⟨dot, _, rfl, mark, rest⟩ := rest.exists_of_cons
      obtain ⟨_, rfl, nothing⟩ := rest.exists_of_token
      rw [nothing.eq_nil]
      exact .get ⟨shaped, tight, first⟩ (Mark.admits_symbol.1 mark) identifier
  | unary o right =>
      obtain ⟨ho, shaped, tight⟩ := shaped
      obtain ⟨_, rfl, rest⟩ := fits.exists_of_token
      exact .unary ho ⟨shaped, tight, rest⟩
  | binary left o right =>
      obtain ⟨k, ho, above, below, shaped, loose, shaped', tight⟩ := shaped
      obtain ⟨ts, _, rfl, first, rest⟩ := fits.exists_of_append
      obtain ⟨_, rfl, second⟩ := rest.exists_of_token
      rw [Expr.level, operator ho]
      exact .binary ho above below ⟨shaped, loose, first⟩ ⟨shaped', Level.next_le tight, second⟩
  | logical left o right =>
      obtain ⟨k, ho, above, below, shaped, loose, shaped', tight⟩ := shaped
      obtain ⟨ts, _, rfl, first, rest⟩ := fits.exists_of_append
      obtain ⟨_, rfl, second⟩ := rest.exists_of_token
      rw [Expr.level, operator ho]
      exact .logical ho above below ⟨shaped, loose, first⟩ ⟨shaped', Level.next_le tight, second⟩
  | assign site name value =>
      obtain ⟨_, rfl, rest⟩ := fits.exists_of_token
      obtain ⟨equals, _, rfl, sign, second⟩ := rest.exists_of_cons
      exact .assign shaped.1 (Mark.admits_symbol.1 sign) (Expr.spells shaped.2 second)
  | set object name value =>
      obtain ⟨shaped, tight, identifier, shaped'⟩ := shaped
      obtain ⟨ts, _, rfl, first, rest⟩ := fits.exists_of_append
      obtain ⟨dot, _, rfl, mark, rest⟩ := rest.exists_of_cons
      obtain ⟨_, rfl, last⟩ := rest.exists_of_token
      obtain ⟨equals, _, rfl, sign, second⟩ := last.exists_of_cons
      exact .set ⟨shaped, tight, first⟩ (Mark.admits_symbol.1 mark) identifier
        (Mark.admits_symbol.1 sign) (Expr.spells shaped' second)

/-- An expression of a level is one of the next level or composed as the level requires. -/
theorem Spells.next_or_composed {l : Level} {ts : List Token} {e : Expr} (h : Spells l ts e) :
    Spells l.next ts e ∨ Composed l ts e := by
  by_cases tight : l < e.level
  · exact .inl ⟨h.shaped, Level.next_le tight, h.fits⟩
  · exact .inr (Level.eq_of_not_lt h.level tight ▸ h.composed)

theorem Spells.composed_of_primary {ts : List Token} {e : Expr} (h : Spells .primary ts e) :
    Composed .primary ts e := by
  have tightest : ¬.primary < e.level := by cases e.level <;> decide
  exact Level.eq_of_not_lt h.level tightest ▸ h.composed

/-- An expression that grows in steps from one of the next level. -/
theorem Spells.spine {l : Level} {step : Expr → List Token → Expr → Prop}
    (peel : ∀ {ts e}, Composed l ts e → Spells l.next ts e ∨ ∃ ts₁ a ts₂, ts = ts₁ ++ ts₂ ∧
      ts₂ ≠ [] ∧ Spells l ts₁ a ∧ step a ts₂ e) {ts : List Token} {e : Expr} (h : Spells l ts e) :
    ∃ ts₁ a ts₂, ts = ts₁ ++ ts₂ ∧ Spells l.next ts₁ a ∧ Tail step a ts₂ e := by
  -- by induction on the number of tokens, as the tree grows at its root
  induction hn : ts.length using Nat.strongRecOn generalizing ts e with
  | ind n ih =>
      have tighter (h : Spells l.next ts e) :
          ∃ ts₁ a ts₂, ts = ts₁ ++ ts₂ ∧ Spells l.next ts₁ a ∧ Tail step a ts₂ e :=
        ⟨ts, e, [], by simp, h, .nil e⟩
      rcases h.next_or_composed with h | h
      · exact tighter h
      · rcases peel h with h | ⟨ts₁, a, ts₂, rfl, some, first, last⟩
        · exact tighter h
        · have := List.length_pos_iff.2 some
          rw [List.length_append] at hn
          obtain ⟨ts₃, b, ts₄, rfl, start, tail⟩ := ih ts₁.length (by omega) first rfl
          exact ⟨ts₃, b, ts₄ ++ ts₂, List.append_assoc _ _ _, start, tail.snoc last⟩

/-- The growth of an expression by an operator of a level and its right operand. -/
inductive Grouped (l : Level) (build : Expr → Token → Expr → Expr) :
    Expr → List Token → Expr → Prop
  | intro {a b : Expr} {o : Token} {ts : List Token} : o.terminal.level? = some l →
      Spells l.next ts b → Grouped l build a (o :: ts) (build a o b)

/-- The growth of an expression by a call or an access to a property. -/
inductive Suffixed : Expr → List Token → Expr → Prop
  | call {left right : Token} {ts : List Token} {e : Expr} {arguments : List Expr} :
      left.terminal = .symbol .leftParen → CommaList (Spells .assignment) ts arguments →
      arguments.length ≤ 255 → right.terminal = .symbol .rightParen →
      Suffixed e (left :: (ts ++ [right])) (.call e right arguments)
  | get {dot name : Token} {e : Expr} : dot.terminal = .symbol .dot →
      name.terminal = .identifier → Suffixed e [dot, name] (.get e name)

theorem Spells.binary_spine {l : Level} (above : .equality ≤ l) (below : l ≤ .factor)
    {ts : List Token} {e : Expr} (h : Spells l ts e) :
    ∃ ts₁ a ts₂, ts = ts₁ ++ ts₂ ∧ Spells l.next ts₁ a ∧ Tail (Grouped l .binary) a ts₂ e := by
  refine Spells.spine (fun h => ?_) h
  cases h with
  | binary ho _ _ left right =>
      exact .inr ⟨_, _, _, rfl, List.cons_ne_nil _ _, left, .intro ho right⟩
  | logical _ _ loose => exact absurd (Nat.le_trans above loose) (by decide)
  | _ => first | exact absurd above (by decide) | exact absurd below (by decide)

theorem Spells.logical_spine {l : Level} (above : .disjunction ≤ l) (below : l ≤ .conjunction)
    {ts : List Token} {e : Expr} (h : Spells l ts e) :
    ∃ ts₁ a ts₂, ts = ts₁ ++ ts₂ ∧ Spells l.next ts₁ a ∧ Tail (Grouped l .logical) a ts₂ e := by
  refine Spells.spine (fun h => ?_) h
  cases h with
  | logical ho _ _ left right =>
      exact .inr ⟨_, _, _, rfl, List.cons_ne_nil _ _, left, .intro ho right⟩
  | binary _ tight => exact absurd (Nat.le_trans tight below) (by decide)
  | _ => first | exact absurd above (by decide) | exact absurd below (by decide)

theorem Spells.call_spine {ts : List Token} {e : Expr} (h : Spells .call ts e) :
    ∃ ts₁ a ts₂, ts = ts₁ ++ ts₂ ∧ Spells .primary ts₁ a ∧ Tail Suffixed a ts₂ e := by
  refine Spells.spine (l := .call) (fun h => ?_) h
  cases h with
  | call callee opens given few closes =>
      exact .inr ⟨_, _, _, rfl, List.cons_ne_nil _ _, callee, .call opens given few closes⟩
  | get object mark identifier =>
      exact .inr ⟨_, _, _, rfl, List.cons_ne_nil _ _, object, .get mark identifier⟩
  | binary _ _ below => exact absurd below (by decide)
  | logical _ _ below => exact absurd below (by decide)

theorem Spells.exists_operators {ts : List Token} {e : Expr} (h : Spells .unary ts e) :
    ∃ os ts' a, ts = os ++ ts' ∧ (∀ o ∈ os, o.terminal ∈ unaryOperators) ∧ Spells .call ts' a ∧
      e = os.foldr Expr.unary a := by
  induction hn : ts.length using Nat.strongRecOn generalizing ts e with
  | ind n ih =>
      rcases h.next_or_composed with h | h
      · exact ⟨[], ts, e, rfl, List.forall_mem_nil _, h, rfl⟩
      · cases h with
        | unary ho right =>
            obtain ⟨os, ts', a, rfl, operators, operand, rfl⟩ :=
              ih _ (hn ▸ Nat.lt_succ_self _) right rfl
            exact ⟨_ :: os, ts', a, rfl, List.forall_mem_cons.2 ⟨ho, operators⟩, operand, rfl⟩
        | binary _ _ below => exact absurd below (by decide)
        | logical _ _ below => exact absurd below (by decide)

/-- An expression starts with a token that can start one, and if it is a call or tighter, that token
is no operator. -/
theorem Spells.head {l : Level} {ts : List Token} {e : Expr} (h : Spells l ts e) :
    ∃ t r k, ts = t :: r ∧ t.terminal.starts? = some k ∧ (.call ≤ l → k = .primary) := by
  induction hn : ts.length using Nat.strongRecOn generalizing l ts e with
  | ind n ih =>
      have one {t : Token} {r : List Token} (primary : t.terminal.starts? = some .primary) :
          ∃ t' r' k, t :: r = t' :: r' ∧ t'.terminal.starts? = some k ∧
            (.call ≤ l → k = .primary) :=
        ⟨t, r, .primary, rfl, primary, fun _ => rfl⟩
      have left {l' : Level} {ts₁ ts₂ : List Token} {a : Expr} (first : Spells l' ts₁ a)
          (shorter : ts₁.length < n) (tight : .call ≤ l → .call ≤ l') : ∃ t' r' k,
          ts₁ ++ ts₂ = t' :: r' ∧ t'.terminal.starts? = some k ∧ (.call ≤ l → k = .primary) := by
        obtain ⟨t, r, k, rfl, starts, primary⟩ := ih _ shorter first rfl
        exact ⟨t, r ++ ts₂, k, rfl, starts, fun h => primary (tight h)⟩
      have composed := h.composed
      have level := h.level
      generalize e.level = k at composed level
      cases composed with
      | @literal t value kind =>
          refine one ?_
          rw [Token.terminal, kind]
          rcases value with _ | value | _ | _
          · rfl
          · cases value <;> rfl
          · rfl
          · rfl
      | grouping opens => exact one (by rw [opens]; rfl)
      | «variable» identifier => exact one (by rw [identifier]; rfl)
      | this word => exact one (by rw [word]; rfl)
      | «super» word => exact one (by rw [word]; rfl)
      | call callee => exact left callee (by simp at hn; omega) fun _ => Nat.le_refl _
      | get object => exact left object (by simp at hn; omega) fun _ => Nat.le_refl _
      | unary ho =>
          refine ⟨_, _, .unary, rfl, ?_, fun tight => ?_⟩
          · rcases List.mem_cons.1 ho with ho | ho
            · rw [ho]; rfl
            · rw [List.mem_singleton.1 ho]; rfl
          · exact absurd (Nat.le_trans tight level) (by decide)
      | binary _ _ below first =>
          exact left first (by simp at hn; omega) fun tight => Nat.le_trans tight level
      | logical _ _ _ first =>
          exact left first (by simp at hn; omega) fun tight => Nat.le_trans tight level
      | assign identifier => exact one (by rw [identifier]; rfl)
      | set object => exact left object (by simp at hn; omega) fun _ => Nat.le_refl _

/-- Every token of an expression is clausal. -/
theorem Spells.clausal {l : Level} {ts : List Token} {e : Expr} (h : Spells l ts e) :
    ∀ t ∈ ts, t.terminal.Clausal := by
  induction hn : ts.length using Nat.strongRecOn generalizing l ts e with
  | ind n ih =>
      have operator {o : Token} {l : Level} (ho : o.terminal.level? = some l) :
          o.terminal.Clausal := by
        refine ⟨fun eof => ?_, fun word => ?_⟩
        · rw [eof] at ho
          cases ho
        · rw [word] at ho
          cases ho
      have part {l' : Level} {ts' : List Token} {a : Expr} (h : Spells l' ts' a)
          (shorter : ts'.length < n) : ∀ t ∈ ts', t.terminal.Clausal := ih _ shorter h rfl
      have composed := h.composed
      generalize e.level = k at composed
      cases composed <;>
        simp only [List.length_append, List.length_cons, List.length_nil] at hn <;>
        simp only [List.forall_mem_append, List.forall_mem_cons, List.not_mem_nil, false_implies,
          implies_true, and_true]
      case literal t value kind =>
        rw [Token.terminal, kind]
        rcases value with _ | (_ | _) | _ | _ <;>
          simp [Literal.kind, Kind.terminal, Terminal.Clausal]
      case grouping opens inner closes =>
        exact ⟨.of_eq opens (by decide), part inner (by omega), .of_eq closes (by decide)⟩
      case «variable» identifier => exact .of_eq identifier (by decide)
      case this word => exact .of_eq word (by decide)
      case «super» word mark identifier =>
        exact ⟨.of_eq word (by decide), .of_eq mark (by decide), .of_eq identifier (by decide)⟩
      case call callee opens given _ closes =>
        refine ⟨part callee (by omega), .of_eq opens (by decide), ?_, .of_eq closes (by decide)⟩
        exact given.forall_tokens (fun t mark => .of_eq mark (by decide)) fun ts' a short item =>
          part item (by omega)
      case get object mark identifier =>
        exact ⟨part object (by omega), .of_eq mark (by decide), .of_eq identifier (by decide)⟩
      case unary ho right =>
        have some : ∀ k ∈ unaryOperators, k.Clausal := by decide
        exact ⟨some _ ho, part right (by omega)⟩
      case binary ho _ _ left right =>
        exact ⟨part left (by omega), operator ho, part right (by omega)⟩
      case logical ho _ _ left right =>
        exact ⟨part left (by omega), operator ho, part right (by omega)⟩
      case assign identifier sign value =>
        exact ⟨.of_eq identifier (by decide), .of_eq sign (by decide), part value (by omega)⟩
      case set object mark identifier sign value =>
        exact ⟨part object (by omega), .of_eq mark (by decide), .of_eq identifier (by decide),
          .of_eq sign (by decide), part value (by omega)⟩

/-- No expression contains the end of the tokens. -/
theorem Spells.proper {l : Level} {ts : List Token} {e : Expr} (h : Spells l ts e) :
    ∀ t ∈ ts, t.terminal ≠ .eof :=
  fun t ht => (h.clausal t ht).1

end Expr

end Lox
