import Lox.Proofs.Grammar.Composition
import Lox.Proofs.Grammar.Phrase
import Lox.Proofs.Grammar.Relabel

/-!
# Phrases are read

Where the tokens of a phrase come next, the rule for the phrase reads them, notes no error and
yields what they stand for, up to the sites (`Relabeling.forget`).  `Takes x r r' Q` says that a
rule reads on from `r` to `r'`, with a result that satisfies `Q`.

The token behind an expression must not continue it (`Ends`), and no `else` may stand behind a
statement that ends in an `if` without one.  `takes_expression` and `takes_statements` are by
induction on the bounds, and `parse_accepts` is about a whole program.
-/

namespace Lox

open Lox.Parser

def Relabeling.forget : Relabeling := ⟨fun _ => 0, id⟩

namespace Parser

/-- From `r` on, the rule reads the tokens up to `r'` without errors, and its result satisfies
`Q`. -/
def Takes (x : Parser α) (r r' : List Token) (Q : α → Prop) : Prop :=
  ∀ s : ParseState, s.rest = r → s.eof.terminal = .eof →
    ∃ a site, x s = .ok a { s with rest := r', nextSite := site } ∧ Q a

variable {r r' r'' : List Token}

namespace Takes

theorem pure {a : α} {Q : α → Prop} (h : Q a) : Takes (pure a) r r Q := by
  rintro s rfl -
  exact ⟨a, s.nextSite, rfl, h⟩

theorem bind {x : Parser α} {f : α → Parser β} {Q : α → Prop} {T : β → Prop}
    (hx : Takes x r r' Q) (hf : ∀ a, Q a → Takes (f a) r' r'' T) : Takes (x >>= f) r r'' T := by
  intro s hs eof
  obtain ⟨a, site, hx, ha⟩ := hx s hs eof
  obtain ⟨b, site', hf, hb⟩ := hf a ha { s with rest := r', nextSite := site } rfl eof
  refine ⟨b, site', ?_, hb⟩
  rw [bind_of_ok hx]
  exact hf

theorem andThen {x : Parser α} {f : α → Parser β} {a : α} {T : β → Prop}
    (hx : Takes x r r' (· = a)) (hf : Takes (f a) r' r'' T) : Takes (x >>= f) r r'' T :=
  hx.bind fun _ same => same ▸ hf

theorem map {x : Parser α} {Q : α → Prop} {T : β → Prop} (f : α → β) (hx : Takes x r r' Q)
    (h : ∀ a, Q a → T (f a)) : Takes (f <$> x) r r' T := by
  rw [← bind_pure_comp]
  exact hx.bind fun a ha => .pure (h a ha)

end Takes

theorem takes_peek (t : Token) : Takes peek (t :: r) (t :: r) (· = t) := by
  intro s hs _
  refine ⟨t, s.nextSite, ?_, rfl⟩
  rw [peek, hs, List.headD_cons, ← hs]

theorem takes_skip (t : Token) : Takes skip (t :: r) r (· = ()) := by
  intro s hs _
  exact ⟨(), s.nextSite, by rw [skip, hs, List.tail_cons], rfl⟩

theorem takes_freshSite : Takes freshSite r r fun _ => True := by
  rintro s rfl -
  exact ⟨s.nextSite, s.nextSite + 1, rfl, trivial⟩

theorem takes_accept? {t : Token} {terminals : List Terminal} (mem : t.terminal ∈ terminals) :
    Takes (accept? terminals) (t :: r) r (· = some t) := by
  intro s hs _
  exact ⟨some t, s.nextSite, accept?_of_mem hs mem, rfl⟩

theorem takes_decline {terminals : List Terminal} (h : ∀ t ∈ r.head?, t.terminal ∉ terminals) :
    Takes (accept? terminals) r r (· = none) := by
  rintro s rfl -
  exact ⟨none, s.nextSite, accept?_of_forall_notMem h, rfl⟩

theorem takes_expect {t : Token} {terminal : Terminal} (h : t.terminal = terminal)
    (fault : GrammarFault) : Takes (expect terminal fault) (t :: r) r (· = t) :=
  (takes_accept? (List.mem_singleton.2 h)).andThen (.pure rfl)

theorem takes_acceptAll {ts : List Token} {terminals : List Terminal}
    (all : ∀ t ∈ ts, t.terminal ∈ terminals) (stop : ∀ t ∈ r.head?, t.terminal ∉ terminals) :
    Takes (acceptAll terminals) (ts ++ r) r (· = ts) := by
  intro s hs _
  have all' : ∀ t ∈ ts, terminals.contains t.terminal := fun t ht => by simpa using all t ht
  have taken : r.takeWhile (fun t => terminals.contains t.terminal) = [] := by
    cases r with
    | nil => rfl
    | cons t r => exact List.takeWhile_cons_of_neg (by simpa using stop t rfl)
  have left : r.dropWhile (fun t => terminals.contains t.terminal) = r := by
    cases r with
    | nil => rfl
    | cons t r => exact List.dropWhile_cons_of_neg (by simpa using stop t rfl)
  refine ⟨ts, s.nextSite, ?_, rfl⟩
  rw [acceptAll, hs, List.takeWhile_append_of_pos all', List.dropWhile_append_of_pos all', taken,
    left, List.append_nil]

theorem takes_nextIs {t : Token} (terminals : List Terminal) :
    Takes (nextIs terminals) (t :: r) (t :: r) (· = terminals.contains t.terminal) :=
  (takes_peek t).andThen (.pure rfl)

/-- Steps that can be followed by what satisfies `N` are taken one after the other. -/
theorem takes_chain {G : β → List Token → β → Prop} {S : α → β → Prop}
    {f : α → Parser (Option α)} {N : List Token → Prop} {n : Nat}
    (grows : ∀ {a a' b ts r}, G a ts b → S a' a → ts.length ≤ n → N r →
      Takes (f a') (ts ++ r) r fun o => ∃ b', o = some b' ∧ S b' b)
    (more : ∀ {a b ts r}, G a ts b → N (ts ++ r)) (progress : ∀ {a b ts}, G a ts b → ts ≠ [])
    (stops : ∀ a, Takes (f a) r r (· = none)) (last : N r) {a c : β} {ts : List Token}
    (h : Tail G a ts c) {m : Nat} (enough : ts.length ≤ m) (fits : ts.length ≤ n) {a' : α}
    (start : S a' a) : Takes (chain f m a') (ts ++ r) r fun c' => S c' c := by
  induction h generalizing a' m with
  | nil a =>
      cases m with
      | zero => exact .pure start
      | succ m => exact (stops a').andThen (.pure start)
  | @cons a b c ts ts' first rest ih =>
      have some := List.length_pos_iff.2 (progress first)
      rw [List.length_append] at enough fits
      have next : N (ts' ++ r) := by
        cases rest with
        | nil => exact last
        | cons second =>
            rw [List.append_assoc]
            exact more second
      cases m with
      | zero => omega
      | succ m =>
          rw [List.append_assoc]
          refine (grows first start (by omega) next).bind fun o ho => ?_
          obtain ⟨b', rfl, grown⟩ := ho
          exact ih (by omega) (by omega) grown

section Lists

variable {f : α → γ} {n : Nat} {P : List Token → α → Prop} {N : List Token → Prop}

theorem takes_itemsUntil {stop : List Terminal} {item : Parser (Option α)}
    (reads : ∀ {ts a r}, P ts a → ts.length ≤ n → N r →
      Takes item (ts ++ r) r fun o => ∃ a', o = some a' ∧ f a' = f a)
    (starts : ∀ {ts a}, P ts a → ∃ t ts', ts = t :: ts' ∧ t.terminal ∉ stop)
    (more : ∀ {ts a r}, P ts a → N (ts ++ r)) (ends : Takes (nextIs stop) r r (· = true))
    (last : N r) {ts : List Token} {as : List α} (h : Sequence P ts as)
    (enough : ts.length ≤ n) {m : Nat} (le : n ≤ m) :
    Takes (itemsUntil stop m item) (ts ++ r) r fun as' => as'.map f = as.map f := by
  have start : (#[] : Array α).toList.map f = ([] : List α).map f := rfl
  refine Takes.bind (Q := fun found => found.toList.map f = as.map f) ?_ fun found same =>
    .pure (by simpa using same)
  refine takes_chain (G := Appended P) (n := n) (N := N)
    (S := fun (found : Array α) as => found.toList.map f = as.map f) ?_ ?_ ?_ ?_ last (h.tail [])
    (Nat.le_trans enough le) enough start
  · rintro found found' _ ts r ⟨a, one, rfl⟩ same fits next
    obtain ⟨t, ts', rfl, other⟩ := starts one
    refine (takes_nextIs stop).andThen ?_
    simp only [List.contains_eq_mem, other, decide_false, Bool.false_eq_true, if_false]
    refine (reads one fits next).bind fun o ho => ?_
    obtain ⟨a', rfl, same'⟩ := ho
    exact .pure ⟨found'.push a', rfl, by simp [same, same']⟩
  · rintro _ _ ts r ⟨a, one, -⟩
    exact more one
  · rintro _ _ ts ⟨a, one, -⟩
    obtain ⟨t, ts', rfl, -⟩ := starts one
    exact List.cons_ne_nil _ _
  · exact fun found => ends.andThen (.pure rfl)

theorem takes_limited {excess : GrammarFault} {item : Parser α} {found : Array α} {a : α}
    (few : found.size < itemLimit) (h : Takes item r r' fun a' => f a' = f a) :
    Takes (limited excess item found) r r' fun found' => ∃ a', found' = found.push a' ∧
      f a' = f a := by
  unfold limited
  rw [if_neg (Nat.not_le_of_lt few)]
  exact h.bind fun a' same => .pure ⟨a', rfl, same⟩

theorem takes_commaList {excess : GrammarFault} {item : Parser α}
    (reads : ∀ {ts a r}, P ts a → ts.length ≤ n → N r →
      Takes item (ts ++ r) r fun a' => f a' = f a)
    (starts : ∀ {ts a}, P ts a → ∃ t ts', ts = t :: ts' ∧ t.terminal ≠ .symbol .rightParen)
    (more : ∀ {comma : Token} {r}, comma.terminal = .symbol .comma → N (comma :: r))
    {right : Token} (closes : right.terminal = .symbol .rightParen) (last : N (right :: r))
    {ts : List Token} {as : List α} (h : CommaList P ts as) (few : as.length ≤ 255)
    (enough : ts.length ≤ n) :
    Takes (commaList excess n item) (ts ++ right :: r) (right :: r) fun as' =>
      as'.map f = as.map f := by
  cases as with
  | nil =>
      cases h
      refine (takes_nextIs _).andThen ?_
      rw [closes]
      exact .pure rfl
  | cons a as =>
      obtain ⟨ts₁, ts₂, rfl, first, tail⟩ := h.exists_tail [] few
      obtain ⟨t, ts₃, rfl, other⟩ := starts first
      rw [List.length_append] at enough
      have next : N (ts₂ ++ right :: r) := by
        cases tail with
        | nil => exact last
        | cons second =>
            obtain ⟨-, comma, ts', b, rfl, mark, -, -⟩ := second
            exact more mark
      rw [List.append_assoc]
      refine (takes_nextIs _).andThen ?_
      simp only [List.contains_eq_mem, List.mem_singleton, other, decide_false,
        Bool.false_eq_true, if_false]
      have few : (#[] : Array α).size < itemLimit := Nat.zero_lt_succ 254
      refine (takes_limited few (reads first (by omega) next)).bind fun found hf => ?_
      obtain ⟨a', rfl, same⟩ := hf
      have start : (#[].push a').toList.map f = ([] ++ [a]).map f := by simpa using same
      refine Takes.bind (Q := fun found => found.toList.map f = (a :: as).map f) ?_
        fun found same => .pure (by simpa using same)
      -- The invariant is that the items found so far stand for those of the list.
      refine takes_chain (G := CommaAppended P) (n := n) (N := N)
        (S := fun (found : Array α) as => found.toList.map f = as.map f) ?_ ?_ ?_ ?_ last tail
        (by omega) (by omega) start
      · rintro found found' _ ts r ⟨size, comma, ts', b, rfl, mark, one, rfl⟩ same fits next
        have size' : found'.size < itemLimit := by
          have := congrArg List.length same
          simp only [List.length_map, Array.length_toList] at this
          rw [itemLimit]
          omega
        refine (takes_accept? (List.mem_singleton.2 mark)).andThen ?_
        have item' := reads one (Nat.le_of_succ_le fits) next
        refine (takes_limited size' item').bind fun found' h => ?_
        obtain ⟨b', rfl, same'⟩ := h
        exact .pure ⟨_, rfl, by simp [same, same']⟩
      · rintro _ _ ts r ⟨-, comma, ts', b, rfl, mark, -, -⟩
        exact more mark
      · rintro _ _ ts ⟨-, comma, ts', b, rfl, -⟩
        exact List.cons_ne_nil _ _
      · refine fun found => (takes_decline ?_).andThen (.pure rfl)
        simp [closes]

end Lists

end Parser

/-! ### Expressions -/

/-- What comes next does not continue an expression of a level. -/
def Ends (l : Level) (r : List Token) : Prop :=
  ∀ t ∈ r.head?, ∀ l', t.terminal.level? = some l' → l' < l

theorem Ends.tighten {l l' : Level} {r : List Token} (h : Ends l r) (le : l ≤ l') : Ends l' r :=
  fun t ht k hk => Nat.lt_of_lt_of_le (h t ht k hk) le

theorem Ends.of_none {l : Level} {t : Token} {r : List Token} (h : t.terminal.level? = none) :
    Ends l (t :: r) := by
  intro t' ht k hk
  obtain rfl := Option.some.inj ht
  rw [h] at hk
  cases hk

theorem Ends.primary (r : List Token) : Ends .primary r := by
  intro t _ k hk
  rcases hm : t.terminal with m | w | _ <;> rw [hm] at hk
  · cases m <;> cases hk <;> decide
  · cases w <;> cases hk <;> decide
  all_goals cases hk

theorem Ends.not_mem {l : Level} {r : List Token} (h : Ends l r) {terminals : List Terminal}
    (level : ∀ k ∈ terminals, k.level? = some l) : ∀ t ∈ r.head?, t.terminal ∉ terminals :=
  fun t ht mem => absurd (h t ht l (level _ mem)) (Nat.lt_irrefl _)

def TakesExpr (n : Nat) (l : Level) (x : Parser Expr) : Prop :=
  ∀ ⦃ts r e⦄, Expr.Spells l ts e → ts.length ≤ n → Ends l r →
    Takes x (ts ++ r) r fun e' => e'.relabel .forget = e.relabel .forget

namespace Expr

variable {nested : Parser Expr} {n : Nat}

theorem takes_primary (h : TakesExpr n .assignment nested) :
    TakesExpr (n + 1) .primary (primary nested) := by
  intro ts r e spells fits _
  have one (t : Token) (f : Site → Expr)
      (here : ∀ site, (f site).relabel .forget = e.relabel .forget) :
      Takes (do skip; return f (← freshSite)) (t :: r) r fun e' =>
        e'.relabel .forget = e.relabel .forget :=
    (takes_skip t).andThen (takes_freshSite.bind fun site _ => .pure (here site))
  cases spells.composed_of_primary with
  | @literal t value kind =>
      refine (takes_peek t).andThen ?_
      rcases value with _ | value | _ | _
      · simp only [kind, Literal.kind]
        exact (takes_skip t).andThen (.pure rfl)
      · cases value <;> simp only [kind, Literal.kind] <;>
          exact (takes_skip t).andThen (.pure rfl)
      · simp only [kind, Literal.kind]
        exact (takes_skip t).andThen (.pure rfl)
      · simp only [kind, Literal.kind]
        exact (takes_skip t).andThen (.pure rfl)
  | @grouping left right ts inner opens spelled closes =>
      have kind : left.kind = .symbol .leftParen :=
        Token.kind_eq_of_terminal opens (by simp) (by simp)
      rw [List.cons_append, List.append_assoc]
      refine (takes_peek left).andThen ?_
      simp only [kind]
      refine (takes_skip left).andThen ?_
      have short : ts.length ≤ n := by simp at fits; omega
      refine (h spelled short (.of_none (by rw [closes]; rfl))).bind fun e' he => ?_
      exact (takes_expect closes _).andThen (.pure (by rw [Expr.relabel, Expr.relabel, he]))
  | @«variable» site name identifier =>
      have kind : name.kind = .identifier :=
        Token.kind_eq_of_terminal identifier (by simp) (by simp)
      refine (takes_peek name).andThen ?_
      simp only [kind]
      exact one name (fun site => .variable site name) fun _ => rfl
  | @this site keyword word =>
      have kind : keyword.kind = .keyword .this :=
        Token.kind_eq_of_terminal word (by simp) (by simp)
      refine (takes_peek keyword).andThen ?_
      simp only [kind]
      exact one keyword (fun site => .this site keyword) fun _ => rfl
  | @«super» site keyword dot name word mark identifier =>
      have kind : keyword.kind = .keyword .super :=
        Token.kind_eq_of_terminal word (by simp) (by simp)
      refine (takes_peek keyword).andThen ?_
      simp only [kind]
      refine (takes_skip keyword).andThen ((takes_expect mark _).andThen ?_)
      refine (takes_expect identifier _).andThen (takes_freshSite.bind fun site _ => .pure rfl)
  | binary _ _ below => exact absurd below (by decide)
  | logical _ _ below => exact absurd below (by decide)

/-- A token of an expression that is no closing parenthesis, nor the end of a list or a clause. -/
theorem Spells.head_ne {l : Level} {ts : List Token} {e : Expr} (h : Spells l ts e) :
    ∃ t r, ts = t :: r ∧ ∀ k : Terminal, k.starts? = none → t.terminal ≠ k := by
  obtain ⟨t, r, k, rfl, starts, -⟩ := h.head
  exact ⟨t, r, rfl, fun _ other => Terminal.ne_of_starts starts other⟩

theorem takes_suffix (h : TakesExpr n .assignment nested) {a a' b : Expr} {ts r : List Token}
    (grows : Suffixed a ts b) (same : a'.relabel .forget = a.relabel .forget)
    (fits : ts.length ≤ n) :
    Takes (suffix n nested a') (ts ++ r) r fun o =>
      ∃ b', o = some b' ∧ b'.relabel .forget = b.relabel .forget := by
  cases grows with
  | @call left right ts _ arguments opens given few closes =>
      rw [List.cons_append, List.append_assoc]
      refine (takes_accept? (by simp [opens])).andThen ?_
      simp only [opens, if_true]
      have all : Takes (finishCall n nested a') (ts ++ right :: r) r fun b' =>
          b'.relabel .forget = (Expr.call a right arguments).relabel .forget := by
        refine (takes_commaList (N := Ends .assignment) (f := Expr.relabel .forget)
          (fun spells fits next => h spells fits next) (fun spells => ?_) (fun mark => ?_) closes
          (.of_none (by rw [closes]; rfl)) given few (by simp at fits; omega)).bind fun as hs => ?_
        · obtain ⟨t, ts, rfl, ne⟩ := spells.head_ne
          exact ⟨t, ts, rfl, ne _ rfl⟩
        · exact .of_none (by rw [mark]; rfl)
        · refine (takes_expect closes _).andThen (.pure ?_)
          rw [Expr.relabel, Expr.relabel, Expr.relabelAll_eq_map, Expr.relabelAll_eq_map, same, hs]
      exact all.bind fun b' hb => .pure ⟨b', rfl, hb⟩
  | @get dot name _ mark identifier =>
      refine (takes_accept? (by simp [mark])).andThen ?_
      have other : dot.terminal ≠ .symbol .leftParen := by simp [mark]
      simp only [other, if_false]
      refine (takes_expect identifier _).andThen (.pure ⟨_, rfl, ?_⟩)
      rw [Expr.relabel, Expr.relabel, same]

theorem takes_called (h : TakesExpr n .assignment nested) :
    TakesExpr (n + 1) .call (called n nested) := by
  intro ts r e spells fits ends
  obtain ⟨ts₁, a, ts₂, rfl, first, tail⟩ := spells.call_spine
  obtain ⟨t, ts₃, rfl, -⟩ := first.head_ne
  rw [List.length_append, List.length_cons] at fits
  rw [List.append_assoc]
  have start := takes_primary h first (r := ts₂ ++ r) (by rw [List.length_cons]; omega) (.primary _)
  refine start.bind fun a' same => ?_
  refine takes_chain (n := n) (N := fun _ => True)
    (S := fun (a' a : Expr) => a'.relabel .forget = a.relabel .forget)
    (fun grows same fits _ => takes_suffix h grows same fits) (fun _ => trivial) (fun grows => ?_)
    (fun b => ?_) trivial tail (by omega) (by omega) same
  · cases grows <;> exact List.cons_ne_nil _ _
  · refine (takes_decline (ends.not_mem ?_)).andThen (.pure rfl)
    simp [Terminal.level?]

theorem takes_negated (h : TakesExpr n .assignment nested) :
    TakesExpr (n + 1) .unary (negated n nested) := by
  intro ts r e spells fits ends
  obtain ⟨os, ts', a, rfl, operators, operand, rfl⟩ := spells.exists_operators
  obtain ⟨t, ts'', k, rfl, starts, primary⟩ := operand.head
  obtain rfl := primary (Nat.le_refl _)
  rw [List.length_append] at fits
  rw [List.append_assoc]
  refine (takes_acceptAll operators ?_).andThen ?_
  · intro t' ht mem
    obtain rfl : t = t' := by simpa using ht
    rcases List.mem_cons.1 mem with other | other
    · rw [other] at starts
      cases starts
    · rw [List.mem_singleton.1 other] at starts
      cases starts
  · have short : (t :: ts'').length ≤ n + 1 := by omega
    refine (takes_called h operand short (ends.tighten (by decide))).bind fun a' same => .pure ?_
    clear operators fits spells short
    induction os with
    | nil => exact same
    | cons o os ih => rw [List.foldr_cons, List.foldr_cons, Expr.relabel, Expr.relabel, ih]

variable {operand : Parser Expr} {l : Level}

/-- Operators of the level `l` between operands of the next level. -/
theorem takes_leftGrouped (build : Expr → Token → Expr → Expr)
    (relabel : ∀ a o b, (build a o b).relabel .forget =
      build (a.relabel .forget) o (b.relabel .forget))
    (above : .disjunction ≤ l) (below : l ≤ .factor) (tighter : l < l.next)
    (h : TakesExpr (n + 1) l.next operand)
    (spine : ∀ ⦃ts e⦄, Spells l ts e → ∃ ts₁ a ts₂, ts = ts₁ ++ ts₂ ∧ Spells l.next ts₁ a ∧
      Tail (Grouped l build) a ts₂ e) :
    TakesExpr (n + 1) l (leftGrouped n l.operators build operand) := by
  intro ts r e spells fits ends
  obtain ⟨ts₁, a, ts₂, rfl, first, tail⟩ := spine spells
  obtain ⟨t, ts₃, rfl, -⟩ := first.head_ne
  rw [List.length_append, List.length_cons] at fits
  rw [List.append_assoc]
  have more {a b : Expr} {ts r : List Token} (grows : Grouped l build a ts b) :
      Ends l.next (ts ++ r) := by
    cases grows with
    | intro operator =>
        intro t ht k hk
        obtain rfl := Option.some.inj ht
        obtain rfl := Option.some.inj (operator.symm.trans hk)
        exact tighter
  have next : Ends l.next (ts₂ ++ r) := by
    cases tail with
    | nil => exact ends.tighten (Nat.le_of_lt tighter)
    | cons second =>
        rw [List.append_assoc]
        exact more second
  refine (h first (by rw [List.length_cons]; omega) next).bind fun a' same => ?_
  refine takes_chain (n := n) (N := Ends l.next)
    (S := fun (a' a : Expr) => a'.relabel .forget = a.relabel .forget) ?_ more ?_ ?_
    (ends.tighten (Nat.le_of_lt tighter)) tail (by omega) (by omega) same
  · rintro a a' _ ts r ⟨operator, right⟩ same fits next
    rw [List.cons_append]
    refine (takes_accept? ((Level.mem_operators above below).2 operator)).andThen ?_
    refine (h right (by simp at fits; omega) next).bind fun b' same' => .pure ⟨_, rfl, ?_⟩
    rw [relabel, relabel, same, same']
  · rintro _ _ _ ⟨-, -⟩
    exact List.cons_ne_nil _ _
  · refine fun b => (takes_decline (ends.not_mem fun k hk => ?_)).andThen (.pure rfl)
    exact (Level.mem_operators above below).1 hk

theorem takes_binary (above : .equality ≤ l) (below : l ≤ .factor)
    (h : TakesExpr (n + 1) l.next operand) :
    TakesExpr (n + 1) l (leftGrouped n l.operators binary operand) :=
  takes_leftGrouped binary (fun _ _ _ => rfl) (Nat.le_trans (by decide) above) below
    (Level.lt_next (Nat.lt_of_le_of_lt below (by decide : Level.factor < .unary))) h
    fun _ _ => Spells.binary_spine above below

theorem takes_logical (above : .disjunction ≤ l) (below : l ≤ .conjunction)
    (h : TakesExpr (n + 1) l.next operand) :
    TakesExpr (n + 1) l (leftGrouped n l.operators logical operand) :=
  takes_leftGrouped logical (fun _ _ _ => rfl) above (Nat.le_trans below (by decide))
    (Level.lt_next (Nat.lt_of_le_of_lt below (by decide : Level.conjunction < .equality))) h
    fun _ _ => Spells.logical_spine above below

theorem takes_disjunction (h : TakesExpr n .assignment nested) :
    TakesExpr (n + 1) .disjunction (disjunction n nested) := by
  have factor : TakesExpr (n + 1) .factor (factor n nested) :=
    takes_binary (by decide) (by decide) (takes_negated h)
  have term : TakesExpr (n + 1) .term (term n nested) :=
    takes_binary (by decide) (by decide) factor
  have comparison : TakesExpr (n + 1) .comparison (comparison n nested) :=
    takes_binary (by decide) (by decide) term
  have equality : TakesExpr (n + 1) .equality (equality n nested) :=
    takes_binary (by decide) (by decide) comparison
  have conjunction : TakesExpr (n + 1) .conjunction (conjunction n nested) :=
    takes_logical (by decide) (by decide) equality
  exact takes_logical (by decide) (by decide) conjunction

/-- A target is read like any other expression, and the equals sign shows that it is one. -/
theorem takes_assigned (h : TakesExpr n .assignment nested) {target value e : Expr}
    {ts vs r : List Token} {equals : Token} (left : Spells .disjunction ts target)
    (sign : equals.terminal = .symbol .equal) (right : Spells .assignment vs value)
    (fits : ts.length + vs.length ≤ n) (ends : Ends .assignment r)
    (assigned : ∀ target' value', target'.relabel .forget = target.relabel .forget →
      value'.relabel .forget = value.relabel .forget →
      Takes (assignTo target' equals value') r r fun e' =>
        e'.relabel .forget = e.relabel .forget) :
    Takes (assignment n nested) (ts ++ equals :: (vs ++ r)) r fun e' =>
      e'.relabel .forget = e.relabel .forget := by
  have next : Ends .disjunction (equals :: (vs ++ r)) := by
    intro t ht k hk
    obtain rfl := Option.some.inj ht
    rw [sign] at hk
    cases hk
    decide
  refine (takes_disjunction h left (by omega) next).bind fun target' same => ?_
  refine (takes_accept? (List.mem_singleton.2 sign)).andThen ?_
  exact (h right (by omega) ends).bind fun value' same' => assigned target' value' same same'

theorem takes_assignment (h : TakesExpr n .assignment nested) :
    TakesExpr (n + 1) .assignment (assignment n nested) := by
  intro ts r e spells fits ends
  rcases spells.next_or_composed with spells | composed
  · refine (takes_disjunction h spells fits (ends.tighten (by decide))).bind fun e' same => ?_
    refine (takes_decline (ends.not_mem ?_)).andThen (.pure same)
    simp [Terminal.level?]
  · cases composed with
    | @assign site name equals ts value identifier sign right =>
        have left : Spells .disjunction [name] (.variable 0 name) :=
          (Spells.variable 0 identifier).loosen (by decide)
        refine takes_assigned h left sign right (by simp at fits ⊢; omega) ends ?_
        intro target' value' same same'
        cases target' <;> simp only [Expr.relabel, reduceCtorEq] at same
        rename_i site' name'
        have names := (Expr.variable.inj same).2
        refine takes_freshSite.bind fun site'' _ => .pure ?_
        rw [Expr.relabel, Expr.relabel, names, same']
        rfl
    | @set dot name equals ts ts' object value left mark identifier sign right =>
        have left : Spells .disjunction (ts ++ [dot, name]) (.get object name) :=
          (left.get mark identifier).loosen (by decide)
        have all := takes_assigned (e := .set object name value) h left sign right
          (by simp at fits ⊢; omega) ends ?_
        · simpa using all
        · intro target' value' same same'
          cases target' <;> simp only [Expr.relabel, reduceCtorEq] at same
          rename_i object' name'
          obtain ⟨objects, names⟩ := Expr.get.inj same
          exact .pure (by rw [Expr.relabel, Expr.relabel, objects, names, same'])
    | binary _ above => exact absurd above (by decide)
    | logical _ above => exact absurd above (by decide)

/-- The rule for expressions reads every expression that is as short as its bound. -/
theorem takes_expression (n : Nat) : TakesExpr n .assignment (parser n) := by
  induction n with
  | zero =>
      intro ts r e spells fits
      obtain ⟨t, ts, rfl, -⟩ := spells.head_ne
      exact absurd fits (Nat.not_succ_le_zero _)
  | succ n ih => exact takes_assignment ih

end Expr

/-! ### Statements -/

/-- What comes next does not continue a statement. -/
def NoElse (r : List Token) : Prop := ∀ t ∈ r.head?, t.terminal ≠ .keyword .else

def TakesStmt (n : Nat) (x : Parser Stmt) : Prop :=
  ∀ ⦃o ts r s⦄, Phrase (.statement o) ts s → ts.length ≤ n → (o → NoElse r) →
    Takes x (ts ++ r) r fun s' => s'.relabel .forget = s.relabel .forget

def TakesDecl (n : Nat) (x : Parser (Option Stmt)) : Prop :=
  ∀ ⦃ts r s⦄, Phrase .declaration ts s → ts.length ≤ n → NoElse r →
    Takes x (ts ++ r) r fun o => ∃ s', o = some s' ∧ s'.relabel .forget = s.relabel .forget

/-- The terminals behind a declaration that do not start another one. -/
def breaks : List Terminal := [.symbol .rightBrace, .eof, .keyword .else]

theorem Phrase.statement_head {o : Bool} {ts : List Token} {s : Stmt}
    (h : Phrase (.statement o) ts s) : ∃ t ts', ts = t :: ts' ∧
      t.terminal ∉ breaks ++ [.keyword .class, .keyword .fun, .keyword .var] := by
  have first {t : Token} {ts : List Token} {k : Terminal} (starts : t.terminal = k)
      (other : k ∉ breaks ++ [.keyword .class, .keyword .fun, .keyword .var]) :
      ∃ t' ts', t :: ts = t' :: ts' ∧
        t'.terminal ∉ breaks ++ [.keyword .class, .keyword .fun, .keyword .var] :=
    ⟨t, ts, rfl, starts ▸ other⟩
  cases h with
  | @expression ts _ semicolon value =>
      obtain ⟨t, ts, k, rfl, starts, -⟩ := value.head
      refine ⟨t, ts ++ [semicolon], rfl, fun mem => ?_⟩
      have none : ∀ k' ∈ breaks ++ [.keyword .class, .keyword .fun, .keyword .var],
          Terminal.starts? k' = none := by decide
      rw [none _ mem] at starts
      cases starts
  | block opens => exact first opens (by decide)
  | print starts => exact first starts (by decide)
  | «return» starts => exact first starts (by decide)
  | branch starts => exact first starts (by decide)
  | alternative starts => exact first starts (by decide)
  | «while» starts => exact first starts (by decide)
  | «for» starts => exact first starts (by decide)

theorem Phrase.declaration_head {ts : List Token} {s : Stmt} (h : Phrase .declaration ts s) :
    ∃ t ts', ts = t :: ts' ∧ t.terminal ∉ breaks := by
  cases h with
  | plain h =>
      obtain ⟨t, ts', rfl, other⟩ := h.statement_head
      exact ⟨t, ts', rfl, fun mem => other (List.mem_append_left _ mem)⟩
  | var starts => exact ⟨_, _, rfl, by rw [starts]; decide⟩
  | function starts => exact ⟨_, _, rfl, by rw [starts]; decide⟩
  | «class» starts => exact ⟨_, _, rfl, by rw [starts]; decide⟩

theorem NoElse.of_declaration {ts r : List Token} {s : Stmt} (h : Phrase .declaration ts s) :
    NoElse (ts ++ r) := by
  obtain ⟨t, ts, rfl, other⟩ := h.declaration_head
  intro t' ht word
  obtain rfl : t = t' := by simpa using ht
  rw [word] at other
  exact other (by decide)

theorem NoElse.of_ne {t : Token} {r : List Token} (other : t.terminal ≠ .keyword .else) :
    NoElse (t :: r) := by
  intro t' ht
  obtain rfl : t = t' := by simpa using ht
  exact other

namespace Stmt

variable {expression : Parser Expr} {statement : Parser Stmt} {declaration : Parser (Option Stmt)}
  {n m : Nat} {r : List Token}

section Expression

variable (he : TakesExpr m .assignment expression)
include he

theorem takes_terminated {es : List Token} {e : Expr} {semicolon : Token}
    (spells : Expr.Spells .assignment es e) (fits : es.length ≤ m)
    (ends : semicolon.terminal = .symbol .semicolon) (fault : GrammarFault) :
    Takes (terminated expression fault) (es ++ semicolon :: r) r fun e' =>
      e'.relabel .forget = e.relabel .forget :=
  (he spells fits (.of_none (by rw [ends]; rfl))).bind fun _ same =>
    (takes_expect ends fault).andThen (.pure same)

theorem takes_optionalBefore {ts : List Token} {o : Option Expr} (h : OptionalExpr ts o)
    (fits : ts.length ≤ m) {t : Token} {stop : Terminal} (here : t.terminal = stop)
    (level : stop.level? = none) (other : stop.starts? = none) :
    Takes (optionalBefore stop expression) (ts ++ t :: r) (t :: r) fun o' =>
      o'.map (Expr.relabel .forget) = o.map (Expr.relabel .forget) := by
  cases h with
  | none =>
      refine (takes_nextIs _).andThen ?_
      rw [here, List.contains_cons, beq_self_eq_true]
      exact .pure rfl
  | some spells =>
      have first := spells
      obtain ⟨t', ts, rfl, ne⟩ := first.head_ne
      refine (takes_nextIs _).andThen ?_
      have nothing : [stop].contains t'.terminal = false := by simpa using ne stop other
      rw [nothing]
      refine (he spells fits (.of_none (by rw [here, level]))).bind fun e' same => .pure ?_
      exact congrArg some same

theorem takes_varDecl {ts : List Token} {s : Stmt} (h : VarPhrase ts s) (fits : ts.length ≤ m) :
    Takes (varDecl expression) (ts ++ r) r fun s' => s'.relabel .forget = s.relabel .forget := by
  cases h with
  | none identifier ends =>
      refine (takes_expect identifier _).andThen ((takes_decline ?_).andThen ?_)
      · simp [ends]
      · refine Takes.andThen (.pure rfl) ?_
        exact (takes_expect ends _).andThen (.pure rfl)
  | @some name equals semicolon ts e identifier sign value ends =>
      simp only [List.cons_append, List.append_assoc, List.nil_append]
      refine (takes_expect identifier _).andThen ((takes_accept? ?_).andThen ?_)
      · simp [sign]
      · have first := (he value (r := semicolon :: r) (by simp at fits; omega)
          (.of_none (by rw [ends]; rfl))).map some (T := fun o =>
            o.map (Expr.relabel .forget) = (some e).map (Expr.relabel .forget)) fun e' same =>
              congrArg some same
        refine Takes.bind first fun o same => (takes_expect ends _).andThen (.pure ?_)
        rw [Stmt.relabel_var, Stmt.relabel_var, same]

theorem takes_returnStatement {word semicolon : Token} {ts : List Token} {value : Option Expr}
    (h : OptionalExpr ts value) (ends : semicolon.terminal = .symbol .semicolon)
    (fits : ts.length ≤ m) :
    Takes (returnStatement expression word) (ts ++ semicolon :: r) r fun s' =>
      s'.relabel .forget = (Stmt.return word value).relabel .forget := by
  refine (takes_optionalBefore he h fits ends rfl rfl).bind fun value' same => ?_
  refine (takes_expect ends _).andThen (.pure ?_)
  rw [Stmt.relabel_return, Stmt.relabel_return, same]

variable (hs : TakesStmt n statement)
include hs

theorem takes_whileStatement {left right : Token} {cs ts : List Token} {condition : Expr}
    {body : Stmt} {o : Bool} (opens : left.terminal = .symbol .leftParen)
    (first : Expr.Spells .assignment cs condition) (closes : right.terminal = .symbol .rightParen)
    (second : Phrase (.statement o) ts body) (fits : cs.length ≤ m) (fits' : ts.length ≤ n)
    (calm : o → NoElse r) :
    Takes (whileStatement expression statement) (left :: (cs ++ right :: (ts ++ r))) r fun s' =>
      s'.relabel .forget = (Stmt.while condition body).relabel .forget := by
  refine (takes_expect opens _).andThen ?_
  refine (he first fits (.of_none (by rw [closes]; rfl))).bind fun condition' same => ?_
  refine (takes_expect closes _).andThen ((hs second fits' calm).bind fun body' same' => .pure ?_)
  rw [Stmt.relabel, Stmt.relabel, same, same']

/-- The part of an `if` statement up to its first branch. -/
theorem takes_ifStatement {left right : Token} {cs ts rest : List Token} {condition : Expr}
    {consequence : Stmt} {o : Bool} {T : Stmt → Prop} (opens : left.terminal = .symbol .leftParen)
    (first : Expr.Spells .assignment cs condition) (closes : right.terminal = .symbol .rightParen)
    (second : Phrase (.statement o) ts consequence) (fits : cs.length ≤ m) (fits' : ts.length ≤ n)
    (calm : o → NoElse rest)
    (branches : ∀ condition' consequence',
      condition'.relabel .forget = condition.relabel .forget →
      consequence'.relabel .forget = consequence.relabel .forget →
      Takes (do
        match ← accept? [.keyword .else] with
        | some _ => return .branch condition' consequence' (some (← statement))
        | none => return .branch condition' consequence' none) rest r T) :
    Takes (ifStatement expression statement) (left :: (cs ++ right :: (ts ++ rest))) r T := by
  refine (takes_expect opens _).andThen ?_
  refine (he first fits (.of_none (by rw [closes]; rfl))).bind fun condition' same => ?_
  refine (takes_expect closes _).andThen ((hs second fits' calm).bind fun consequence' same' => ?_)
  exact branches condition' consequence' same same'

theorem takes_forStatement {left semicolon right : Token} {is cs ns ts : List Token}
    {initializer : Option Stmt} {condition increment : Option Expr} {body : Stmt} {o : Bool}
    (opens : left.terminal = .symbol .leftParen) (first : FirstClause is initializer)
    (second : OptionalExpr cs condition) (ends : semicolon.terminal = .symbol .semicolon)
    (third : OptionalExpr ns increment) (closes : right.terminal = .symbol .rightParen)
    (phrase : Phrase (.statement o) ts body) (fits : (is ++ cs ++ ns).length ≤ m)
    (fits' : ts.length ≤ n) (calm : o → NoElse r) :
    Takes (forStatement expression statement)
      (left :: (is ++ (cs ++ semicolon :: (ns ++ right :: (ts ++ r))))) r fun s' =>
      s'.relabel .forget = (forLoop initializer condition increment body).relabel .forget := by
  simp only [List.length_append] at fits
  have rest (initializer' : Option Stmt) (same : initializer'.map (Stmt.relabel .forget) =
      initializer.map (Stmt.relabel .forget)) :
      Takes (do
        let condition ← optionalBefore (.symbol .semicolon) expression
        let _ ← expect (.symbol .semicolon) .openLoopCondition
        let increment ← optionalBefore (.symbol .rightParen) expression
        let _ ← expect (.symbol .rightParen) .openForClauses
        return forLoop initializer' condition increment (← statement))
        (cs ++ semicolon :: (ns ++ right :: (ts ++ r))) r fun s' =>
        s'.relabel .forget = (forLoop initializer condition increment body).relabel .forget := by
    refine (takes_optionalBefore he second (by omega) ends rfl rfl).bind fun condition' same₂ => ?_
    refine (takes_expect ends _).andThen ?_
    refine (takes_optionalBefore he third (by omega) closes rfl rfl).bind fun increment' same₃ => ?_
    refine (takes_expect closes _).andThen ((hs phrase fits' calm).bind fun body' same₄ => .pure ?_)
    rw [relabel_forLoop, relabel_forLoop, same, same₂, same₃, same₄]
  refine (takes_expect opens _).andThen ?_
  cases first with
  | none mark =>
      refine (takes_accept? (by simp [mark])).andThen ?_
      simp only [mark, if_true]
      exact Takes.bind (Q := fun o => o.map (Stmt.relabel .forget) =
        (none : Option Stmt).map (Stmt.relabel .forget)) (.pure rfl) rest
  | @var word is s mark clause =>
      refine (takes_accept? (by simp [mark])).andThen ?_
      have other : word.terminal ≠ .symbol .semicolon := by simp [mark]
      simp only [other, if_false]
      refine Takes.bind (Q := fun o => o.map (Stmt.relabel .forget) =
        (some s).map (Stmt.relabel .forget)) ?_ rest
      exact (takes_varDecl he clause (by simp at fits; omega)).map some fun _ same =>
        congrArg some same
  | @expression semicolon' es e spells mark =>
      obtain ⟨t, es, rfl, ne⟩ := spells.head_ne
      rw [List.append_assoc]
      refine (takes_decline ?_).andThen ?_
      · intro t' ht
        obtain rfl : t = t' := by simpa using ht
        simp [ne (.symbol .semicolon) rfl, ne (.keyword .var) rfl]
      · refine Takes.bind (Q := fun o => o.map (Stmt.relabel .forget) =
          (some (Stmt.expression e)).map (Stmt.relabel .forget)) ?_ rest
        rw [← comp_map]
        have short : (t :: es).length ≤ m := by simp at fits ⊢; omega
        refine (takes_terminated he spells short mark _).map _ fun e' same => ?_
        exact congrArg some (by rw [Stmt.relabel, Stmt.relabel, same])

end Expression

section Declaration

variable (hd : TakesDecl n declaration) (le : n ≤ m)
include hd le

theorem takes_blockBody {bs : List Token} {body : List Stmt} {right : Token}
    (h : Phrase .declarations bs body) (closes : right.terminal = .symbol .rightBrace)
    (fits : bs.length ≤ n) :
    Takes (blockBody m declaration) (bs ++ right :: r) r fun body' =>
      Stmt.relabelAll .forget body' = Stmt.relabelAll .forget body := by
  have ends : Takes (nextIs [.symbol .rightBrace, .eof]) (right :: r) (right :: r) (· = true) :=
    (takes_nextIs _).andThen (.pure (by simp [closes]))
  refine (takes_itemsUntil (N := NoElse) (fun h fits next => hd h fits next) (fun h => ?_)
    NoElse.of_declaration ends (.of_ne (by simp [closes])) (Phrase.declarations_iff.1 h) fits
    le).bind fun body' same => ?_
  · obtain ⟨t, ts, rfl, other⟩ := Phrase.declaration_head h
    have stop : ∀ k ∈ [Terminal.symbol .rightBrace, .eof], k ∈ breaks := by decide
    exact ⟨t, ts, rfl, fun mem => other (stop _ mem)⟩
  · refine (takes_expect closes _).andThen (.pure ?_)
    rw [Stmt.relabelAll_eq_map, Stmt.relabelAll_eq_map, same]

theorem takes_functionDecl (form : FunctionForm) {ts : List Token} {d : FunctionDecl}
    (h : Phrase .function ts d) (fits : ts.length ≤ n) :
    Takes (functionDecl m declaration form) (ts ++ r) r fun d' =>
      d'.relabel .forget = d.relabel .forget := by
  cases h with
  | @decl name left right left' right' ps ts parameters body identifier opens given few closes
      opens' phrase closes' =>
      simp only [List.length_append, List.length_cons] at fits
      simp only [List.cons_append, List.append_assoc, List.nil_append]
      refine (takes_expect identifier _).andThen ((takes_expect opens _).andThen ?_)
      refine (takes_commaList (N := fun _ => True) (f := id) (n := m) ?_ ?_ (fun _ => trivial)
        closes trivial given few (by omega)).bind fun parameters' same => ?_
      · rintro _ p r ⟨rfl, identifier⟩ - -
        exact takes_expect identifier _
      · rintro _ p ⟨rfl, identifier⟩
        exact ⟨p, [], rfl, by simp [identifier]⟩
      · refine (takes_expect closes _).andThen ((takes_expect opens' _).andThen ?_)
        refine (takes_blockBody hd le phrase closes' (by omega)).bind fun body' same' => .pure ?_
        rw [List.map_id, List.map_id] at same
        rw [FunctionDecl.relabel, FunctionDecl.relabel, same, same']

theorem takes_classDecl {name left right : Token} {cs ts : List Token} {superclass : Option Expr}
    {methods : List FunctionDecl} (identifier : name.terminal = .identifier)
    (clause : SuperClause cs superclass) (opens : left.terminal = .symbol .leftBrace)
    (body : Phrase .functions ts methods) (closes : right.terminal = .symbol .rightBrace)
    (fits : ts.length ≤ n) :
    Takes (classDecl m declaration) (name :: (cs ++ left :: (ts ++ right :: r))) r fun s' =>
      s'.relabel .forget = (Stmt.class name superclass methods).relabel .forget := by
  have ends : Takes (nextIs [.symbol .rightBrace, .eof]) (right :: r) (right :: r) (· = true) :=
    (takes_nextIs _).andThen (.pure (by simp [closes]))
  have rest (superclass' : Option Expr) (same : superclass'.map (Expr.relabel .forget) =
      superclass.map (Expr.relabel .forget)) :
      Takes (do
        let _ ← expect (.symbol .leftBrace) .noClassBody
        let methods ← itemsUntil [.symbol .rightBrace, .eof] m
          (some <$> functionDecl m declaration .method)
        let _ ← expect (.symbol .rightBrace) .openClassBody
        return .class name superclass' methods) (left :: (ts ++ right :: r)) r fun (s' : Stmt) =>
        s'.relabel .forget = (Stmt.class name superclass methods).relabel .forget := by
    refine (takes_expect opens _).andThen ?_
    refine (takes_itemsUntil (N := fun _ => True) (f := FunctionDecl.relabel .forget)
      (fun h fits _ => ?_) (fun h => ?_) (fun _ => trivial) ends trivial
      (Phrase.functions_iff.1 body) fits le).bind fun methods' same' => ?_
    · exact (takes_functionDecl hd le .method h fits).map some fun d' same => ⟨d', rfl, same⟩
    · cases h with
      | decl identifier => exact ⟨_, _, rfl, by simp [identifier]⟩
    · refine (takes_expect closes _).andThen (.pure ?_)
      rw [Stmt.relabel_class, Stmt.relabel_class, same, Stmt.relabelMethods_eq_map,
        Stmt.relabelMethods_eq_map, same']
  refine (takes_expect identifier _).andThen ?_
  cases clause with
  | none =>
      refine (takes_decline (by simp [opens])).andThen ?_
      exact Takes.bind (Q := fun o => o.map (Expr.relabel .forget) =
        (none : Option Expr).map (Expr.relabel .forget)) (.pure rfl) rest
  | @some less superName site mark parent =>
      refine (takes_accept? (by simp [mark])).andThen ((takes_expect parent _).andThen ?_)
      refine takes_freshSite.bind fun site' _ => ?_
      exact Takes.bind (Q := fun o => o.map (Expr.relabel .forget) =
        (some (Expr.variable site superName)).map (Expr.relabel .forget)) (.pure rfl) rest

variable (hs : TakesStmt n statement)
include hs

theorem takes_simple {o : Bool} {ts : List Token} {s : Stmt} (h : Phrase (.statement o) ts s)
    (fits : ts.length ≤ n + 1) (bound : n + 1 = m) (calm : o → NoElse r) :
    Takes (simple m statement declaration) (ts ++ r) r fun s' =>
      s'.relabel .forget = s.relabel .forget := by
  have he : TakesExpr m .assignment (Expr.parser m) := Expr.takes_expression m
  cases h with
  | @expression es e semicolon spells ends =>
      obtain ⟨t, es, rfl, ne⟩ := spells.head_ne
      rw [List.append_assoc]
      refine (takes_peek t).andThen ?_
      have read := (takes_terminated he spells (r := r) (by simp at fits ⊢; omega) ends
        .openExpressionStatement).map Stmt.expression (T := fun s' =>
          s'.relabel .forget = (Stmt.expression e).relabel .forget) fun e' same => by
            rw [Stmt.relabel, Stmt.relabel, same]
      split <;> first
        | exact read
        | exact absurd (by assumption) (ne _ rfl)
  | @print word ts e semicolon starts spells ends =>
      simp only [List.cons_append, List.append_assoc, List.nil_append]
      refine (takes_peek word).andThen ?_
      simp only [starts]
      refine (takes_skip word).andThen ?_
      refine (takes_terminated he spells (by simp at fits; omega) ends _).map _ fun e' same => ?_
      rw [Stmt.relabel, Stmt.relabel, same]
  | @«return» word ts value semicolon starts value ends =>
      simp only [List.cons_append, List.append_assoc, List.nil_append]
      refine (takes_peek word).andThen ?_
      simp only [starts]
      exact (takes_skip word).andThen (takes_returnStatement he value ends (by simp at fits; omega))
  | @block left ts body right opens phrase closes =>
      simp only [List.cons_append, List.append_assoc, List.nil_append]
      refine (takes_peek left).andThen ?_
      simp only [opens]
      refine (takes_skip left).andThen ?_
      have read := takes_blockBody (r := r) hd le phrase closes (by simp at fits; omega)
      refine read.map _ fun body' same => ?_
      rw [Stmt.relabel, Stmt.relabel, same]
  | @branch word left right cs ts condition o consequence starts opens spells closes phrase =>
      simp only [List.cons_append, List.append_assoc]
      simp only [List.length_append, List.length_cons] at fits
      refine (takes_peek word).andThen ?_
      simp only [starts]
      refine (takes_skip word).andThen (takes_ifStatement he hs opens spells closes phrase
        (by omega) (by omega) (fun _ => calm rfl) fun condition' consequence' same same' => ?_)
      refine (takes_decline ?_).andThen (.pure ?_)
      · exact fun t ht word => calm rfl t ht (List.mem_singleton.1 word)
      · rw [Stmt.relabel, Stmt.relabel, same, same']
  | @alternative word left right word' cs ts ts' condition o consequence alternative starts opens
      spells closes phrase between phrase' =>
      simp only [List.cons_append, List.append_assoc]
      simp only [List.length_append, List.length_cons] at fits
      refine (takes_peek word).andThen ?_
      simp only [starts]
      refine (takes_skip word).andThen (takes_ifStatement he hs opens spells closes phrase
        (by omega) (by omega) nofun fun condition' consequence' same same' => ?_)
      refine (takes_accept? (List.mem_singleton.2 between)).andThen ?_
      refine (hs phrase' (by omega) calm).bind fun alternative' same'' => .pure ?_
      rw [Stmt.relabel, Stmt.relabel, same, same', same'']
  | @«while» word left right cs ts condition o body starts opens spells closes phrase =>
      simp only [List.cons_append, List.append_assoc]
      simp only [List.length_append, List.length_cons] at fits
      refine (takes_peek word).andThen ?_
      simp only [starts]
      exact (takes_skip word).andThen (takes_whileStatement he hs opens spells closes phrase
        (by omega) (by omega) calm)
  | @«for» word left semicolon right is cs ns ts initializer condition increment o body starts opens
      first second ends third closes phrase =>
      simp only [List.cons_append, List.append_assoc]
      simp only [List.length_append, List.length_cons] at fits
      refine (takes_peek word).andThen ?_
      simp only [starts]
      exact (takes_skip word).andThen (takes_forStatement he hs opens first second ends third closes
        phrase (by simp only [List.length_append]; omega) (by omega) calm)

theorem takes_declared {ts : List Token} {s : Stmt} (h : Phrase .declaration ts s)
    (fits : ts.length ≤ n + 1) (bound : n + 1 = m) (calm : NoElse r) :
    Takes (declared m statement declaration) (ts ++ r) r fun s' =>
      s'.relabel .forget = s.relabel .forget := by
  cases h with
  | plain phrase =>
      have read := takes_simple hd le hs phrase fits bound fun _ => calm
      obtain ⟨t, ts, rfl, other⟩ := phrase.statement_head
      refine (takes_peek t).andThen ?_
      split
      · rename_i word
        exact absurd (by rw [word]; decide) other
      · rename_i word
        exact absurd (by rw [word]; decide) other
      · rename_i word
        exact absurd (by rw [word]; decide) other
      · exact read
  | @var word ts s starts clause =>
      refine (takes_peek word).andThen ?_
      simp only [starts]
      exact (takes_skip word).andThen (takes_varDecl (Expr.takes_expression m) clause
        (by simp at fits; omega))
  | @function word ts d starts phrase =>
      refine (takes_peek word).andThen ?_
      simp only [starts]
      refine (takes_skip word).andThen ?_
      refine (takes_functionDecl hd le .function phrase (by simp at fits; omega)).map _
        fun d' same => ?_
      rw [Stmt.relabel, Stmt.relabel, same]
  | @«class» word name left right cs ts superclass methods starts identifier clause opens phrase
      closes =>
      simp only [List.cons_append, List.append_assoc, List.nil_append]
      simp only [List.length_append, List.length_cons] at fits
      refine (takes_peek word).andThen ?_
      simp only [starts]
      exact (takes_skip word).andThen (takes_classDecl hd le identifier clause opens phrase closes
        (by omega))

end Declaration

theorem takes_attempt {rule : Parser Stmt} {ts : List Token} {s : Stmt}
    (h : Takes rule (ts ++ r) r fun s' => s'.relabel .forget = s.relabel .forget) :
    Takes (attempt rule) (ts ++ r) r fun o =>
      ∃ s', o = some s' ∧ s'.relabel .forget = s.relabel .forget := by
  intro state hs eof
  obtain ⟨s', site, read, same⟩ := h state hs eof
  exact ⟨some s', site, attempt_of_ok read, s', rfl, same⟩

/-- The rules for statements and declarations read every phrase that is as short as their bound. -/
theorem takes_statements (n : Nat) :
    TakesStmt n (Stmt.parser n) ∧ TakesDecl n (Stmt.declarationParser n) := by
  induction n with
  | zero =>
      refine ⟨fun o ts r s h fits => ?_, fun ts r s h fits => ?_⟩
      · obtain ⟨t, ts, rfl, -⟩ := h.statement_head
        exact absurd fits (Nat.not_succ_le_zero _)
      · obtain ⟨t, ts, rfl, -⟩ := h.declaration_head
        exact absurd fits (Nat.not_succ_le_zero _)
  | succ n ih =>
      refine ⟨fun o ts r s h fits calm => ?_, fun ts r s h fits calm => ?_⟩
      · exact takes_simple ih.2 (Nat.le_succ n) ih.1 h fits rfl calm
      · exact takes_attempt (takes_declared ih.2 (Nat.le_succ n) ih.1 h fits rfl calm)

end Stmt

/-- Tokens that stand for a program up to the end of the tokens are read without errors, as that
program. -/
theorem parse_accepts_start {tokens : List Token} {statements : List Stmt}
    (h : Phrase .declarations (tokens.takeWhile (·.terminal ≠ .eof)) statements)
    (firstSite : Site) :
    (parse tokens firstSite).errors = [] ∧
      Stmt.relabelAll .forget (parse tokens firstSite).statements =
        Stmt.relabelAll .forget statements := by
  let start := ParseState.start tokens firstSite
  have last : Takes (nextIs [.eof]) [] [] (· = true) := by
    rintro ⟨_, eof, site, errors⟩ rfl terminal
    refine ⟨true, site, ?_, rfl⟩
    change EStateM.Result.ok ([Terminal.eof].contains eof.terminal) _ = _
    rw [terminal]
    rfl
  have declaration := (Stmt.takes_statements start.rest.length).2
  have all := takes_itemsUntil (N := NoElse) (f := Stmt.relabel .forget)
    (fun h fits next => declaration h fits next) (fun h => ?_) NoElse.of_declaration last nofun
    (Phrase.declarations_iff.1 h) (Nat.le_refl _) (Nat.le_refl _)
  · obtain ⟨statements', site, read, same⟩ :=
      all start (List.append_nil _).symm (eofOf_terminal tokens)
    rw [parse_of_ok read]
    refine ⟨rfl, ?_⟩
    rw [Stmt.relabelAll_eq_map, Stmt.relabelAll_eq_map, same]
  · obtain ⟨t, ts, rfl, other⟩ := Phrase.declaration_head h
    have stop : ∀ k ∈ [Terminal.eof], k ∈ breaks := by decide
    exact ⟨t, ts, rfl, fun mem => other (stop _ mem)⟩

/-- A token list that stands for a program is read without errors, as that program. -/
theorem parse_accepts {tokens : List Token} {statements : List Stmt}
    (h : Phrase .declarations tokens statements) (proper : ∀ t ∈ tokens, t.terminal ≠ .eof)
    (firstSite : Site) :
    (parse tokens firstSite).errors = [] ∧
      Stmt.relabelAll .forget (parse tokens firstSite).statements =
        Stmt.relabelAll .forget statements := by
  refine parse_accepts_start ?_ firstSite
  rwa [List.takeWhile_eq_self_iff.2 (by simpa using proper)]

end Lox
