import Lox.Proofs.Grammar.Phrase
import Lox.Proofs.Grammar.Shape

/-!
# What is read without errors

A rule that notes no error has read a phrase, which stands for its result.  `Clean noted I s` says
of a state that it was reached without errors only if the tokens still to be read satisfy `I`.  With
`I r` for "the tokens so far and then `r` are those at the start", `Gives noted x P` says of a rule
that it reads tokens with `P` of them, of what is left and of its result.

`gives_expression` and `gives_statements` say so of the recursive rules, by induction on their
bounds, and `parse_phrase` of a whole program: its tokens are read to the last one.
-/

namespace Lox

open Lox.Parser

/-- If no error has been noted, the tokens to be read satisfy `I`. -/
structure Clean (noted : Array GrammarError) (I : List Token → Prop) (s : ParseState) : Prop where
  eof : s.eof.terminal = .eof
  errors : noted.toList <+: s.errors.toList
  holds : s.errors = noted → I s.rest

variable {noted : Array GrammarError} {I J : List Token → Prop}

namespace Clean

variable {s s' : ParseState}

theorem imp (h : Clean noted I s) (hIJ : ∀ r, I r → J r) : Clean noted J s :=
  ⟨h.eof, h.errors, fun same => hIJ _ (h.holds same)⟩

/-- What is done to the state without noting errors. -/
theorem pass (h : Clean noted I s) (passed : Passed s s') (same : s'.errors = s.errors)
    (hIJ : I s.rest → J s'.rest) : Clean noted J s' :=
  ⟨passed.eof ▸ h.eof, same ▸ h.errors, fun unchanged => hIJ (h.holds (same ▸ unchanged))⟩

/-- After one more error, nothing is said about the tokens. -/
theorem noted_more (h : Clean noted I s) (passed : Passed s s')
    (more : s.errors.size < s'.errors.size) : Clean noted J s' := by
  refine ⟨passed.eof ▸ h.eof, h.errors.trans passed.errors, fun unchanged => ?_⟩
  have fewer := h.errors.length_le
  simp only [Array.length_toList] at fewer
  rw [unchanged] at more
  exact absurd more (Nat.not_lt_of_le fewer)

theorem noted_push (h : Clean noted I s) (e : GrammarError) :
    Clean noted J { s with errors := s.errors.push e } :=
  h.noted_more (.note s e) (by simp)

end Clean

namespace Parser

/-- The rule reads tokens that satisfy `P` together with those that are left and the result. -/
def Gives (noted : Array GrammarError) (x : Parser α) (P : List Token → List Token → α → Prop) :
    Prop :=
  ∀ I : List Token → Prop, Reads (Clean noted I) x fun a => Clean noted fun r =>
    ∃ ts, I (ts ++ r) ∧ P ts r a

theorem Reads.weaken {P Q : ParseState → Prop} {x : Parser α} {T : α → ParseState → Prop}
    (h : Reads P x T) (hQP : ∀ s, Q s → P s) : Reads Q x T :=
  fun s hs => h s (hQP s hs)

theorem clean_pure (a : α) {K : α → List Token → Prop} (h : ∀ r, I r → K a r) :
    Reads (Clean noted I) (pure a) fun a => Clean noted (K a) :=
  .pure a fun _ hs => hs.imp h

theorem Gives.map {x : Parser α} {P : List Token → List Token → α → Prop} (f : α → β)
    {K : β → List Token → Prop} (h : Gives noted x P)
    (hK : ∀ ts r a, I (ts ++ r) → P ts r a → K (f a) r) :
    Reads (Clean noted I) (f <$> x) fun b => Clean noted (K b) := by
  refine (h I).map f fun a s hs => hs.imp ?_
  rintro r ⟨ts, here, holds⟩
  exact hK ts r a here holds

theorem clean_fail (fault : GrammarFault) {K : α → List Token → Prop} :
    Reads (Clean noted I) (fail fault : Parser α) fun a => Clean noted (K a) :=
  reads_fail fault

/-- The tokens to be read satisfy `I`, and the first is `t`, if there is one. -/
def Ahead (t : Token) (I : List Token → Prop) (r : List Token) : Prop :=
  I r ∧ (t.terminal ≠ .eof → ∃ r', r = t :: r')

theorem clean_peek : Reads (Clean noted I) peek fun t => Clean noted (Ahead t I) := by
  refine fun s hs => ⟨.refl s, hs.eof, hs.errors, fun same => ⟨hs.holds same, fun proper => ?_⟩⟩
  cases hr : s.rest with
  | nil =>
      rw [hr, List.headD_nil] at proper
      exact absurd hs.eof proper
  | cons t r => exact ⟨r, rfl⟩

theorem clean_skip {t : Token} (proper : t.terminal ≠ .eof) :
    Reads (Clean noted (Ahead t I)) skip fun _ => Clean noted fun r => I (t :: r) := by
  intro s hs
  refine ⟨.read (List.tail_suffix _), hs.pass (.read (List.tail_suffix _)) rfl ?_⟩
  rintro ⟨here, first⟩
  obtain ⟨r, hr⟩ := first proper
  rw [hr] at here
  rwa [hr]

theorem clean_freshSite : Reads (Clean noted I) freshSite fun _ => Clean noted I := by
  intro s hs
  have passed : Passed s { s with nextSite := s.nextSite + 1 } :=
    ⟨List.suffix_refl _, rfl, Nat.le_succ _, List.prefix_refl _⟩
  exact ⟨passed, hs.pass passed rfl id⟩

/-- A rule that continues after a token that was looked at. -/
theorem Gives.after {t : Token} {x : Parser α} {P P' : List Token → List Token → α → Prop}
    (h : Gives noted x P) (proper : t.terminal ≠ .eof)
    (built : ∀ ts r a, P ts r a → P' (t :: ts) r a) :
    Reads (Clean noted (Ahead t I)) (do skip; x) fun a => Clean noted fun r =>
      ∃ ts, I (ts ++ r) ∧ P' ts r a := by
  refine (clean_skip proper).bind fun _ => (h _).imp fun a s hs => hs.imp ?_
  rintro r ⟨ts, here, holds⟩
  exact ⟨t :: ts, here, built ts r a holds⟩

/-- What holds of the tokens to be read after one of `terminals` has been read, if it was there. -/
def Accepted (terminals : List Terminal) (I : List Token → Prop) : Option Token → List Token → Prop
  | none, r => I r ∧ ∀ t ∈ r.head?, t.terminal ∉ terminals
  | some t, r => I (t :: r) ∧ t.terminal ∈ terminals

theorem clean_accept? (terminals : List Terminal) :
    Reads (Clean noted I) (accept? terminals) fun o =>
      Clean noted (Accepted terminals I o) := by
  intro s hs
  obtain ⟨t, rest, next, there, read⟩ | ⟨other, declined⟩ := accept?_cases terminals s
  · have passed : Passed s { s with rest } := .read (by simp [next])
    rw [read]
    exact ⟨passed, hs.pass passed rfl fun here => ⟨next ▸ here, there⟩⟩
  · rw [declined]
    exact ⟨.refl s, hs.pass (.refl s) rfl fun here => ⟨here, other⟩⟩

theorem clean_acceptAll (terminals : List Terminal) :
    Reads (Clean noted I) (acceptAll terminals) fun ts => Clean noted fun r =>
      I (ts ++ r) ∧ ∀ t ∈ ts, t.terminal ∈ terminals := by
  intro s hs
  have passed : Passed s { s with
      rest := s.rest.dropWhile fun t => terminals.contains t.terminal } :=
    .read (List.dropWhile_suffix _)
  refine ⟨passed, hs.pass passed rfl fun here => ⟨?_, fun t ht => ?_⟩⟩
  · rwa [List.takeWhile_append_dropWhile]
  · simpa using List.mem_takeWhile_imp ht

theorem clean_expect (terminal : Terminal) (fault : GrammarFault) :
    Reads (Clean noted I) (expect terminal fault) fun t =>
      Clean noted fun r => I (t :: r) ∧ t.terminal = terminal := by
  refine (clean_accept? [terminal]).bind fun o => ?_
  cases o with
  | none => exact clean_fail fault
  | some t => exact clean_pure t fun r here => ⟨here.1, List.mem_singleton.1 here.2⟩

theorem clean_nextIs (terminals : List Terminal) :
    Reads (Clean noted I) (nextIs terminals) fun there => Clean noted fun r =>
      I r ∧ (there → ∀ t ∈ r.head?, t.terminal ∈ terminals) := by
  refine fun s hs => ⟨.refl s, hs.pass (.refl s) rfl fun here => ⟨here, fun there t ht => ?_⟩⟩
  cases hr : s.rest with
  | nil => simp [hr] at ht
  | cons t' r =>
      obtain rfl : t' = t := by simpa [hr] using ht
      simpa [hr] using there

/-- What holds of the tokens after a round of a repetition: `K b` if it goes on with `b`, or `T`. -/
def Onward (K : α → List Token → Prop) (T : List Token → Prop) : Option α → List Token → Prop
  | none, r => T r
  | some b, r => K b r

/-- In each round of a repetition that has `k` rounds left, `K k` holds of what has been found. -/
theorem clean_chain {K : Nat → α → List Token → Prop} {T : α → List Token → Prop}
    {step : α → Parser (Option α)} (stop : ∀ a r, K 0 a r → T a r)
    (h : ∀ k a, Reads (Clean noted (K (k + 1) a)) (step a) fun o =>
      Clean noted (Onward (K k) (T a) o)) (bound : Nat) (a : α) :
    Reads (Clean noted (K bound a)) (chain step bound a) fun a => Clean noted (T a) := by
  induction bound generalizing a with
  | zero => exact clean_pure a (stop a)
  | succ k ih =>
      refine (h k a).bind fun o => ?_
      cases o with
      | none => exact clean_pure a fun r here => here
      | some b => exact (ih b).weaken fun s hs => hs.imp fun r here => here

/-- Items are read up to a token where they stop, if the bound allows for it. -/
theorem gives_itemsUntil (stop : List Terminal) (bound : Nat) {item : Parser (Option α)}
    {P : List Token → α → Prop} (h : Gives noted item fun ts _ o => ∃ a, o = some a ∧ P ts a)
    (progress : ∀ {ts a}, P ts a → ts ≠ []) :
    Gives noted (itemsUntil stop bound item) fun ts r as =>
      Sequence P ts as ∧ ((∀ t ∈ r.head?, t.terminal ∈ stop) ∨ bound ≤ ts.length) := by
  intro I
  let K (k : Nat) (found : Array α) (r : List Token) : Prop :=
    ∃ ts, I (ts ++ r) ∧ Sequence P ts found.toList ∧ bound ≤ ts.length + k
  let T (found : Array α) (r : List Token) : Prop :=
    ∃ ts, I (ts ++ r) ∧ Sequence P ts found.toList ∧
      ((∀ t ∈ r.head?, t.terminal ∈ stop) ∨ bound ≤ ts.length)
  refine Reads.bind (Q := fun found => Clean noted (T found)) ?_ fun found =>
    clean_pure found.toList fun r here => here
  refine (clean_chain (K := K) (T := T) (fun found r => ?_) (fun k found => ?_) bound _).weaken
    fun s hs => hs.imp fun r here => ⟨[], here, .nil, Nat.le_add_left _ _⟩
  · rintro ⟨ts, here, items, enough⟩
    exact ⟨ts, here, items, .inr enough⟩
  · refine (clean_nextIs stop).bind fun there => ?_
    cases there with
    | true =>
        refine clean_pure none ?_
        rintro r ⟨⟨ts, here, items, -⟩, ends⟩
        exact ⟨ts, here, items, .inl (ends rfl)⟩
    | false =>
        refine (h _).bind fun o => ?_
        cases o with
        | none =>
            refine clean_pure (some found) ?_
            rintro r ⟨ts', -, a, absurd, -⟩
            cases absurd
        | some a =>
            refine clean_pure (some (found.push a)) ?_
            rintro r ⟨ts', ⟨⟨ts, here, items, enough⟩, -⟩, b, same, one⟩
            obtain rfl := Option.some.inj same
            refine ⟨ts ++ ts', by simpa using here, by simpa using items.snoc one, ?_⟩
            have := List.length_pos_iff.2 (progress one)
            simp only [List.length_append]
            omega

theorem gives_limited (excess : GrammarFault) {item : Parser α} {P : List Token → α → Prop}
    (h : Gives noted item fun ts _ a => P ts a) (found : Array α) :
    Gives noted (limited excess item found) fun ts _ as =>
      found.size < itemLimit ∧ ∃ a, as = found.push a ∧ P ts a := by
  intro I
  have rest {I : List Token → Prop} (few : ∀ r, I r → found.size < itemLimit) :
      Reads (Clean noted I) (do return found.push (← item)) fun (as : Array α) => Clean noted
        fun r => ∃ ts, I (ts ++ r) ∧ found.size < itemLimit ∧ ∃ a, as = found.push a ∧ P ts a := by
    refine (h I).bind fun a => clean_pure _ ?_
    rintro r ⟨ts, here, one⟩
    exact ⟨ts, here, few _ here, a, rfl, one⟩
  unfold limited
  split
  · refine clean_peek.bind fun t => ?_
    refine Reads.bind (Q := fun _ => Clean noted fun _ => False) (fun s hs => ?_) fun _ => ?_
    · exact ⟨.note s _, hs.noted_push ⟨excess, t⟩⟩
    · exact (rest nofun).imp fun as s hs => hs.imp fun r ⟨_, absurd, _⟩ => absurd.elim
  · rename_i few
    exact rest fun _ _ => Nat.lt_of_not_le few

theorem gives_commaList (excess : GrammarFault) (bound : Nat) {item : Parser α}
    {P : List Token → α → Prop} (h : Gives noted item fun ts _ a => P ts a) :
    Gives noted (commaList excess bound item) fun ts _ as =>
      CommaList P ts as ∧ as.length ≤ 255 := by
  intro I
  let K (found : Array α) (r : List Token) : Prop :=
    ∃ ts, I (ts ++ r) ∧ CommaList P ts found.toList ∧ found.toList ≠ [] ∧ found.size ≤ 255
  refine (clean_nextIs _).bind fun empty => ?_
  cases empty with
  | true => exact clean_pure [] fun r here => ⟨[], here.1, .nil, Nat.zero_le _⟩
  | false =>
      refine (gives_limited excess h #[] _).bind fun first => ?_
      refine Reads.bind (Q := fun found => Clean noted (K found)) ?_ fun found => ?_
      · refine (clean_chain (K := fun _ => K) (T := K) (fun _ _ here => here) (fun k found => ?_)
          bound first).weaken fun s hs => hs.imp ?_
        · refine (clean_accept? _).bind fun comma => ?_
          cases comma with
          | none => exact clean_pure none fun r here => here.1
          | some comma =>
              refine (gives_limited excess h found _).bind fun found' => clean_pure _ ?_
              rintro r ⟨ts', ⟨⟨ts, here, items, some, -⟩, mark⟩, few, a, rfl, one⟩
              refine ⟨ts ++ comma :: ts', by simpa using here, ?_, by simp, ?_⟩
              · simpa using items.snoc some (List.mem_singleton.1 mark) one
              · rw [Array.size_push]
                exact Nat.succ_le_of_lt few
        · rintro r ⟨ts, here, few, a, rfl, one⟩
          exact ⟨ts, here.1, .one one, by simp, by simp⟩
      · refine clean_pure found.toList ?_
        rintro r ⟨ts, here, items, -, few⟩
        exact ⟨ts, here, items, by simpa using few⟩

end Parser

/-! ### Expressions -/

abbrev GivesExpr (noted : Array GrammarError) (l : Level) (x : Parser Expr) : Prop :=
  Gives noted x fun ts _ e => Expr.Spells l ts e

namespace Expr

variable {nested : Parser Expr}

theorem gives_primary (h : GivesExpr noted .assignment nested) :
    GivesExpr noted .primary (primary nested) := by
  intro I
  have one (t : Token) (proper : t.terminal ≠ .eof) (e : Expr) (spells : Spells .primary [t] e) :
      Reads (Clean noted (Ahead t I)) (do skip; return e) fun e => Clean noted fun r =>
        ∃ ts, I (ts ++ r) ∧ Spells .primary ts e :=
    (clean_skip proper).bind fun _ => clean_pure e fun r here => ⟨[t], here, spells⟩
  refine clean_peek.bind fun t => ?_
  have proper {k : Kind} (hk : t.kind = k) (ne : k.terminal ≠ .eof) : t.terminal ≠ .eof := by
    rwa [Token.terminal, hk]
  have terminal {k : Kind} (hk : t.kind = k) : t.terminal = k.terminal := by
    rw [Token.terminal, hk]
  split
  all_goals rename_i hk
  · exact one t (proper hk (by decide)) _ (.literal hk)
  · exact one t (proper hk (by decide)) _ (.literal hk)
  · exact one t (proper hk (by decide)) _ (.literal hk)
  · exact one t (proper hk (by simp [Kind.terminal])) _ (.literal hk)
  · exact one t (proper hk (by simp [Kind.terminal])) _ (.literal hk)
  · refine (clean_skip (proper hk (by decide))).bind fun _ => ?_
    refine (clean_expect _ _).bind fun dot => (clean_expect _ _).bind fun method => ?_
    refine clean_freshSite.bind fun site => clean_pure _ ?_
    rintro r ⟨⟨here, mark⟩, identifier⟩
    exact ⟨[t, dot, method], here, .super site (terminal hk) mark identifier⟩
  · refine (clean_skip (proper hk (by decide))).bind fun _ => ?_
    exact clean_freshSite.bind fun site => clean_pure _ fun r here =>
      ⟨[t], here, .this site (terminal hk)⟩
  · refine (clean_skip (proper hk (by decide))).bind fun _ => ?_
    exact clean_freshSite.bind fun site => clean_pure _ fun r here =>
      ⟨[t], here, .variable site (terminal hk)⟩
  · refine (clean_skip (proper hk (by decide))).bind fun _ => ?_
    refine (h _).bind fun inner => (clean_expect _ _).bind fun right => clean_pure _ ?_
    rintro r ⟨⟨ts, here, spells⟩, closes⟩
    exact ⟨t :: (ts ++ [right]), by simpa using here, .grouping (terminal hk) spells closes⟩
  · exact clean_fail _

theorem gives_finishCall (bound : Nat) (h : GivesExpr noted .assignment nested) (callee : Expr) :
    Gives noted (finishCall bound nested callee) fun ts _ e =>
      ∀ cs left, Spells .call cs callee → left.terminal = .symbol .leftParen →
        Spells .call (cs ++ left :: ts) e := by
  intro I
  refine (gives_commaList _ bound h I).bind fun arguments => ?_
  refine (clean_expect _ _).bind fun right => clean_pure _ ?_
  rintro r ⟨⟨ts, here, given, few⟩, closes⟩
  refine ⟨ts ++ [right], by simpa using here, fun cs left spells opens => ?_⟩
  exact .call spells opens given few closes

theorem gives_called (bound : Nat) (h : GivesExpr noted .assignment nested) :
    GivesExpr noted .call (called bound nested) := by
  intro I
  let K (e : Expr) (r : List Token) : Prop := ∃ ts, I (ts ++ r) ∧ Spells .call ts e
  refine (gives_primary h I).bind fun first => ?_
  refine (clean_chain (K := fun _ => K) (T := K) (fun _ _ here => here) (fun k e => ?_)
    bound first).weaken fun s hs => hs.imp ?_
  · refine (clean_accept? _).bind fun o => ?_
    cases o with
    | none => exact clean_pure none fun r here => here.1
    | some t =>
        dsimp only
        split
        · rename_i opens
          refine (gives_finishCall bound h e _).bind fun e' => clean_pure _ ?_
          rintro r ⟨ts', ⟨⟨ts, here, spells⟩, -⟩, built⟩
          exact ⟨ts ++ t :: ts', by simpa using here, built ts t spells opens⟩
        · rename_i other
          refine (clean_expect _ _).bind fun name => clean_pure _ ?_
          rintro r ⟨⟨⟨ts, here, spells⟩, mark⟩, identifier⟩
          have dot : t.terminal = .symbol .dot := by simpa [other] using mark
          exact ⟨ts ++ [t, name], by simpa using here, .get spells dot identifier⟩
  · rintro r ⟨ts, here, spells⟩
    exact ⟨ts, here, spells.loosen (by decide)⟩

theorem gives_negated (bound : Nat) (h : GivesExpr noted .assignment nested) :
    GivesExpr noted .unary (negated bound nested) := by
  intro I
  refine (clean_acceptAll _).bind fun os => (gives_called bound h _).bind fun e => clean_pure _ ?_
  rintro r ⟨ts, ⟨here, operators⟩, spells⟩
  exact ⟨os ++ ts, by simpa using here, .negated operators (spells.loosen (by decide))⟩

variable {operand : Parser Expr} {l l' : Level}

/-- Operands of level `l'` and operators of the level `l` between them. -/
theorem gives_leftGrouped (bound : Nat) {build : Expr → Token → Expr → Expr}
    (h : GivesExpr noted l' operand) (tighter : l < l')
    (built : ∀ {o ts a ts' b}, o.terminal ∈ l.operators → Spells l ts a → Spells l' ts' b →
      Spells l (ts ++ o :: ts') (build a o b)) :
    GivesExpr noted l (leftGrouped bound l.operators build operand) := by
  intro I
  let K (e : Expr) (r : List Token) : Prop := ∃ ts, I (ts ++ r) ∧ Spells l ts e
  refine (h I).bind fun first => ?_
  refine (clean_chain (K := fun _ => K) (T := K) (fun _ _ here => here) (fun k e => ?_)
    bound first).weaken fun s hs => hs.imp ?_
  · refine (clean_accept? _).bind fun o => ?_
    cases o with
    | none => exact clean_pure none fun r here => here.1
    | some o =>
        refine (h _).bind fun right => clean_pure _ ?_
        rintro r ⟨ts', ⟨⟨ts, here, left⟩, operator⟩, right⟩
        exact ⟨ts ++ o :: ts', by simpa using here, built operator left right⟩
  · rintro r ⟨ts, here, spells⟩
    exact ⟨ts, here, spells.loosen (Nat.le_of_lt tighter)⟩

theorem gives_binary (bound : Nat) (h : GivesExpr noted l' operand) (tighter : l < l')
    (above : .equality ≤ l) (below : l ≤ .factor) :
    GivesExpr noted l (leftGrouped bound l.operators binary operand) :=
  gives_leftGrouped bound h tighter fun operator left right =>
    .binary ((Level.mem_operators (Nat.le_trans (by decide) above) below).1 operator) above below
      left right tighter

theorem gives_logical (bound : Nat) (h : GivesExpr noted l' operand) (tighter : l < l')
    (above : .disjunction ≤ l) (below : l ≤ .conjunction) :
    GivesExpr noted l (leftGrouped bound l.operators logical operand) :=
  gives_leftGrouped bound h tighter fun operator left right =>
    .logical ((Level.mem_operators above (Nat.le_trans below (by decide))).1 operator) above below
      left right tighter

theorem gives_disjunction (bound : Nat) (h : GivesExpr noted .assignment nested) :
    GivesExpr noted .disjunction (disjunction bound nested) := by
  have factor : GivesExpr noted .factor (factor bound nested) :=
    gives_binary bound (gives_negated bound h) (by decide) (by decide) (by decide)
  have term : GivesExpr noted .term (term bound nested) :=
    gives_binary bound factor (by decide) (by decide) (by decide)
  have comparison : GivesExpr noted .comparison (comparison bound nested) :=
    gives_binary bound term (by decide) (by decide) (by decide)
  have equality : GivesExpr noted .equality (equality bound nested) :=
    gives_binary bound comparison (by decide) (by decide) (by decide)
  have conjunction : GivesExpr noted .conjunction (conjunction bound nested) :=
    gives_logical bound equality (by decide) (by decide) (by decide)
  exact gives_logical bound conjunction (by decide) (by decide) (by decide)

/-- The left side of an assignment was read as an expression, but what it spells is a target. -/
theorem gives_assignTo (target : Expr) (equals : Token) (value : Expr) :
    Gives noted (assignTo target equals value) fun ts _ e => ts = [] ∧
      ∀ cs vs, Spells .disjunction cs target → equals.terminal = .symbol .equal →
        Spells .assignment vs value → Spells .assignment (cs ++ equals :: vs) e := by
  intro I
  unfold assignTo
  split
  · rename_i name
    refine clean_freshSite.bind fun site => clean_pure _ fun r here => ⟨[], here, rfl, ?_⟩
    intro cs vs spells sign value
    obtain ⟨_, rfl, nothing⟩ := spells.fits.exists_of_token
    rw [nothing.eq_nil]
    exact .assign site spells.shaped sign value
  · rename_i object name
    refine clean_pure _ fun r here => ⟨[], here, rfl, fun cs vs spells sign value => ?_⟩
    obtain ⟨os, _, rfl, spelled, rest⟩ := spells.fits.exists_of_append
    obtain ⟨dot, _, rfl, mark, rest⟩ := rest.exists_of_cons
    obtain ⟨_, rfl, nothing⟩ := rest.exists_of_token
    rw [nothing.eq_nil, List.append_assoc]
    obtain ⟨shaped, level, identifier⟩ := spells.shaped
    exact .set ⟨shaped, level, spelled⟩ (Mark.admits_symbol.1 mark) identifier sign value
  · refine Reads.bind (Q := fun _ => Clean noted fun _ => False) (fun s hs => ?_) fun _ => ?_
    · exact ⟨.note s _, hs.noted_push ⟨.invalidTarget, equals⟩⟩
    · exact clean_pure target fun _ absurd => absurd.elim

theorem gives_assignment (bound : Nat) (h : GivesExpr noted .assignment nested) :
    GivesExpr noted .assignment (assignment bound nested) := by
  intro I
  refine (gives_disjunction bound h I).bind fun target => (clean_accept? _).bind fun o => ?_
  cases o with
  | none =>
      refine clean_pure target ?_
      rintro r ⟨⟨ts, here, spells⟩, -⟩
      exact ⟨ts, here, spells.loosen (by decide)⟩
  | some equals =>
      refine (h _).bind fun value => (gives_assignTo target equals value _).imp
        fun e s hs => hs.imp ?_
      rintro r ⟨_, ⟨vs, ⟨⟨cs, here, target⟩, sign⟩, value⟩, rfl, built⟩
      exact ⟨cs ++ equals :: vs, by simpa using here,
        built cs vs target (List.mem_singleton.1 sign) value⟩

/-- What the rule for expressions reads without errors stands for its result. -/
theorem gives_expression (bound : Nat) : GivesExpr noted .assignment (parser bound) := by
  induction bound with
  | zero => exact fun _ => clean_fail _
  | succ bound ih => exact gives_assignment bound ih

end Expr

/-! ### Statements -/

/-- The tokens stand for a statement, in front of others that do not continue it. -/
def StatementBefore (ts r : List Token) (s : Stmt) : Prop :=
  ∃ o, Phrase (.statement o) ts s ∧ (o → ∀ t ∈ r.head?, t.terminal ≠ .keyword .else)

abbrev GivesStmt (noted : Array GrammarError) (x : Parser Stmt) : Prop :=
  Gives noted x StatementBefore

abbrev GivesDecl (noted : Array GrammarError) (x : Parser (Option Stmt)) : Prop :=
  Gives noted x fun ts _ o => ∃ s, o = some s ∧ Phrase .declaration ts s

namespace Stmt

variable {expression : Parser Expr} {statement : Parser Stmt} {declaration : Parser (Option Stmt)}

section Expression

variable (he : GivesExpr noted .assignment expression)
include he

theorem gives_terminated (fault : GrammarFault) :
    Gives noted (terminated expression fault) fun ts _ e => ∃ es semicolon,
      ts = es ++ [semicolon] ∧ Expr.Spells .assignment es e ∧
        semicolon.terminal = .symbol .semicolon := by
  intro I
  refine (he I).bind fun e => (clean_expect _ _).bind fun semicolon => clean_pure e ?_
  rintro r ⟨⟨es, here, spells⟩, ends⟩
  exact ⟨_, by simpa using here, es, semicolon, rfl, spells, ends⟩

theorem gives_optionalBefore (stop : Terminal) :
    Gives noted (optionalBefore stop expression) fun ts _ o => OptionalExpr ts o := by
  intro I
  refine (clean_nextIs _).bind fun stops => ?_
  cases stops with
  | true => exact clean_pure none fun r here => ⟨[], here.1, .none⟩
  | false =>
      refine (he _).bind fun e => clean_pure (some e) ?_
      rintro r ⟨ts, here, spells⟩
      exact ⟨ts, here.1, .some spells⟩

theorem gives_varDecl : Gives noted (varDecl expression) fun ts _ s => VarPhrase ts s := by
  refine fun I => (clean_expect _ _).bind fun name => ?_
  let Begun (initializer : Option Expr) (r : List Token) : Prop :=
    ∃ ts, I (ts ++ r) ∧ ∀ semicolon : Token, semicolon.terminal = .symbol .semicolon →
      VarPhrase (ts ++ [semicolon]) (.var name initializer)
  have rest (initializer : Option Expr) : Reads (Clean noted (Begun initializer)) (do
      let _ ← expect (.symbol .semicolon) .openVariable
      return .var name initializer) fun s => Clean noted fun r =>
        ∃ ts, I (ts ++ r) ∧ VarPhrase ts s := by
    refine (clean_expect _ _).bind fun semicolon => clean_pure _ ?_
    rintro r ⟨⟨ts, here, built⟩, ends⟩
    exact ⟨ts ++ [semicolon], by simpa using here, built semicolon ends⟩
  refine (clean_accept? _).bind fun o => ?_
  cases o with
  | none =>
      refine Reads.bind (Q := fun o => Clean noted (Begun o)) (clean_pure none ?_) rest
      rintro r ⟨⟨here, identifier⟩, -⟩
      exact ⟨[name], here, fun _ ends => .none identifier ends⟩
  | some equals =>
      refine Reads.bind (Q := fun o => Clean noted (Begun o)) (he.map some ?_) rest
      rintro ts r e ⟨⟨here, identifier⟩, sign⟩ spells
      refine ⟨name :: equals :: ts, by simpa using here, fun _ ends => ?_⟩
      exact .some identifier (List.mem_singleton.1 sign) spells ends

theorem gives_returnStatement (keyword : Token) :
    Gives noted (returnStatement expression keyword) fun ts r s =>
      keyword.terminal = .keyword .return → StatementBefore (keyword :: ts) r s := by
  intro I
  refine (gives_optionalBefore he _ I).bind fun value => ?_
  refine (clean_expect _ _).bind fun semicolon => clean_pure _ ?_
  rintro r ⟨⟨ts, here, value⟩, ends⟩
  exact ⟨ts ++ [semicolon], by simpa using here,
    fun word => ⟨false, .return word value ends, nofun⟩⟩

variable (hs : GivesStmt noted statement)
include hs

theorem gives_whileStatement :
    Gives noted (whileStatement expression statement) fun ts r s =>
      ∀ word : Token, word.terminal = .keyword .while → StatementBefore (word :: ts) r s := by
  intro I
  refine (clean_expect _ _).bind fun left => (he _).bind fun condition => ?_
  refine (clean_expect _ _).bind fun right => (hs _).bind fun body => clean_pure _ ?_
  rintro r ⟨ts, ⟨⟨cs, ⟨here, opens⟩, condition⟩, closes⟩, o, body, calm⟩
  exact ⟨left :: (cs ++ right :: ts), by simpa using here,
    fun word starts => ⟨o, .while starts opens condition closes body, calm⟩⟩

theorem gives_ifStatement :
    Gives noted (ifStatement expression statement) fun ts r s =>
      ∀ word : Token, word.terminal = .keyword .if → StatementBefore (word :: ts) r s := by
  intro I
  refine (clean_expect _ _).bind fun left => (he _).bind fun condition => ?_
  refine (clean_expect _ _).bind fun right => (hs _).bind fun consequence => ?_
  refine (clean_accept? _).bind fun o => ?_
  cases o with
  | none =>
      refine clean_pure _ ?_
      rintro r ⟨⟨ts, ⟨⟨cs, ⟨here, opens⟩, condition⟩, closes⟩, o, body, -⟩, calm⟩
      refine ⟨left :: (cs ++ right :: ts), by simpa using here, fun word starts => ?_⟩
      exact ⟨true, .branch starts opens condition closes body, fun _ => by simpa using calm⟩
  | some word' =>
      refine (hs _).bind fun alternative => clean_pure _ ?_
      rintro r ⟨ts', ⟨⟨ts, ⟨⟨cs, ⟨here, opens⟩, condition⟩, closes⟩, o, body, calm⟩, between⟩, o',
        other, calm'⟩
      refine ⟨left :: (cs ++ right :: (ts ++ word' :: ts')), by simpa using here,
        fun word starts => ?_⟩
      have between : word'.terminal = .keyword .else := List.mem_singleton.1 between
      cases o with
      | true => exact absurd between (calm rfl word' (by simp))
      | false => exact ⟨o', .alternative starts opens condition closes body between other, calm'⟩

theorem gives_forStatement :
    Gives noted (forStatement expression statement) fun ts r s =>
      ∀ word : Token, word.terminal = .keyword .for → StatementBefore (word :: ts) r s := by
  refine fun I => (clean_expect _ _).bind fun left => ?_
  let Begun (initializer : Option Stmt) (r : List Token) : Prop :=
    ∃ is, I (left :: (is ++ r)) ∧ left.terminal = .symbol .leftParen ∧ FirstClause is initializer
  have rest (initializer : Option Stmt) : Reads (Clean noted (Begun initializer)) (do
      let condition ← optionalBefore (.symbol .semicolon) expression
      let _ ← expect (.symbol .semicolon) .openLoopCondition
      let increment ← optionalBefore (.symbol .rightParen) expression
      let _ ← expect (.symbol .rightParen) .openForClauses
      return forLoop initializer condition increment (← statement)) fun s => Clean noted fun r =>
        ∃ ts, I (ts ++ r) ∧
          ∀ word : Token, word.terminal = .keyword .for → StatementBefore (word :: ts) r s := by
    refine (gives_optionalBefore he _ _).bind fun condition => ?_
    refine (clean_expect _ _).bind fun semicolon => ?_
    refine (gives_optionalBefore he _ _).bind fun increment => ?_
    refine (clean_expect _ _).bind fun right => (hs _).bind fun body => clean_pure _ ?_
    rintro r ⟨ts, ⟨⟨ns, ⟨⟨cs, ⟨is, here, opens, first⟩, second⟩, ends⟩, third⟩, closes⟩, o, body,
      calm⟩
    exact ⟨left :: (is ++ (cs ++ semicolon :: (ns ++ right :: ts))), by simpa using here,
      fun word starts => ⟨o, .for starts opens first second ends third closes body, calm⟩⟩
  refine (clean_accept? _).bind fun o => ?_
  cases o with
  | none =>
      refine Reads.bind (Q := fun o => Clean noted (Begun o)) ?_ rest
      rw [← comp_map]
      refine (gives_terminated he _).map (some ∘ Stmt.expression) ?_
      rintro _ r e ⟨⟨here, opens⟩, -⟩ ⟨es, semicolon, rfl, spells, ends⟩
      exact ⟨es ++ [semicolon], here, opens, .expression spells ends⟩
  | some t =>
      dsimp only
      split
      · rename_i ends
        refine Reads.bind (Q := fun o => Clean noted (Begun o)) (clean_pure none ?_) rest
        rintro r ⟨⟨here, opens⟩, -⟩
        exact ⟨[t], here, opens, .none ends⟩
      · rename_i other
        refine Reads.bind (Q := fun o => Clean noted (Begun o)) ?_ rest
        refine (gives_varDecl he).map some ?_
        rintro ts r s ⟨⟨here, opens⟩, mem⟩ phrase
        have word : t.terminal = .keyword .var := by simpa [other] using mem
        exact ⟨t :: ts, by simpa using here, opens, .var word phrase⟩

end Expression

section Declaration

variable (hd : GivesDecl noted declaration)
include hd

theorem gives_blockBody (bound : Nat) :
    Gives noted (blockBody bound declaration) fun ts _ ss => ∃ bs right,
      ts = bs ++ [right] ∧ Phrase .declarations bs ss ∧ right.terminal = .symbol .rightBrace := by
  intro I
  refine (gives_itemsUntil _ bound hd Phrase.declaration_ne_nil I).bind fun body => ?_
  refine (clean_expect _ _).bind fun right => clean_pure body ?_
  rintro r ⟨⟨bs, here, body, -⟩, closes⟩
  exact ⟨_, by simpa using here, bs, right, rfl, Phrase.declarations_iff.2 body, closes⟩

theorem gives_functionDecl (bound : Nat) (form : FunctionForm) :
    Gives noted (functionDecl bound declaration form) fun ts _ d => Phrase .function ts d := by
  intro I
  have parameter : Gives noted (expect .identifier .noParameterName) fun ts _ p =>
      ts = [p] ∧ p.terminal = .identifier := by
    refine fun I => (clean_expect _ _).imp fun p s hs => hs.imp ?_
    rintro r ⟨here, identifier⟩
    exact ⟨[p], here, rfl, identifier⟩
  refine (clean_expect _ _).bind fun name => (clean_expect _ _).bind fun left => ?_
  refine (gives_commaList _ bound parameter _).bind fun parameters => ?_
  refine (clean_expect _ _).bind fun right => (clean_expect _ _).bind fun left' => ?_
  refine (gives_blockBody hd bound _).bind fun body => clean_pure _ ?_
  rintro r ⟨_, ⟨⟨⟨ps, ⟨⟨here, identifier⟩, opens⟩, given, few⟩, closes⟩, opens'⟩, bs, right', rfl,
    body, closes'⟩
  exact ⟨name :: left :: (ps ++ right :: left' :: (bs ++ [right'])), by simpa using here,
    .decl identifier opens given few closes opens' body closes'⟩

theorem gives_classDecl (bound : Nat) :
    Gives noted (classDecl bound declaration) fun ts _ s =>
      ∀ word : Token, word.terminal = .keyword .class → Phrase .declaration (word :: ts) s := by
  refine fun I => (clean_expect _ _).bind fun name => ?_
  let Begun (superclass : Option Expr) (r : List Token) : Prop :=
    ∃ cs, I (name :: (cs ++ r)) ∧ name.terminal = .identifier ∧ SuperClause cs superclass
  have method : Gives noted (some <$> functionDecl bound declaration .method) fun ts _ o =>
      ∃ d, o = some d ∧ Phrase .function ts d :=
    fun I => (gives_functionDecl hd bound .method).map some fun ts r d here phrase =>
      ⟨ts, here, d, rfl, phrase⟩
  have rest (superclass : Option Expr) : Reads (Clean noted (Begun superclass)) (do
      let _ ← expect (.symbol .leftBrace) .noClassBody
      let methods ← itemsUntil [.symbol .rightBrace, .eof] bound
        (some <$> functionDecl bound declaration .method)
      let _ ← expect (.symbol .rightBrace) .openClassBody
      return .class name superclass methods) fun (s : Stmt) => Clean noted fun r =>
        ∃ ts, I (ts ++ r) ∧
          ∀ word : Token, word.terminal = .keyword .class → Phrase .declaration (word :: ts) s := by
    refine (clean_expect _ _).bind fun left => ?_
    refine (gives_itemsUntil _ bound method Phrase.function_ne_nil _).bind fun methods => ?_
    refine (clean_expect _ _).bind fun right => clean_pure _ ?_
    rintro r ⟨⟨ms, ⟨⟨cs, here, identifier, clause⟩, opens⟩, methods, -⟩, closes⟩
    exact ⟨name :: (cs ++ left :: (ms ++ [right])), by simpa using here,
      fun word starts => .class starts identifier clause opens
        (Phrase.functions_iff.2 methods) closes⟩
  refine (clean_accept? _).bind fun o => ?_
  cases o with
  | none =>
      refine Reads.bind (Q := fun o => Clean noted (Begun o)) (clean_pure none ?_) rest
      rintro r ⟨⟨here, identifier⟩, -⟩
      exact ⟨[], here, identifier, .none⟩
  | some less =>
      refine (clean_expect _ _).bind fun superName => clean_freshSite.bind fun site => ?_
      refine Reads.bind (Q := fun o => Clean noted (Begun o)) (clean_pure _ ?_) rest
      rintro r ⟨⟨⟨here, identifier⟩, mark⟩, parent⟩
      exact ⟨[less, superName], here, identifier, .some site (List.mem_singleton.1 mark) parent⟩

variable (hs : GivesStmt noted statement)
include hs

theorem gives_simple (bound : Nat) : GivesStmt noted (simple bound statement declaration) := by
  intro I
  have he : GivesExpr noted .assignment (Expr.parser bound) := Expr.gives_expression bound
  refine clean_peek.bind fun t => ?_
  have proper {k : Terminal} (hk : t.terminal = k) (ne : k ≠ .eof) : t.terminal ≠ .eof := by
    rwa [hk]
  split
  · rename_i hk
    exact (gives_forStatement he hs).after (proper hk (by decide)) fun _ _ _ built => built t hk
  · rename_i hk
    exact (gives_ifStatement he hs).after (proper hk (by decide)) fun _ _ _ built => built t hk
  · rename_i hk
    exact (gives_whileStatement he hs).after (proper hk (by decide)) fun _ _ _ built => built t hk
  · rename_i hk
    exact (gives_returnStatement he t).after (proper hk (by decide)) fun _ _ _ built => built hk
  · rename_i hk
    refine (clean_skip (proper hk (by decide))).bind fun _ => ?_
    refine (gives_terminated he _).map Stmt.print ?_
    rintro _ r e here ⟨es, semicolon, rfl, spells, ends⟩
    exact ⟨t :: (es ++ [semicolon]), here, false, .print hk spells ends, nofun⟩
  · rename_i hk
    refine (clean_skip (proper hk (by decide))).bind fun _ => ?_
    refine (gives_blockBody hd bound).map Stmt.block ?_
    rintro _ r ss here ⟨bs, right, rfl, body, closes⟩
    exact ⟨t :: (bs ++ [right]), here, false, .block hk body closes, nofun⟩
  · refine (gives_terminated he _).map Stmt.expression ?_
    rintro _ r e here ⟨es, semicolon, rfl, spells, ends⟩
    exact ⟨es ++ [semicolon], here.1, false, .expression spells ends, nofun⟩

theorem gives_declared (bound : Nat) :
    Gives noted (declared bound statement declaration) fun ts _ s => Phrase .declaration ts s := by
  intro I
  refine clean_peek.bind fun t => ?_
  have proper {k : Terminal} (hk : t.terminal = k) (ne : k ≠ .eof) : t.terminal ≠ .eof := by
    rwa [hk]
  split
  · rename_i hk
    exact (gives_classDecl hd bound).after (proper hk (by decide)) fun _ _ _ built => built t hk
  · rename_i hk
    refine (clean_skip (proper hk (by decide))).bind fun _ => ?_
    refine (gives_functionDecl hd bound .function).map Stmt.function fun ts r d here phrase => ?_
    exact ⟨t :: ts, here, .function hk phrase⟩
  · rename_i hk
    exact (gives_varDecl (Expr.gives_expression bound)).after (proper hk (by decide))
      fun _ _ _ phrase => .var hk phrase
  · refine (gives_simple hd hs bound _).imp fun s st h => h.imp ?_
    rintro r ⟨ts, here, o, phrase, -⟩
    exact ⟨ts, here.1, .plain phrase⟩

end Declaration

theorem gives_attempt {rule : Parser Stmt}
    (h : Gives noted rule fun ts _ s => Phrase .declaration ts s) :
    GivesDecl noted (attempt rule) := by
  intro I s hs
  have all := h I s hs
  obtain ⟨st, t, ran, attempted⟩ | ⟨e, t, ran, attempted⟩ := attempt_cases rule s
  · rw [ran] at all
    rw [attempted]
    refine ⟨all.1, all.2.imp ?_⟩
    rintro r ⟨ts, here, phrase⟩
    exact ⟨ts, here, st, rfl, phrase⟩
  · rw [ran] at all
    have passed : Passed s { t with rest := recover t.rest, errors := t.errors.push e } :=
      all.trans ((Passed.read (recover_suffix t.rest)).trans (.note _ e))
    have fewer := all.errors.length_le
    rw [attempted]
    refine ⟨passed, hs.noted_more passed ?_⟩
    simpa [Nat.lt_succ_iff] using fewer

theorem gives_statements (bound : Nat) :
    GivesStmt noted (Stmt.parser bound) ∧ GivesDecl noted (Stmt.declarationParser bound) := by
  induction bound with
  | zero => exact ⟨fun _ => clean_fail _, gives_attempt fun _ => clean_fail _⟩
  | succ bound ih =>
      exact ⟨gives_simple ih.2 ih.1 (bound + 1),
        gives_attempt (gives_declared ih.2 ih.1 (bound + 1))⟩

end Stmt

/-- Up to the end of the tokens, a program that is read without errors stands for what was read. -/
theorem parse_phrase_start {tokens : List Token} {firstSite : Site}
    (none : (parse tokens firstSite).errors = []) :
    Phrase .declarations (tokens.takeWhile (·.terminal ≠ .eof))
      (parse tokens firstSite).statements := by
  let start := ParseState.start tokens firstSite
  have declaration : GivesDecl #[] (Stmt.declarationParser start.rest.length) :=
    (Stmt.gives_statements start.rest.length).2
  have all := gives_itemsUntil [.eof] start.rest.length declaration Phrase.declaration_ne_nil
    (· = start.rest) start
    ⟨eofOf_terminal tokens, List.prefix_refl _, fun _ => rfl⟩
  cases hr : itemsUntil [.eof] start.rest.length (Stmt.declarationParser start.rest.length)
    start with
  | error e s =>
      rw [parse_of_error hr] at none
      simp at none
  | ok statements s =>
      rw [hr] at all
      rw [parse_of_ok hr] at none ⊢
      obtain ⟨ts, read, phrase, ends⟩ := all.2.holds (by simpa using none)
      -- the bound is the number of tokens, so that nothing is left
      have last : s.rest = [] := by
        rcases ends with ends | enough
        · cases hs : s.rest with
          | nil => rfl
          | cons t r =>
              have mem : t ∈ start.rest := by simp [← read, hs]
              have proper : t.terminal ≠ .eof := by simpa using List.mem_takeWhile_imp mem
              exact absurd (List.mem_singleton.1 (ends t (by simp [hs]))) proper
        · have length := congrArg List.length read
          rw [List.length_append] at length
          exact List.eq_nil_of_length_eq_zero (by omega)
      rw [last, List.append_nil] at read
      rw [read] at phrase
      exact Phrase.declarations_iff.2 phrase

/-- A program that is read without errors stands for what was read. -/
theorem parse_phrase {tokens : List Token} {firstSite : Site}
    (proper : ∀ t ∈ tokens, t.terminal ≠ .eof) (none : (parse tokens firstSite).errors = []) :
    Phrase .declarations tokens (parse tokens firstSite).statements := by
  have phrase := parse_phrase_start none
  rwa [List.takeWhile_eq_self_iff.2 (by simpa using proper)] at phrase

end Lox
