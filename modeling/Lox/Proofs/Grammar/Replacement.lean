import Lox.Proofs.Grammar.Roundtrip

/-!
# Replacing a loop in a program

Where a `for` stands in the tokens of a program, a statement starts.  Other tokens that stand for
the same statement can take the place of its tokens, and the whole stands for the same program, up
to the sites (`Phrase.exchanges`).  The only thing to be watched is an `else` behind the statement,
which must not belong to an `if` in it.

Which tokens from the `for` on are those of the statement is determined, as the parser reads one
statement there (`StatementBefore.unique`).
-/

namespace Lox

/-- In front of others, the tokens stand for the statement up to the sites. -/
def StandsFor (ts more : List Token) (s : Stmt) : Prop :=
  ∃ s', StatementBefore ts more s' ∧ s'.relabel .forget = s.relabel .forget

/-- In front of the same tokens, not two different beginnings are statements. -/
theorem StatementBefore.unique {ts ts' r r' : List Token} {s s' : Stmt}
    (h : StatementBefore ts r s) (h' : StatementBefore ts' r' s') (same : ts ++ r = ts' ++ r') :
    ts = ts' ∧ r = r' ∧ s.relabel .forget = s'.relabel .forget := by
  obtain ⟨o, phrase, calm⟩ := h
  obtain ⟨o', phrase', calm'⟩ := h'
  let n := max ts.length ts'.length
  let start : ParseState := ⟨ts ++ r, eofOf [], 0, #[]⟩
  have reads := (Stmt.takes_statements n).1
  obtain ⟨a, site, ran, equal⟩ :=
    reads phrase (Nat.le_max_left _ _) calm start rfl (eofOf_terminal [])
  obtain ⟨a', site', ran', equal'⟩ :=
    reads phrase' (Nat.le_max_right _ _) calm' start same (eofOf_terminal [])
  rw [ran] at ran'
  cases ran'
  exact ⟨List.append_cancel_right same, rfl, equal.symm.trans equal'⟩

/-- Where a loop starts in the tokens, which stand in front of `more`, a statement starts; and other
tokens that stand for it can take its place, with the result that `Q` holds of the tokens. -/
def Exchanges (ts more : List Token) (Q : List Token → Prop) : Prop :=
  ∀ before word rest, ts = before ++ word :: rest → word.terminal = .keyword .for →
    ∃ here behind s, word :: rest = here ++ behind ∧ StatementBefore here (behind ++ more) s ∧
      ∀ instead, StandsFor instead (behind ++ more) s → Q (before ++ (instead ++ behind))

namespace Exchanges

variable {ts ts' more more' : List Token} {P Q : List Token → Prop} {t : Token}

theorem imp (h : Exchanges ts more P) (hPQ : ∀ ts, P ts → Q ts) : Exchanges ts more Q := by
  intro before word rest split loop
  obtain ⟨here, behind, s, same, stands, exchange⟩ := h before word rest split loop
  exact ⟨here, behind, s, same, stands, fun instead as => hPQ _ (exchange instead as)⟩

/-- Tokens without loops. -/
theorem clausal (none : ∀ t ∈ ts, t.terminal.Clausal) : Exchanges ts more Q := by
  rintro before word rest rfl loop
  exact absurd loop (none word (by simp)).2

theorem append (h : Exchanges ts (ts' ++ more) fun ts₁ => Q (ts₁ ++ ts'))
    (h' : Exchanges ts' more fun ts₂ => Q (ts ++ ts₂)) : Exchanges (ts ++ ts') more Q := by
  intro before word rest split loop
  rcases List.append_eq_append_iff.1 split with ⟨middle, rfl, tail⟩ | ⟨middle, rfl, tail⟩
  · obtain ⟨here, behind, s, same, stands, exchange⟩ := h' middle word rest tail loop
    refine ⟨here, behind, s, same, stands, fun instead as => ?_⟩
    rw [List.append_assoc]
    exact exchange instead as
  · cases middle with
    | nil =>
        obtain ⟨here, behind, s, same, stands, exchange⟩ := h' [] word rest tail.symm loop
        refine ⟨here, behind, s, same, stands, fun instead as => ?_⟩
        simpa using exchange instead as
    | cons word' middle =>
        obtain ⟨rfl, rfl⟩ := List.cons.inj tail
        obtain ⟨here, behind, s, same, stands, exchange⟩ := h before word middle rfl loop
        refine ⟨here, behind ++ ts', s, ?_, ?_, fun instead as => ?_⟩
        · rw [← List.append_assoc, ← same]
          rfl
        · rwa [List.append_assoc]
        · rw [List.append_assoc] at as
          simpa using exchange instead as

/-- A token before the others that starts no loop. -/
theorem cons (other : t.terminal ≠ .keyword .for)
    (h : Exchanges ts more fun ts' => Q (t :: ts')) : Exchanges (t :: ts) more Q := by
  intro before word rest split loop
  cases before with
  | nil =>
      obtain ⟨rfl, -⟩ := List.cons.inj split
      exact absurd loop other
  | cons t' before =>
      obtain ⟨rfl, rfl⟩ := List.cons.inj split
      exact h before word rest rfl loop

/-- Clausal tokens before the others. -/
theorem after (none : ∀ t ∈ ts, t.terminal.Clausal)
    (h : Exchanges ts' more fun ts₂ => Q (ts ++ ts₂)) : Exchanges (ts ++ ts') more Q :=
  append (clausal none) h

/-- The condition of an `if` or a `while` before the others, in its parentheses. -/
theorem tested {word left right : Token} {cs : List Token} (starts : word.terminal ≠ .keyword .for)
    (opens : left.terminal = .symbol .leftParen) (condition : ∀ t ∈ cs, t.terminal.Clausal)
    (closes : right.terminal = .symbol .rightParen)
    (h : Exchanges ts more fun ts' => Q (word :: left :: (cs ++ right :: ts'))) :
    Exchanges (word :: left :: (cs ++ right :: ts)) more Q :=
  have left_other : left.terminal ≠ .keyword .for := by simp [opens]
  have right_other : right.terminal ≠ .keyword .for := by simp [closes]
  cons starts (cons left_other (after condition (cons right_other h)))

/-- A clausal token behind the others. -/
theorem snoc (other : t.terminal.Clausal) (h : Exchanges ts (t :: more) fun ts₁ => Q (ts₁ ++ [t])) :
    Exchanges (ts ++ [t]) more Q :=
  append h (clausal (List.forall_mem_singleton.2 other))

end Exchanges

def Rule.Calm : Rule → List Token → Prop
  | .statement opened, more => opened → NoElse more
  | .declaration, more => NoElse more
  | .declarations, more => NoElse more
  | .function, _ => True
  | .functions, _ => True

/-- In front of others, the tokens stand for the result of the rule up to the sites. -/
def Rule.Stands : (r : Rule) → (ts more : List Token) → r.Result → Prop
  | .statement _, ts, more, s => StandsFor ts more s
  | .declaration, ts, _, s =>
    ∃ s', Phrase .declaration ts s' ∧ Stmt.relabel .forget s' = Stmt.relabel .forget s
  | .declarations, ts, _, ss =>
    ∃ ss', Phrase .declarations ts ss' ∧ Stmt.relabelAll .forget ss' = Stmt.relabelAll .forget ss
  | .function, ts, _, d =>
    ∃ d', Phrase .function ts d' ∧ FunctionDecl.relabel .forget d' = FunctionDecl.relabel .forget d
  | .functions, ts, _, ds =>
    ∃ ds', Phrase .functions ts ds' ∧
      Stmt.relabelMethods .forget ds' = Stmt.relabelMethods .forget ds

/-- A loop in a phrase can be replaced by tokens that stand for the same. -/
theorem Phrase.exchanges {r : Rule} {ts : List Token} {a : r.Result} (h : Phrase r ts a)
    {more : List Token} (calm : r.Calm more) :
    Exchanges ts more fun ts' => r.Stands ts' more a := by
  have not {t : Token} {k : Terminal} (ht : t.terminal = k) (other : k ≠ .keyword .for) :
      t.terminal ≠ .keyword .for := ht ▸ other
  -- by the form of the phrase: what can have no loop inside is passed over, and a loop in a part is
  -- replaced there
  induction h generalizing more with
  | expression value ends =>
      exact .clausal (List.forall_mem_append.2
        ⟨value.clausal, List.forall_mem_singleton.2 (.of_eq ends (by decide))⟩)
  | print starts value ends =>
      exact .cons (not starts (by decide)) (.after value.clausal
        (.clausal (List.forall_mem_singleton.2 (.of_eq ends (by decide)))))
  | «return» starts value ends =>
      exact .cons (not starts (by decide)) (.after value.clausal
        (.clausal (List.forall_mem_singleton.2 (.of_eq ends (by decide)))))
  | @block left ts body right opens _ closes ih =>
      have quiet : NoElse (right :: more) := .of_ne (by simp [closes])
      refine .cons (not opens (by decide)) (.snoc (.of_eq closes (by decide)) ((ih quiet).imp ?_))
      rintro ts' ⟨body', phrase, same⟩
      refine ⟨.block body', ⟨false, .block opens phrase closes, nofun⟩, ?_⟩
      rw [Stmt.relabel, Stmt.relabel, same]
  | @branch word left right cs ts condition o consequence starts opens value closes _ ih =>
      refine .tested (not starts (by decide)) opens value.clausal closes
        ((ih fun _ => calm rfl).imp ?_)
      rintro ts' ⟨s', ⟨o', phrase, -⟩, same⟩
      refine ⟨.branch condition s' none,
        ⟨true, .branch starts opens value closes phrase, calm⟩, ?_⟩
      rw [Stmt.relabel, Stmt.relabel, same]
  | @alternative word left right word' cs ts ts' condition o consequence alternative starts opens
      value closes first between second ih ih' =>
      refine .tested (not starts (by decide)) opens value.clausal closes
        (.append ((ih nofun).imp ?_) (.cons (not between (by decide)) ((ih' calm).imp ?_)))
      · rintro ts₁ ⟨s', ⟨o', phrase, quiet⟩, same⟩
        -- an opened statement would take the `else`
        obtain rfl : o' = false := by
          cases o' with
          | false => rfl
          | true => exact absurd between (quiet rfl word' rfl)
        refine ⟨.branch condition s' (some alternative),
          ⟨o, .alternative starts opens value closes phrase between second, calm⟩, ?_⟩
        rw [Stmt.relabel, Stmt.relabel, same]
      · rintro ts₂ ⟨s', ⟨o', phrase, quiet⟩, same⟩
        refine ⟨.branch condition consequence (some s'),
          ⟨o', .alternative starts opens value closes first between phrase, quiet⟩, ?_⟩
        rw [Stmt.relabel, Stmt.relabel, same]
  | @«while» word left right cs ts condition o body starts opens value closes _ ih =>
      refine .tested (not starts (by decide)) opens value.clausal closes ((ih calm).imp ?_)
      rintro ts' ⟨s', ⟨o', phrase, quiet⟩, same⟩
      refine ⟨.while condition s', ⟨o', .while starts opens value closes phrase, quiet⟩, ?_⟩
      rw [Stmt.relabel, Stmt.relabel, same]
  | @«for» word left semicolon right is cs ns ts initializer condition increment o body starts opens
      first second ends third closes phrase ih =>
      intro before word' rest split loop
      cases before with
      | nil =>
          obtain ⟨rfl, rfl⟩ := List.cons.inj split
          refine ⟨_, [], _, (List.append_nil _).symm, ⟨o,
            .for starts opens first second ends third closes phrase, calm⟩, fun instead as => ?_⟩
          rwa [List.append_nil]
      | cons word'' before =>
          obtain ⟨rfl, tail⟩ := List.cons.inj split
          have inside : Exchanges (left :: (is ++ (cs ++ semicolon :: (ns ++ right :: ts)))) more
              fun ts' => StandsFor (word :: ts') more
                (Stmt.forLoop initializer condition increment body) := by
            refine .cons (not opens (by decide)) (.after first.clausal (.after second.clausal
              (.cons (not ends (by decide)) (.after third.clausal
                (.cons (not closes (by decide)) ((ih calm).imp ?_))))))
            rintro ts' ⟨s', ⟨o', phrase', quiet⟩, same⟩
            refine ⟨.forLoop initializer condition increment s',
              ⟨o', .for starts opens first second ends third closes phrase', quiet⟩, ?_⟩
            rw [Stmt.relabel_forLoop, Stmt.relabel_forLoop, same]
          exact inside before word' rest tail loop
  | plain phrase ih =>
      refine (ih fun _ => calm).imp ?_
      rintro ts' ⟨s', ⟨o', phrase', -⟩, same⟩
      exact ⟨s', .plain phrase', same⟩
  | var starts rest => exact .cons (not starts (by decide)) (.clausal rest.clausal)
  | @function word ts d starts _ ih =>
      refine .cons (not starts (by decide)) ((ih trivial).imp ?_)
      rintro ts' ⟨d', phrase, same⟩
      refine ⟨.function d', .function starts phrase, ?_⟩
      rw [Stmt.relabel, Stmt.relabel, same]
  | @«class» word name left right cs ts superclass methods starts identifier parent opens _ closes
      ih =>
      refine .cons (not starts (by decide)) (.cons (not identifier (by decide))
        (.after parent.clausal (.cons (not opens (by decide))
          (.snoc (.of_eq closes (by decide)) ((ih trivial).imp ?_)))))
      rintro ts' ⟨methods', phrase, same⟩
      refine ⟨.class name superclass methods',
        .class starts identifier parent opens phrase closes, ?_⟩
      rw [Stmt.relabel_class, Stmt.relabel_class, same]
  | nil => exact .clausal (List.forall_mem_nil _)
  | @cons ts ts' s ss first rest ih ih' =>
      have quiet : NoElse (ts' ++ more) := by
        cases rest with
        | nil => exact calm
        | cons second =>
            rw [List.append_assoc]
            exact .of_declaration second
      refine .append ((ih quiet).imp ?_) ((ih' calm).imp ?_)
      · rintro ts₁ ⟨s', phrase, same⟩
        refine ⟨s' :: ss, .cons phrase rest, ?_⟩
        rw [Stmt.relabelAll, Stmt.relabelAll, same]
      · rintro ts₂ ⟨ss', phrase, same⟩
        refine ⟨s :: ss', .cons first phrase, ?_⟩
        rw [Stmt.relabelAll, Stmt.relabelAll, same]
  | @decl name left right left' right' ps ts parameters body identifier opens given few closes
      opens' _ closes' ih =>
      have quiet : NoElse (right' :: more) := .of_ne (by simp [closes'])
      refine .cons (not identifier (by decide)) (.cons (not opens (by decide))
        (.after (Parameters.clausal given) (.cons (not closes (by decide))
          (.cons (not opens' (by decide)) (.snoc (.of_eq closes' (by decide))
            ((ih quiet).imp ?_))))))
      rintro ts' ⟨body', phrase, same⟩
      refine ⟨⟨name, parameters, body'⟩,
        .decl identifier opens given few closes opens' phrase closes', ?_⟩
      rw [FunctionDecl.relabel, FunctionDecl.relabel, same]
  | noMethods => exact .clausal (List.forall_mem_nil _)
  | @method ts ts' d ds first rest ih ih' =>
      refine .append ((ih trivial).imp ?_) ((ih' trivial).imp ?_)
      · rintro ts₁ ⟨d', phrase, same⟩
        refine ⟨d' :: ds, .method phrase rest, ?_⟩
        rw [Stmt.relabelMethods, Stmt.relabelMethods, same]
      · rintro ts₂ ⟨ds', phrase, same⟩
        refine ⟨d :: ds', .method first phrase, ?_⟩
        rw [Stmt.relabelMethods, Stmt.relabelMethods, same]

/-- In a program, other tokens that stand for the same can take the place of a loop. -/
theorem Phrase.exists_replaced {before ts instead behind : List Token} {ss : List Stmt} {s : Stmt}
    (h : Phrase .declarations (before ++ (ts ++ behind)) ss)
    (loop : ∃ word rest, ts = word :: rest ∧ word.terminal = .keyword .for)
    (stands : StatementBefore ts behind s) (as : StandsFor instead behind s) :
    ∃ ss', Phrase .declarations (before ++ (instead ++ behind)) ss' ∧
      Stmt.relabelAll .forget ss' = Stmt.relabelAll .forget ss := by
  obtain ⟨word, rest, rfl, starts⟩ := loop
  have quiet : NoElse [] := nofun
  obtain ⟨here, others, s', same, stands', exchange⟩ :=
    h.exchanges quiet before word (rest ++ behind) rfl starts
  rw [List.append_nil] at stands' exchange
  obtain ⟨-, rfl, equal⟩ := stands.unique stands' same
  obtain ⟨s'', read, equal'⟩ := as
  exact exchange instead ⟨s'', read, equal'.trans equal⟩

end Lox
