import Mathlib.Data.List.TakeWhile
import Lox.Proofs.Grammar.Extension

/-!
# Reading a part of a program

A part of a program can be read as if it stood alone, its errors included, when the rules do not
notice what is around it: the tokens behind it and the errors noted before it.  `Zone` says what the
rules may still have before them so that this is so.  Either the tokens do not run out, since a
semicolon comes that ends the statement, or there is nothing behind.

`Parser.Follows` says of a rule and the same rule with a larger bound that they do the same, the one
alone and the other one in the surroundings.  It is the counterpart of `Parser.Extends`, which is
about what is read without an error only and needs no zone.
-/

namespace Lox

/-- What is around a part of a program: errors that were noted before, and tokens behind. -/
structure Surroundings where
  noted : Array GrammarError
  tokens : List Token
  eof : Token

def ParseState.amid (c : Surroundings) (s : ParseState) : ParseState :=
  { s with rest := s.rest ++ c.tokens, eof := c.eof, errors := c.noted ++ s.errors }

/-- The lists of tokens that the rules may have before them, in their surroundings.  The token
after all others is `eof` when there are no surroundings. -/
structure Zone (c : Surroundings) (eof : Token) where
  inside : List Token → Prop
  /-- The tokens run out only when there is nothing behind. -/
  ends : inside [] → c.tokens = [] ∧ c.eof = eof
  proper : ∀ {t rest}, inside (t :: rest) → t.terminal ≠ .eof
  reads : ∀ {t rest}, inside (t :: rest) → t.terminal ≠ .symbol .semicolon → inside rest
  closes : ∀ {t rest}, inside (t :: rest) → t.terminal = .symbol .semicolon →
    inside rest ∨ rest = []
  /-- Where a semicolon does not end a statement there is nothing behind. -/
  nests : ∀ {t rest}, inside (t :: rest) →
    t.terminal = .keyword .for ∨ t.terminal = .symbol .leftBrace → inside []
  /-- What is behind does not belong to a conditional. -/
  calm : (c.tokens.headD c.eof).terminal ≠ .keyword .else
  closed : eof.terminal = .eof

namespace Zone

variable {c : Surroundings} {eof : Token} {n m : Nat} {s : ParseState} {t : Token}

/-- A rule may start here. -/
structure Inside (z : Zone c eof) (n : Nat) (s : ParseState) : Prop where
  here : z.inside s.rest
  eof : s.eof = eof
  length : s.rest.length ≤ n

/-- A statement may end here. -/
structure After (z : Zone c eof) (n : Nat) (s : ParseState) : Prop where
  here : z.inside s.rest ∨ s.rest = []
  eof : s.eof = eof
  length : s.rest.length ≤ n

/-- The token was read last. -/
structure Past (z : Zone c eof) (n : Nat) (t : Token) (s : ParseState) : Prop where
  here : z.inside (t :: s.rest)
  eof : s.eof = eof
  length : s.rest.length < n

/-- The token was seen and comes next. -/
structure Seen (z : Zone c eof) (n : Nat) (t : Token) (s : ParseState) : Prop where
  inside : z.Inside n s
  next : s.rest.headD s.eof = t

variable {z : Zone c eof}

theorem Inside.mono (h : z.Inside m s) (le : m ≤ n) : z.Inside n s :=
  ⟨h.here, h.eof, h.length.trans le⟩

theorem After.mono (h : z.After m s) (le : m ≤ n) : z.After n s :=
  ⟨h.here, h.eof, h.length.trans le⟩

theorem Inside.after (h : z.Inside n s) : z.After n s := ⟨.inl h.here, h.eof, h.length⟩

/-- Where a semicolon does not end a statement, more may come after it. -/
theorem After.inside (h : z.After n s) (nothing : z.inside []) : z.Inside n s :=
  ⟨h.here.elim id fun ends => ends ▸ nothing, h.eof, h.length⟩

theorem Past.inside (h : z.Past n t s) (other : t.terminal ≠ .symbol .semicolon) :
    z.Inside (n - 1) s :=
  ⟨z.reads h.here other, h.eof, Nat.le_sub_one_of_lt h.length⟩

theorem Past.after (h : z.Past n t s) : z.After (n - 1) s := by
  refine ⟨?_, h.eof, Nat.le_sub_one_of_lt h.length⟩
  by_cases semicolon : t.terminal = .symbol .semicolon
  · exact z.closes h.here semicolon
  · exact Or.inl (z.reads h.here semicolon)

/-- The same token is next in the surroundings. -/
theorem Inside.headD_amid (h : z.Inside n s) :
    (s.amid c).rest.headD (s.amid c).eof = s.rest.headD s.eof := by
  have here := h.here
  rw [ParseState.amid]
  cases rest : s.rest with
  | nil =>
      rw [rest] at here
      obtain ⟨none, same⟩ := z.ends here
      rw [none, same, h.eof]
      rfl
  | cons t ts => rfl

/-- A token that was seen and is no end of file is there to be read. -/
theorem Seen.exists_rest (h : z.Seen n t s) (proper : t.terminal ≠ .eof) :
    ∃ rest, s.rest = t :: rest := by
  cases rest : s.rest with
  | nil =>
      have next := h.next
      rw [rest, List.headD_nil, h.inside.eof] at next
      exact absurd z.closed (next ▸ proper)
  | cons t' ts =>
      have next := h.next
      rw [rest, List.headD_cons] at next
      exact ⟨ts, by rw [next]⟩

theorem Seen.nests (h : z.Seen n t s)
    (outer : t.terminal = .keyword .for ∨ t.terminal = .symbol .leftBrace) : z.inside [] := by
  have proper : t.terminal ≠ .eof := by
    rcases outer with outer | outer <;> rw [outer] <;> decide
  obtain ⟨rest, hs⟩ := h.exists_rest proper
  exact z.nests (hs ▸ h.inside.here) outer

/-- Reading resumes in the zone, at the same place as in the surroundings. -/
theorem recover_amid {rest : List Token} (h : z.inside rest) :
    Stmt.recover (rest ++ c.tokens) = Stmt.recover rest ++ c.tokens ∧
      (z.inside (Stmt.recover rest) ∨ Stmt.recover rest = []) ∧
      (Stmt.recover rest).length ≤ rest.length - 1 := by
  induction rest with
  | nil =>
      rw [(z.ends h).1]
      exact ⟨rfl, Or.inl h, Nat.le_refl _⟩
  | cons t rest ih =>
      rw [List.cons_append, Stmt.recover, Stmt.recover]
      by_cases semicolon : t.terminal = .symbol .semicolon
      · rw [if_pos (Or.inl semicolon), if_pos (Or.inl semicolon)]
        exact ⟨rfl, z.closes h semicolon, Nat.le_refl _⟩
      · have inside := z.reads h semicolon
        have head : (rest ++ c.tokens).head? = rest.head? := by
          cases rest with
          | nil => rw [(z.ends inside).1, List.append_nil]
          | cons t' rest => rfl
        rw [head]
        obtain ⟨same, after, length⟩ := ih inside
        split
        · exact ⟨rfl, Or.inl inside, Nat.le_refl _⟩
        · exact ⟨same, after, by simpa using length.trans (Nat.sub_le _ _)⟩

end Zone

namespace Parser

variable {c : Surroundings} {eof : Token} (z : Zone c eof) {n m : Nat}

/-- From a state with `P`, the second rule does in the surroundings what the first one does alone.
What they yield and the state after it have `Q`; if they fail, they do so in the zone. -/
def Follows (n : Nat) (P : ParseState → Prop) (x y : Parser α) (Q : α → ParseState → Prop) :
    Prop :=
  ∀ s, P s → match x s with
    | .ok a t => y (s.amid c) = .ok a (t.amid c) ∧ Q a t
    | .error e t => y (s.amid c) = .error e (t.amid c) ∧ z.Inside n t

variable {z} {P : ParseState → Prop}

namespace Follows

theorem pure {Q : α → ParseState → Prop} (a : α) (h : ∀ s, P s → Q a s) :
    Follows z n P (pure a) (pure a) Q :=
  fun s hs => ⟨rfl, h s hs⟩

theorem bind {x y : Parser α} {f g : α → Parser β} {Q : α → ParseState → Prop}
    {T : β → ParseState → Prop} (hx : Follows z n P x y Q)
    (hf : ∀ a, Follows z n (Q a) (f a) (g a) T) : Follows z n P (x >>= f) (y >>= g) T := by
  intro s hs
  have first := hx s hs
  cases hxs : x s with
  | error e t =>
      rw [hxs] at first
      rw [bind_of_error hxs, bind_of_error first.1]
      exact ⟨rfl, first.2⟩
  | ok a t =>
      rw [hxs] at first
      rw [bind_of_ok hxs, bind_of_ok first.1]
      exact hf a t first.2

theorem imp {P' : ParseState → Prop} {x y : Parser α} {Q Q' : α → ParseState → Prop}
    (h : Follows z m P x y Q) (le : m ≤ n) (pre : ∀ s, P' s → P s)
    (post : ∀ a s, Q a s → Q' a s) : Follows z n P' x y Q' := by
  intro s hs
  have all := h s (pre s hs)
  cases hx : x s with
  | error e t =>
      rw [hx] at all
      exact ⟨all.1, all.2.mono le⟩
  | ok a t =>
      rw [hx] at all
      exact ⟨all.1, post a t all.2⟩

/-- The state after the rule has more. -/
theorem post {x y : Parser α} {Q Q' : α → ParseState → Prop} (h : Follows z n P x y Q)
    (post : ∀ a s, Q a s → Q' a s) : Follows z n P x y Q' :=
  h.imp (Nat.le_refl n) (fun _ => id) post

theorem map {x y : Parser α} {Q : α → ParseState → Prop} {T : β → ParseState → Prop} (f : α → β)
    (h : Follows z n P x y Q) (post : ∀ a s, Q a s → T (f a) s) :
    Follows z n P (f <$> x) (f <$> y) T := by
  rw [← bind_pure_comp, ← bind_pure_comp]
  exact h.bind fun a => .pure (f a) (post a)

/-- What holds of the states where a rule starts. -/
theorem given {φ : Prop} {x y : Parser α} {Q : α → ParseState → Prop} (fact : ∀ s, P s → φ)
    (h : φ → Follows z n P x y Q) : Follows z n P x y Q :=
  fun s hs => h (fact s hs) s hs

theorem of_fact {φ : Prop} {x y : Parser α} {Q : α → ParseState → Prop}
    (h : φ → Follows z n P x y Q) : Follows z n (fun s => φ ∧ P s) x y Q :=
  fun s hs => h hs.1 s hs.2

end Follows

/-! ### Tokens -/

theorem follows_peek : Follows z n (z.Inside n) peek peek fun t => z.Seen n t := by
  refine fun s hs => ⟨?_, hs, rfl⟩
  rw [peek, hs.headD_amid]

theorem follows_skip {seen : Token} (proper : seen.terminal ≠ .eof) :
    Follows z n (z.Seen n seen) skip skip fun _ => z.Past n seen := by
  intro s hs
  obtain ⟨rest, found⟩ := hs.exists_rest proper
  have here := hs.inside.here
  have length := hs.inside.length
  rw [found] at here length
  refine ⟨?_, ?_⟩
  · simp [skip, ParseState.amid, found]
  · have tail : s.rest.tail = rest := by rw [found, List.tail_cons]
    exact ⟨by rwa [tail], hs.inside.eof, by rwa [tail]⟩

theorem follows_fail (fault : GrammarFault) {Q : α → ParseState → Prop} :
    Follows z n (z.Inside n) (fail fault) (fail fault) Q := by
  refine fun s hs => ⟨?_, hs⟩
  have next : peek (s.amid c) = .ok (s.rest.headD s.eof) (s.amid c) := by
    rw [peek, hs.headD_amid]
  rw [fail, bind_of_ok next]
  rfl

theorem follows_note (fault : GrammarFault) (culprit : Token) :
    Follows z n (z.Inside n) (note fault culprit) (note fault culprit) fun _ => z.Inside n := by
  refine fun s hs => ⟨?_, hs.here, hs.eof, hs.length⟩
  change EStateM.Result.ok _ _ = _
  simp only [ParseState.amid, Array.append_push]

theorem follows_freshSite :
    Follows z n (z.Inside n) freshSite freshSite fun _ => z.Inside n :=
  fun _ hs => ⟨rfl, hs.here, hs.eof, hs.length⟩

theorem follows_nextIs (terminals : List Terminal) :
    Follows z n (z.Inside n) (nextIs terminals) (nextIs terminals) fun _ => z.Inside n :=
  follows_peek.bind fun _ => .pure _ fun _ hs => hs.inside

/-- A token that may be read, or the state is as before. -/
theorem follows_accept? (terminals : List Terminal) :
    Follows z n (z.Inside n) (accept? terminals) (accept? terminals) fun o s =>
      o.elim (z.Inside n s) fun t => t.terminal ∈ terminals ∧ z.Past n t s := by
  intro s hs
  have here := hs.here
  have length := hs.length
  obtain ⟨t, rest, next, mem, read⟩ | ⟨other, declined⟩ := accept?_cases terminals s
  · rw [next] at here length
    rw [read]
    refine ⟨accept?_of_mem ?_ mem, mem, here, hs.eof, length⟩
    rw [ParseState.amid, next, List.cons_append]
  · rw [declined]
    refine ⟨accept?_of_forall_notMem ?_, hs⟩
    rw [ParseState.amid]
    cases next : s.rest with
    | nil =>
        rw [next] at here
        rw [(z.ends here).1]
        exact nofun
    | cons t rest =>
        rw [next] at other
        exact other

/-- The next rule starts after a token that was read. -/
theorem Follows.pass {x y : Parser α} {Q : α → ParseState → Prop} {terminals : List Terminal}
    {t : Token} (other : .symbol .semicolon ∉ terminals) (h : Follows z n (z.Inside n) x y Q) :
    Follows z n (fun s => t.terminal ∈ terminals ∧ z.Past n t s) x y Q := by
  refine h.imp (Nat.le_refl n) (fun s hs => (hs.2.inside fun semicolon => ?_).mono (Nat.sub_le n 1))
    fun _ _ => id
  exact other (semicolon ▸ hs.1)

/-- What is behind does not start with `else`. -/
theorem follows_acceptElse :
    Follows z n (z.After n) (accept? [.keyword .else]) (accept? [.keyword .else]) fun o s =>
      o.elim (z.After n s) fun _ => z.Inside n s := by
  intro s hs
  rcases hs.here with here | nothing
  · have follows := follows_accept? (z := z) (n := n) [.keyword .else] s ⟨here, hs.eof, hs.length⟩
    cases read : accept? [.keyword .else] s with
    | error e t =>
        rw [read] at follows
        exact follows
    | ok o t =>
        rw [read] at follows
        refine ⟨follows.1, ?_⟩
        cases o with
        | none => exact follows.2.after
        | some first =>
            have other : first.terminal ≠ .symbol .semicolon := by
              rw [List.mem_singleton.1 follows.2.1]
              decide
            exact (follows.2.2.inside other).mono (Nat.sub_le n 1)
  · have none : accept? [.keyword .else] s = .ok none s :=
      accept?_of_forall_notMem (by rw [nothing]; exact nofun)
    rw [none]
    refine ⟨accept?_of_forall_notMem ?_, hs⟩
    have calm := z.calm
    rw [ParseState.amid, nothing, List.nil_append]
    cases tokens : c.tokens with
    | nil => exact nofun
    | cons t ts =>
        rw [tokens, List.headD_cons] at calm
        simpa using calm

theorem follows_acceptAll (terminals : List Terminal) (other : .symbol .semicolon ∉ terminals) :
    Follows z n (z.Inside n) (acceptAll terminals) (acceptAll terminals) fun _ => z.Inside n := by
  intro s hs
  have split (rest : List Token) (here : z.inside rest) :
      (rest ++ c.tokens).takeWhile (fun t => terminals.contains t.terminal) =
        rest.takeWhile (fun t => terminals.contains t.terminal) ∧
      (rest ++ c.tokens).dropWhile (fun t => terminals.contains t.terminal) =
        rest.dropWhile (fun t => terminals.contains t.terminal) ++ c.tokens ∧
      z.inside (rest.dropWhile fun t => terminals.contains t.terminal) := by
    induction rest with
    | nil =>
        rw [(z.ends here).1]
        exact ⟨rfl, rfl, here⟩
    | cons t rest ih =>
        rw [List.cons_append, List.takeWhile_cons, List.takeWhile_cons, List.dropWhile_cons,
          List.dropWhile_cons]
        by_cases found : terminals.contains t.terminal
        · have proper : t.terminal ≠ .symbol .semicolon := by
            intro semicolon
            rw [semicolon] at found
            exact other (by simpa using found)
          obtain ⟨taken, dropped, inside⟩ := ih (z.reads here proper)
          rw [if_pos found, if_pos found, if_pos found, if_pos found, taken]
          exact ⟨rfl, dropped, inside⟩
        · rw [if_neg found, if_neg found, if_neg found, if_neg found]
          exact ⟨rfl, rfl, here⟩
  obtain ⟨taken, dropped, inside⟩ := split s.rest hs.here
  refine ⟨?_, inside, hs.eof, (List.dropWhile_suffix _).length_le.trans hs.length⟩
  simp only [acceptAll, ParseState.amid, taken, dropped]

theorem follows_expect (terminal : Terminal) (fault : GrammarFault) :
    Follows z n (z.Inside n) (expect terminal fault) (expect terminal fault) fun t s =>
      t.terminal = terminal ∧ z.Past n t s := by
  refine (follows_accept? [terminal]).bind fun o => ?_
  cases o with
  | none => exact follows_fail fault
  | some t => exact .pure t fun s hs => ⟨List.mem_singleton.1 hs.1, hs.2⟩

/-- A token that does not end a statement. -/
theorem follows_expectInside {terminal : Terminal} (other : terminal ≠ .symbol .semicolon)
    (fault : GrammarFault) :
    Follows z n (z.Inside n) (expect terminal fault) (expect terminal fault) fun _ =>
      z.Inside n :=
  (follows_expect terminal fault).post fun _ _ hs =>
    (hs.2.inside (hs.1 ▸ other)).mono (Nat.sub_le n 1)

/-- The token that ends a statement. -/
theorem follows_expectEnd (terminal : Terminal) (fault : GrammarFault) :
    Follows z n (z.Inside n) (expect terminal fault) (expect terminal fault) fun _ =>
      z.After (n - 1) :=
  (follows_expect terminal fault).post fun _ _ hs => hs.2.after

/-- A block starts only where a semicolon does not end the whole. -/
theorem follows_expectBrace (fault : GrammarFault) :
    Follows z n (z.Inside n) (expect (.symbol .leftBrace) fault)
      (expect (.symbol .leftBrace) fault) fun _ s => z.inside [] ∧ z.Inside n s := by
  refine (follows_expect _ fault).post fun t s hs => ⟨z.nests hs.2.here (Or.inr hs.1), ?_⟩
  refine (hs.2.inside ?_).mono (Nat.sub_le n 1)
  rw [hs.1]
  decide

/-! ### Repetition -/

/-- Nothing is done where the tokens run out. -/
def Idle (step : α → Parser (Option α)) : Prop :=
  ∀ a s, s.rest = [] → s.eof.terminal = .eof → step a s = .ok none s

theorem follows_chain {step step' : α → Parser (Option α)}
    (h : ∀ m ≤ n, ∀ a, Follows z m (z.Inside m) (step a) (step' a) fun o =>
      z.Inside (m - ifSome o))
    (idle : Idle step') {b b' : Nat} (fits : n ≤ b) (bounds : b ≤ b') (a : α) :
    Follows z n (z.Inside n) (chain step b a) (chain step' b' a) fun _ => z.Inside n := by
  induction b generalizing n b' a with
  | zero =>
      refine fun s hs => ⟨?_, hs⟩
      have nothing := List.eq_nil_of_length_eq_zero (Nat.le_zero.1 (hs.length.trans fits))
      have here := hs.here
      rw [nothing] at here
      obtain ⟨none, same⟩ := z.ends here
      cases b' with
      | zero => rfl
      | succ b' =>
          have ended : step' a (s.amid c) = .ok Option.none (s.amid c) :=
            idle a _ (by rw [ParseState.amid, nothing, none]; rfl)
              ((congrArg Token.terminal same).trans z.closed)
          rw [chain, bind_of_ok ended]
          rfl
  | succ b ih =>
      obtain ⟨b', rfl⟩ : ∃ b'', b' = b'' + 1 := ⟨b' - 1, by omega⟩
      refine (h n (Nat.le_refl n) a).bind fun o => ?_
      cases o with
      | none => exact .pure a fun s hs => hs
      | some a' =>
          have rest := ih (fun m le => h m (le.trans (Nat.sub_le n 1)))
            (Nat.sub_le_of_le_add fits) (Nat.le_of_succ_le_succ bounds) a'
          exact rest.imp (Nat.sub_le n 1) (fun _ => id) fun _ _ hs => hs.mono (Nat.sub_le n 1)

/-- Something is read after a token that may be there. -/
theorem follows_acceptStep {terminals : List Terminal} (other : .symbol .semicolon ∉ terminals)
    {f g : Option Token → Parser (Option α)}
    (h : ∀ t, Follows z n (z.Inside (n - 1)) (f (some t)) (g (some t)) fun _ => z.Inside (n - 1))
    (hf : f none = pure none) (hg : g none = pure none) :
    Follows z n (z.Inside n) (accept? terminals >>= f) (accept? terminals >>= g) fun o =>
      z.Inside (n - ifSome o) := by
  refine (follows_accept? terminals).bind fun o => ?_
  cases o with
  | none =>
      rw [hf, hg]
      exact .pure none fun s hs => hs
  | some t =>
      refine (h t).imp (Nat.le_refl n) (fun s hs => hs.2.inside ?_) fun o s hs => ?_
      · intro semicolon
        exact other (semicolon ▸ hs.1)
      · exact hs.mono (Nat.sub_le_sub_left (ifSome_le_one o) n)

theorem idle_acceptStep {terminals : List Terminal} {f : α → Option Token → Parser (Option α)}
    (hf : ∀ a, f a none = pure none) : Idle fun a => accept? terminals >>= f a := by
  intro a s nothing _
  have none : accept? terminals s = .ok none s :=
    accept?_of_forall_notMem (by rw [nothing]; exact nofun)
  dsimp only
  rw [bind_of_ok none, hf]
  rfl

theorem follows_limited (excess : GrammarFault) {item item' : Parser α}
    (h : Follows z n (z.Inside n) item item' fun _ => z.Inside n) (found : Array α) :
    Follows z n (z.Inside n) (limited excess item found) (limited excess item' found) fun _ =>
      z.Inside n := by
  have rest : Follows z n (z.Inside n) (do return found.push (← item))
      (do return found.push (← item')) fun _ => z.Inside n :=
    h.bind fun a => .pure _ fun _ => id
  unfold limited
  split
  · refine follows_peek.bind fun t => ?_
    exact ((follows_note excess t).imp (Nat.le_refl n) (fun _ hs => hs.inside) fun _ _ => id).bind
      fun _ => rest
  · exact rest

theorem follows_commaList (excess : GrammarFault) {item item' : Parser α}
    (h : ∀ m ≤ n, Follows z m (z.Inside m) item item' fun _ => z.Inside m) {b b' : Nat}
    (fits : n ≤ b) (bounds : b ≤ b') :
    Follows z n (z.Inside n) (commaList excess b item) (commaList excess b' item') fun _ =>
      z.Inside n := by
  refine (follows_nextIs _).bind fun empty => ?_
  cases empty with
  | true => exact .pure [] fun _ => id
  | false =>
      refine (follows_limited excess (h n (Nat.le_refl n)) #[]).bind fun first => ?_
      refine (follows_chain (fun m le found => ?_) ?_ fits bounds first).bind
        fun as => .pure as.toList fun _ => id
      · refine follows_acceptStep (by decide) (fun _ => ?_) rfl rfl
        have next := follows_limited excess (h (m - 1) ((Nat.sub_le m 1).trans le)) found
        exact (next.bind fun as => .pure (some as) fun _ => id).imp (Nat.sub_le m 1) (fun _ => id)
          fun _ _ => id
      · exact idle_acceptStep fun _ => rfl

/-- The items of a block, where a semicolon does not end the whole. -/
theorem follows_itemsUntil {stop : List Terminal} (eof_stops : .eof ∈ stop)
    (nothing : z.inside []) {item item' : Parser (Option α)}
    (h : ∀ m ≤ n, Follows z m (z.Inside m) item item' fun _ => z.After (m - 1)) {b b' : Nat}
    (fits : n ≤ b) (bounds : b ≤ b') :
    Follows z n (z.Inside n) (itemsUntil stop b item) (itemsUntil stop b' item') fun _ =>
      z.Inside n := by
  rw [itemsUntil_eq, itemsUntil_eq]
  refine (follows_chain (fun m le found => ?_) (fun found s ended closed => ?_) fits bounds
    #[]).bind fun as => .pure as.toList fun _ => id
  · refine (follows_nextIs stop).bind fun stops => ?_
    cases stops with
    | true => exact .pure none fun _ => id
    | false =>
        refine (h m le).bind fun o => ?_
        cases o with
        | none => exact .pure (some found) fun s hs => hs.inside nothing
        | some a => exact .pure (some (found.push a)) fun s hs => hs.inside nothing
  · have stops : nextIs stop s = .ok true s := by
      rw [nextIs, bind_of_ok (x := peek) rfl, ended, List.headD_nil, closed]
      exact congrArg (EStateM.Result.ok · s) (by simpa using eof_stops)
    rw [itemStep, bind_of_ok stops]
    rfl

/-! ### Choice by the next token -/

theorem Follows.dispatch {f g : Token → Parser α} {Q : α → ParseState → Prop}
    (h : ∀ t, Follows z n (z.Seen n t) (f t) (g t) Q) :
    Follows z n (z.Inside n) (peek >>= f) (peek >>= g) Q :=
  follows_peek.bind h

theorem Follows.skipThen {x y : Parser α} {Q : α → ParseState → Prop} {seen : Token}
    (proper : seen.terminal ≠ .eof) (other : seen.terminal ≠ .symbol .semicolon)
    (h : Follows z (n - 1) (z.Inside (n - 1)) x y Q) :
    Follows z n (z.Seen n seen) (do skip; x) (do skip; y) Q :=
  (follows_skip proper).bind fun _ =>
    h.imp (Nat.sub_le n 1) (fun _ hs => hs.inside other) fun _ _ => id

end Parser

end Lox
