import Lox.Bind
import Lox.Grammar.Statement
import Lox.Proofs.Grammar.Relaxed

/-!
# What a parser expects

`Expects tokens n a s` says of a state in the middle of reading `tokens` that the tokens read so far
can go on exactly as `a` derives.  So an error at the next token is justified if nothing that `a`
derives starts with it: then the tokens read so far are the beginning of a program, and with the
next one they are not (`Earliest`).

`Predicts I x J` says of a rule that starts where `I` holds that it comes to where `J` holds of its
result, or that the first error that ends a declaration is justified.  Errors that do not end a
declaration may be noted on the way.  There is one lemma for each way to put rules together.
-/

namespace Lox

/-- Does the fault end the declaration in which it is found? -/
def GrammarFault.aborts : GrammarFault → Bool
  | .tooManyParameters | .tooManyArguments | .invalidTarget => false
  | _ => true

def firstAborting (errors : List GrammarError) : Option GrammarError :=
  errors.find? fun e => e.fault.aborts

def ParseState.look (s : ParseState) : Terminal := (s.rest.headD s.eof).terminal

/-- The error is at the first token that no program has after those before it. -/
def Earliest (tokens : List Token) (eof : Token) (e : GrammarError) : Prop :=
  ∃ before after, tokens = before ++ after ∧ e.culprit = after.headD eof ∧
    (∃ w, (Ebnf.rule .program).Yields (before.map Token.terminal ++ w)) ∧
    ∀ w, ¬ (Ebnf.rule .program).Yields (before.map Token.terminal ++ e.culprit.terminal :: w)

/-- At most `n` tokens are left, and the program goes on as `a` derives. -/
structure Expects (tokens : List Token) (n : Nat) (a : Ebnf Nonterminal) (s : ParseState) :
    Prop where
  eof : s.eof.terminal = .eof
  short : s.rest.length ≤ n
  goes : ∃ before, tokens = before ++ s.rest ∧
    (∀ w, a.Yields w → (Ebnf.rule .program).Yields (before.map Token.terminal ++ w)) ∧
    ∀ w, (Ebnf.rule .program).Yields (before.map Token.terminal ++ s.look :: w) →
      a.Yields (s.look :: w)

namespace Expects

variable {tokens : List Token} {n m : Nat} {a b c : Ebnf Nonterminal} {s : ParseState}

theorem mono (h : Expects tokens n a s) (le : n ≤ m) : Expects tokens m a s :=
  ⟨h.eof, Nat.le_trans h.short le, h.goes⟩

/-- What is expected may be narrowed by the next token. -/
theorem refine (h : Expects tokens n a s) (sub : ∀ w, b.Yields w → a.Yields w)
    (here : ∀ w, a.Yields (s.look :: w) → b.Yields (s.look :: w)) : Expects tokens n b s := by
  obtain ⟨before, split, sound, complete⟩ := h.goes
  exact ⟨h.eof, h.short, before, split, fun w hw => sound w (sub w hw),
    fun w hw => here w (complete w hw)⟩

theorem congr (h : Expects tokens n a s) (same : ∀ w, a.Yields w ↔ b.Yields w) :
    Expects tokens n b s :=
  h.refine (fun w => (same w).2) fun _ => (same _).1

theorem spread (h : Expects tokens n (.seq a b) s) : Expects tokens n (a.followedBy b) s :=
  h.congr fun _ => Ebnf.yields_followedBy.symm

theorem unfold {r : Nonterminal} (h : Expects tokens n (.seq (.rule r) b) s) :
    Expects tokens n ((relaxedGrammar r).followedBy b) s :=
  h.congr fun _ => Ebnf.yields_rule_followedBy

/-- The next token may rule out one of two choices. -/
theorem left (h : Expects tokens n a s) (choice : ∀ w, a.Yields w ↔ b.Yields w ∨ c.Yields w)
    (other : ∀ w, ¬c.Yields (s.look :: w)) : Expects tokens n b s :=
  h.refine (fun w hw => (choice w).2 (.inl hw)) fun w hw =>
    ((choice _).1 hw).resolve_right (other w)

theorem right (h : Expects tokens n a s) (choice : ∀ w, a.Yields w ↔ b.Yields w ∨ c.Yields w)
    (other : ∀ w, ¬b.Yields (s.look :: w)) : Expects tokens n c s :=
  h.left (fun w => (choice w).trans or_comm) other

/-- The next token may rule out all forms but one. -/
theorem form {r m : Nonterminal} (h : Expects tokens n (.seq (.rule r) b) s) (mem : m ∈ r.forms)
    (others : ∀ m' ∈ r.forms, m' ≠ m → s.look ∉ m'.first) :
    Expects tokens n (.seq (.rule m) b) s :=
  h.refine (fun _ hw => Ebnf.yields_forms.2 ⟨m, mem, hw⟩)
    fun _ => (Ebnf.yields_form_of_others mem others).1

/-- Sites and noted errors do not matter. -/
theorem of_rest {s' : ParseState} (h : Expects tokens n a s) (rest : s'.rest = s.rest)
    (eof : s'.eof = s.eof) : Expects tokens n a s' := by
  have look : s'.look = s.look := by rw [ParseState.look, ParseState.look, rest, eof]
  obtain ⟨before, split, sound, complete⟩ := h.goes
  exact ⟨eof ▸ h.eof, rest ▸ h.short, before, rest ▸ split, sound, look ▸ complete⟩

theorem advance {t : Token} {rest : List Token} (h : Expects tokens n a s)
    (next : s.rest = t :: rest) (derives : ∀ w, a.Yields (t.terminal :: w) ↔ b.Yields w) :
    Expects tokens (n - 1) b { s with rest } := by
  have look : s.look = t.terminal := by rw [ParseState.look, next, List.headD_cons]
  obtain ⟨before, split, sound, complete⟩ := h.goes
  refine ⟨h.eof, ?_, before ++ [t], ?_, fun w hw => ?_, fun w hw => ?_⟩
  · have short := h.short
    rw [next, List.length_cons] at short
    exact Nat.le_sub_of_add_le short
  · rw [split, next, List.append_assoc, List.singleton_append]
  · simpa using sound _ ((derives w).2 hw)
  · refine (derives _).1 (look ▸ complete _ ?_)
    simpa [look] using hw

/-- The token after all others comes next if no others are left. -/
theorem look_of_zero (h : Expects tokens 0 a s) : s.look = .eof := by
  have none : s.rest = [] := List.length_eq_zero_iff.1 (Nat.le_zero.1 h.short)
  rw [ParseState.look, none, List.headD_nil, h.eof]

/-- An error at the next token is justified if nothing expected starts with it. -/
theorem earliest (h : Expects tokens n a s) (stuck : ∀ w, ¬ a.Yields (s.look :: w))
    (fault : GrammarFault) : Earliest tokens s.eof ⟨fault, s.rest.headD s.eof⟩ := by
  obtain ⟨before, split, sound, complete⟩ := h.goes
  obtain ⟨w, derived⟩ := a.inhabited
  exact ⟨before, s.rest, split, rfl, ⟨w, sound w derived⟩, fun v hv => stuck v (complete v hv)⟩

end Expects

/-! ### Outcomes -/

/-- No error has ended a declaration and `I` holds, or the first one that has is justified. -/
def Justified (tokens : List Token) (eof : Token) (I : ParseState → Prop) (s : ParseState) :
    Prop :=
  s.eof = eof ∧ (firstAborting s.errors.toList = none ∧ I s ∨
    ∃ e, firstAborting s.errors.toList = some e ∧ Earliest tokens eof e)

/-- The first error that ends a declaration is justified, if the rule fails with `e`. -/
def Fails (tokens : List Token) (eof : Token) (e : GrammarError) (s : ParseState) : Prop :=
  s.eof = eof ∧ ∃ e', firstAborting (s.errors.toList ++ [e]) = some e' ∧ Earliest tokens eof e'

namespace Parser

variable {tokens : List Token} {eof : Token} {α β : Type}

/-- A rule that starts where `I` holds comes to where `J` holds of its result, unless there was an
error that ends a declaration.  Then the first such error is justified. -/
def Predicts (tokens : List Token) (eof : Token) (I : ParseState → Prop) (x : Parser α)
    (J : α → ParseState → Prop) : Prop :=
  ∀ s, Justified tokens eof I s → match x s with
    | .ok a s' => Justified tokens eof (J a) s'
    | .error e s' => Fails tokens eof e s'

namespace Predicts

variable {I I' : ParseState → Prop} {J J' : α → ParseState → Prop} {x : Parser α}

theorem imp (h : Predicts tokens eof I x J) (pre : ∀ s, I' s → I s)
    (post : ∀ a s, J a s → J' a s) : Predicts tokens eof I' x J' := by
  rintro s ⟨same, here⟩
  have all := h s ⟨same, here.imp_left (And.imp_right (pre s))⟩
  cases hx : x s with
  | ok a s' =>
      rw [hx] at all
      exact ⟨all.1, all.2.imp_left (And.imp_right (post a s'))⟩
  | error e s' =>
      rw [hx] at all
      exact all

theorem weaken (h : Predicts tokens eof I x J) (pre : ∀ s, I' s → I s) :
    Predicts tokens eof I' x J :=
  h.imp pre fun _ _ => id

theorem bind {f : α → Parser β} {T : β → ParseState → Prop} (hx : Predicts tokens eof I x J)
    (hf : ∀ a, Predicts tokens eof (J a) (f a) T) : Predicts tokens eof I (x >>= f) T := by
  intro s hs
  have first := hx s hs
  cases hxs : x s with
  | error e s' =>
      rw [hxs] at first
      rw [bind_of_error hxs]
      exact first
  | ok a s' =>
      rw [hxs] at first
      rw [bind_of_ok hxs]
      exact hf a s' first

theorem pure (a : α) (h : ∀ s, I s → J a s) : Predicts tokens eof I (pure a) J :=
  fun _ ⟨same, here⟩ => ⟨same, here.imp_left (And.imp_right (h _))⟩

theorem map {x : Parser β} {J' : β → ParseState → Prop} (f : β → α)
    (h : Predicts tokens eof I x J') (post : ∀ b s, J' b s → J (f b) s) :
    Predicts tokens eof I (f <$> x) J := by
  rw [← bind_pure_comp]
  exact h.bind fun b => .pure (f b) (post b)

/-- A rule that neither fails nor notes errors. -/
theorem quiet (h : ∀ s, ∃ a s', x s = .ok a s' ∧ s'.eof = s.eof ∧ s'.errors = s.errors ∧
    (I s → J a s')) : Predicts tokens eof I x J := by
  rintro s ⟨same, here⟩
  obtain ⟨a, s', ran, eof, errors, holds⟩ := h s
  rw [ran]
  refine ⟨eof.trans same, ?_⟩
  rw [errors]
  exact here.imp_left (And.imp_right holds)

end Predicts

variable {n limit bound : Nat} {a b K : Ebnf Nonterminal} {C : Ebnf Nonterminal → Prop}
  {k : Terminal} {terminals : List Terminal}

/-! ### Single tokens -/

theorem predicts_peek : Predicts tokens eof (Expects tokens n a) peek fun t s =>
    Expects tokens n a s ∧ s.look = t.terminal :=
  .quiet fun s => ⟨_, s, rfl, rfl, rfl, fun h => ⟨h, rfl⟩⟩

theorem predicts_skip {t : Token} (here : t.terminal = k) (proper : k ≠ .eof)
    (derives : ∀ w, a.Yields (k :: w) ↔ b.Yields w) :
    Predicts tokens eof (fun s => Expects tokens n a s ∧ s.look = t.terminal) skip fun _ =>
      Expects tokens (n - 1) b := by
  refine .quiet fun s => ⟨(), _, rfl, rfl, rfl, ?_⟩
  rw [here]
  rintro ⟨h, rfl⟩
  cases next : s.rest with
  | nil =>
      rw [ParseState.look, next, List.headD_nil] at proper
      exact absurd h.eof proper
  | cons t rest =>
      rw [ParseState.look, next, List.headD_cons] at derives
      exact h.advance next derives

theorem predicts_freshSite : Predicts tokens eof (Expects tokens n a) freshSite fun _ =>
    Expects tokens n a :=
  .quiet fun _ => ⟨_, _, rfl, rfl, rfl, fun h => h.of_rest rfl rfl⟩

theorem predicts_nextIs (terminals : List Terminal) :
    Predicts tokens eof (Expects tokens n a) (nextIs terminals) fun there s =>
      Expects tokens n a s ∧ (there = true ↔ s.look ∈ terminals) :=
  .quiet fun s => ⟨_, s, rfl, rfl, rfl, fun h => ⟨h, List.contains_iff_mem⟩⟩

/-- What is expected after one of `terminals` has been read may depend on which it is. -/
theorem predicts_accept? (terminals : List Terminal) (proper : .eof ∉ terminals)
    (after : Terminal → Ebnf Nonterminal)
    (derives : ∀ k ∈ terminals, ∀ w, a.Yields (k :: w) ↔ (after k).Yields w) :
    Predicts tokens eof (Expects tokens n a) (accept? terminals) fun o s => match o with
      | some t => Expects tokens (n - 1) (after t.terminal) s
      | none => Expects tokens n a s ∧ s.look ∉ terminals := by
  refine .quiet fun s => ?_
  obtain ⟨t, rest, next, here, read⟩ | ⟨other, declined⟩ := accept?_cases terminals s
  · exact ⟨some t, _, read, rfl, rfl, fun h => h.advance next (derives _ here)⟩
  · refine ⟨none, s, declined, rfl, rfl, fun h => ⟨h, ?_⟩⟩
    cases next : s.rest with
    | nil => rwa [ParseState.look, next, List.headD_nil, h.eof]
    | cons t rest =>
        rw [ParseState.look, next, List.headD_cons]
        exact other t (congrArg List.head? next)

/-- One of two terminals, with what is expected after each. -/
theorem predicts_either {k' : Terminal} (b b' : Ebnf Nonterminal) (proper : .eof ∉ [k, k'])
    (derives : ∀ w, a.Yields (k :: w) ↔ b.Yields w) (apart : k' ≠ k)
    (derives' : ∀ w, a.Yields (k' :: w) ↔ b'.Yields w) :
    Predicts tokens eof (Expects tokens n a) (accept? [k, k']) fun o s => match o with
      | some t => Expects tokens (n - 1) (if t.terminal = k then b else b') s
      | none => Expects tokens n a s ∧ s.look ∉ [k, k'] := by
  refine predicts_accept? [k, k'] proper (fun t => if t = k then b else b') fun t mem w => ?_
  rcases List.mem_cons.1 mem with rfl | other
  · rw [derives, if_pos rfl]
  · rw [List.mem_singleton.1 other, derives', if_neg apart]

theorem predicts_fail {J : α → ParseState → Prop} {fault : GrammarFault} (aborts : fault.aborts)
    {I : ParseState → Prop}
    (stuck : ∀ s, I s → ∃ n a, Expects tokens n a s ∧ ∀ w, ¬ a.Yields (s.look :: w)) :
    Predicts tokens eof I (fail fault : Parser α) J := by
  rintro s ⟨same, here⟩
  refine ⟨same, ?_⟩
  rw [firstAborting, List.find?_append]
  rcases here with ⟨none, holds⟩ | ⟨e, found, justified⟩
  · obtain ⟨n, a, h, stuck⟩ := stuck s holds
    subst same
    rw [firstAborting] at none
    refine ⟨_, ?_, h.earliest stuck fault⟩
    rw [none, Option.none_or, List.find?_cons_of_pos (by exact aborts)]
  · rw [firstAborting] at found
    exact ⟨e, by rw [found, Option.some_or], justified⟩

theorem predicts_expect (proper : k ≠ .eof) {fault : GrammarFault} (aborts : fault.aborts) :
    Predicts tokens eof (Expects tokens n (.seq (.terminal k) b)) (expect k fault) fun _ =>
      Expects tokens (n - 1) b := by
  have derives : ∀ k' ∈ [k], ∀ w, (Ebnf.seq (.terminal k) b).Yields (k' :: w) ↔ b.Yields w := by
    intro k' member w
    obtain rfl := List.mem_singleton.1 member
    simp
  refine (predicts_accept? [k] (by simpa using Ne.symm proper) (fun _ => b) derives).bind
    fun o => ?_
  cases o with
  | some t => exact .pure t fun _ h => h
  | none =>
      refine predicts_fail aborts fun s h => ⟨n, _, h.1, fun w hw => h.2 ?_⟩
      exact List.mem_singleton.2 (Ebnf.yields_terminal_seq.1 hw).1

theorem predicts_note {fault : GrammarFault} (goes : fault.aborts = false) (culprit : Token) :
    Predicts tokens eof (Expects tokens n a) (note fault culprit) fun _ => Expects tokens n a := by
  rintro s ⟨same, here⟩
  have errors : firstAborting (s.errors.push ⟨fault, culprit⟩).toList =
      firstAborting s.errors.toList := by
    simp [firstAborting, List.find?_append, goes]
  refine ⟨same, ?_⟩
  rw [errors]
  exact here.imp_left (And.imp_right fun h => h.of_rest rfl rfl)

/-- Tokens after which the same is expected as before. -/
theorem predicts_acceptAll (terminals : List Terminal) (proper : .eof ∉ terminals)
    (derives : ∀ k ∈ terminals, ∀ w, a.Yields (k :: w) ↔ a.Yields w) :
    Predicts tokens eof (Expects tokens n a) (acceptAll terminals) fun _ s =>
      Expects tokens n a s ∧ s.look ∉ terminals := by
  refine .quiet fun s => ⟨_, _, rfl, rfl, rfl, fun h => ?_⟩
  generalize rest : s.rest = ts
  induction ts generalizing s with
  | nil =>
      refine ⟨h.of_rest rest.symm rfl, ?_⟩
      rw [List.dropWhile_nil, ParseState.look, List.headD_nil, h.eof]
      exact proper
  | cons t ts ih =>
      rw [List.dropWhile_cons]
      split
      · rename_i here
        have member : t.terminal ∈ terminals := by simpa using here
        have read := (h.advance rest (derives _ member)).mono (Nat.sub_le n 1)
        exact ih { s with rest := ts } read rfl
      · rename_i there
        refine ⟨h.of_rest rest.symm rfl, ?_⟩
        rw [ParseState.look, List.headD_cons]
        simpa using there

/-! ### Repetitions -/

/-- In each round of a repetition that has `k` rounds left, `I k` holds of what has been found. -/
theorem Predicts.chain {I : Nat → ParseState → Prop} {T : ParseState → Prop}
    {step : α → Parser (Option α)} (stop : ∀ s, I 0 s → T s)
    (h : ∀ k a, Predicts tokens eof (I (k + 1)) (step a) fun o s => match o with
      | some _ => I k s
      | none => T s) (bound : Nat) (a : α) :
    Predicts tokens eof (I bound) (chain step bound a) fun _ => T := by
  induction bound generalizing a with
  | zero => exact .pure a stop
  | succ k ih =>
      refine (h k a).bind fun o => ?_
      cases o with
      | none => exact .pure a fun _ here => here
      | some b => exact ih b

/-- Rounds that read a token each end before the bound does. -/
theorem predicts_chain {T : ParseState → Prop} {step : α → Parser (Option α)}
    (stop : ∀ s, Expects tokens 0 a s → T s)
    (h : ∀ m ≤ n, ∀ x, Predicts tokens eof (Expects tokens m a) (step x) fun o s => match o with
      | some _ => Expects tokens (m - 1) a s
      | none => T s) (fits : n ≤ bound) (x : α) :
    Predicts tokens eof (Expects tokens n a) (chain step bound x) fun _ => T := by
  -- no more than `n` tokens are left, and no more than there are rounds
  refine (Predicts.chain (I := fun r => Expects tokens (min r n) a) (fun s here => ?_)
    (fun r x => ?_) bound x).weaken fun s here => here.mono (Nat.le_min.2 ⟨fits, Nat.le_refl _⟩)
  · exact stop s (Nat.zero_min n ▸ here)
  · refine (h _ (Nat.min_le_right _ _) x).imp (fun _ => id) fun o s here => ?_
    cases o with
    | none => exact here
    | some _ => exact here.mono (by omega)

/-- On at most `limit` tokens, the rule reads what `a` derives, in front of whatever is expected
next if `C` holds of that. -/
def Predicting (tokens : List Token) (eof : Token) (limit : Nat) (C : Ebnf Nonterminal → Prop)
    (x : Parser α) (a : Ebnf Nonterminal) : Prop :=
  ∀ n ≤ limit, ∀ K, C K →
    Predicts tokens eof (Expects tokens n (.seq a K)) x fun _ => Expects tokens (n - 1) K

/-- The first terminal of what may be left out.  If what comes behind it may start with the same
terminal, then that is the same. -/
theorem predicts_option (proper : k ≠ .eof)
    (absorbs : ∀ w, K.Yields (k :: w) → (Ebnf.seq a K).Yields w) :
    Predicts tokens eof (Expects tokens n (.seq (.option (.seq (.terminal k) a)) K)) (accept? [k])
      fun o => match o with
        | some _ => Expects tokens (n - 1) (.seq a K)
        | none => Expects tokens n K := by
  have derives (w : List Terminal) : (Ebnf.seq (.option (.seq (.terminal k) a)) K).Yields (k :: w) ↔
      (Ebnf.seq a K).Yields w := by
    simpa using absorbs w
  refine (predicts_accept? [k] (by simpa using Ne.symm proper) (fun _ => .seq a K)
    fun k' member w => ?_).imp (fun _ => id) fun o s h => ?_
  · rw [List.mem_singleton.1 member, derives]
  · cases o with
    | some t => exact h
    | none =>
        refine h.1.left (fun _ => Ebnf.yields_option_seq) fun w first => h.2 ?_
        rw [Ebnf.yields_seq_seq, Ebnf.yields_terminal_seq] at first
        exact List.mem_singleton.2 first.1

/-- What may be left out in front of a terminal that it does not start with. -/
theorem predicts_nextIs_stop {m : Nonterminal} {stop : Terminal} (other : stop ∉ m.first) :
    Predicts tokens eof
      (Expects tokens n (.seq (.option (.rule m)) (.seq (.terminal stop) K))) (nextIs [stop])
      fun there => match there with
        | true => Expects tokens n (.seq (.terminal stop) K)
        | false => Expects tokens n (.seq (.rule m) (.seq (.terminal stop) K)) := by
  refine (predicts_nextIs [stop]).imp (fun _ => id) fun there s h => ?_
  rw [List.mem_singleton] at h
  cases there with
  | true =>
      refine h.1.left (fun _ => Ebnf.yields_option_seq) fun w first => other ?_
      rw [← h.2.1 rfl]
      exact Ebnf.mem_first_of_yields first
  | false =>
      refine h.1.right (fun _ => Ebnf.yields_option_seq) fun w rest => ?_
      cases h.2.2 (Ebnf.yields_terminal_seq.1 rest).1

/-- Rounds of one of several terminals and what comes after it, up to the first other terminal. -/
theorem predicts_rounds (k₀ : Terminal) (ks : List Terminal)
    {step : α → Token → Parser (Option α)}
    (mem : ∀ k, k ∈ terminals ↔ k ∈ k₀ :: ks) (proper : .eof ∉ terminals)
    (apart : ∀ k ∈ terminals, ∀ w, ¬K.Yields (k :: w))
    (h : ∀ m ≤ n, ∀ a t, Predicts tokens eof
      (Expects tokens m (.seq b (.seq (.star (.seq (.oneOf k₀ ks) b)) K))) (step a t)
      fun o s => o.isSome ∧ Expects tokens (m - 1) (.seq (.star (.seq (.oneOf k₀ ks) b)) K) s)
    (fits : n ≤ bound) (a : α) :
    Predicts tokens eof (Expects tokens n (.seq (.star (.seq (.oneOf k₀ ks) b)) K))
      (chain (fun a => do
        match ← accept? terminals with
        | some t => step a t
        | none => return none) bound a) fun _ => Expects tokens n K := by
  let S : Ebnf Nonterminal := .seq (.star (.seq (.oneOf k₀ ks) b)) K
  have choice (w : List Terminal) : S.Yields w ↔
      K.Yields w ∨ (Ebnf.seq (.oneOf k₀ ks) (.seq b S)).Yields w := by
    rw [Ebnf.yields_star_seq, Ebnf.yields_seq_seq]
  have stop {m : Nat} {s : ParseState} (here : Expects tokens m S s) (other : s.look ∉ terminals) :
      Expects tokens m K s :=
    here.left choice fun w first => other ((mem _).2 (Ebnf.yields_oneOf_seq.1 first).1)
  refine predicts_chain (fun s here => ?_) (fun m le a => ?_) fits a
  · exact (stop here (here.look_of_zero ▸ proper)).mono (Nat.zero_le n)
  · refine (predicts_accept? terminals proper (fun _ => .seq b S) fun k member w => ?_).bind
      fun o => ?_
    · rw [choice, Ebnf.yields_oneOf_seq]
      simp [apart k member, (mem k).1 member]
    · cases o with
      | none => exact .pure none fun s here => (stop here.1 here.2).mono le
      | some t =>
          refine (h (m - 1) (by omega) a t).imp (fun _ => id) fun o s here => ?_
          cases o with
          | none => cases here.1
          | some _ => exact here.2.mono (Nat.sub_le _ _)

theorem predicts_leftGrouped {k₀ : Terminal} {ks : List Terminal} {operand : Parser Expr}
    (build : Expr → Token → Expr → Expr) (h : Predicting tokens eof limit C operand b)
    (mem : ∀ k, k ∈ terminals ↔ k ∈ k₀ :: ks) (proper : .eof ∉ terminals)
    (apart : ∀ k ∈ terminals, ∀ w, ¬K.Yields (k :: w))
    (next : C (.seq (.star (.seq (.oneOf k₀ ks) b)) K)) (short : n ≤ limit)
    (fits : n - 1 ≤ bound) :
    Predicts tokens eof (Expects tokens n (.seq b (.seq (.star (.seq (.oneOf k₀ ks) b)) K)))
      (leftGrouped bound terminals build operand) fun _ => Expects tokens (n - 1) K := by
  refine (h n short _ next).bind fun first => ?_
  refine predicts_rounds k₀ ks mem proper apart (fun m le left operator => ?_) fits first
  exact (h m (by omega) _ next).bind fun right => .pure _ fun s here => ⟨rfl, here⟩

theorem predicts_limited {excess : GrammarFault} (goes : excess.aborts = false) {item : Parser α}
    {J : ParseState → Prop} (h : Predicts tokens eof (Expects tokens n a) item fun _ => J)
    (found : Array α) :
    Predicts tokens eof (Expects tokens n a) (limited excess item found) fun _ => J := by
  have rest : Predicts tokens eof (Expects tokens n a) (do return found.push (← item)) fun _ => J :=
    h.bind fun a => .pure _ fun _ => id
  unfold limited
  split
  · refine predicts_peek.bind fun t => ?_
    exact ((predicts_note goes t).weaken fun _ => And.left).bind fun _ => rest
  · exact rest

/-- A list with commas in parentheses, of which the first one has been read. -/
theorem predicts_commaList {m : Nonterminal} {excess : GrammarFault} (goes : excess.aborts = false)
    {item : Parser α} (h : Predicting tokens eof limit C item b)
    (rule : relaxedGrammar m = .seq b (.star (.seq (.terminal (.symbol .comma)) b)))
    (other : .symbol .rightParen ∉ m.first)
    (next : C (.seq (.star (.seq (.terminal (.symbol .comma)) b))
      (.seq (.terminal (.symbol .rightParen)) K))) (short : n ≤ limit) (fits : n ≤ bound) :
    Predicts tokens eof
      (Expects tokens n (.seq (.option (.rule m)) (.seq (.terminal (.symbol .rightParen)) K)))
      (commaList excess bound item) fun _ =>
        Expects tokens n (.seq (.terminal (.symbol .rightParen)) K) := by
  let R : Ebnf Nonterminal := .seq (.terminal (.symbol .rightParen)) K
  let S : Ebnf Nonterminal := .seq (.star (.seq (.oneOf (.symbol .comma) []) b)) R
  refine (predicts_nextIs_stop other).bind fun empty => ?_
  cases empty with
  | true => exact .pure [] fun _ => id
  | false =>
      have derives (w : List Terminal) :
          (Ebnf.seq (.rule m) R).Yields w ↔ (Ebnf.seq b S).Yields w := by
        rw [Ebnf.yields_rule_seq, rule, Ebnf.yields_seq_seq]
        rfl
      have first : Predicts tokens eof (Expects tokens n (.seq b S)) (limited excess item #[])
          fun _ => Expects tokens n S :=
        predicts_limited goes ((h n short _ next).imp (fun _ => id)
          fun _ _ here => here.mono (Nat.sub_le _ _)) #[]
      refine (first.weaken fun s here => here.congr derives).bind fun found => ?_
      refine (predicts_rounds (.symbol .comma) [] (fun _ => Iff.rfl) (by decide)
        (fun k member w => ?_) (fun m le found comma => ?_) fits found).bind fun found =>
        .pure _ fun _ => id
      · rw [List.mem_singleton.1 member]
        exact fun hw => absurd (Ebnf.yields_terminal_seq.1 hw).1 (by decide)
      · exact (predicts_limited goes (h m (by omega) _ next) found).bind fun found =>
          .pure _ fun s here => ⟨rfl, here⟩

/-- Items up to one of the terminals that may come behind them. -/
theorem predicts_itemsUntil {m : Nonterminal} {stop : List Terminal} {item : Parser (Option α)}
    (h : Predicting tokens eof limit C item (.rule m)) (closed : .eof ∈ stop)
    (other : ∀ k ∈ stop, k ∉ m.first) (ends : ∀ k w, K.Yields (k :: w) → k ∈ stop)
    (next : C (.seq (.star (.rule m)) K)) (short : n ≤ limit) (fits : n ≤ bound) :
    Predicts tokens eof (Expects tokens n (.seq (.star (.rule m)) K)) (itemsUntil stop bound item)
      fun _ s => Expects tokens n K s ∧ s.look ∈ stop := by
  let S : Ebnf Nonterminal := .seq (.star (.rule m)) K
  have last {r : Nat} {s : ParseState} (here : Expects tokens r S s) (there : s.look ∈ stop) :
      Expects tokens r K s :=
    here.left (fun _ => Ebnf.yields_star_seq) fun w first =>
      other _ there (Ebnf.mem_first_of_yields first)
  have more {r : Nat} {s : ParseState} (here : Expects tokens r S s) (goes : s.look ∉ stop) :
      Expects tokens r (.seq (.rule m) S) s :=
    here.right (fun _ => Ebnf.yields_star_seq) fun w rest => goes (ends _ w rest)
  refine Predicts.bind (J := fun _ s => Expects tokens n K s ∧ s.look ∈ stop) ?_ fun items =>
    .pure _ fun _ => id
  -- a dropped item does not count as found, but an error has ended a declaration then
  refine predicts_chain (fun s here => ?_) (fun m le found => ?_) fits #[]
  · have there : s.look ∈ stop := here.look_of_zero ▸ closed
    exact ⟨(last here there).mono (Nat.zero_le n), there⟩
  · refine (predicts_nextIs stop).bind fun there => ?_
    cases there with
    | true =>
        refine .pure none fun s here => ?_
        have there : s.look ∈ stop := here.2.1 rfl
        exact ⟨(last here.1 there).mono le, there⟩
    | false =>
        refine ((h m (Nat.le_trans le short) S next).weaken fun s here => ?_).bind fun o => ?_
        · exact more here.1 fun there => by simpa using here.2.2 there
        · cases o <;> exact .pure _ fun s => id

theorem Predicting.mono {x : Parser α} (h : Predicting tokens eof limit C x a)
    (le : bound ≤ limit) : Predicting tokens eof bound C x a :=
  fun n short => h n (Nat.le_trans short le)

theorem Predicting.map {x : Parser β} (f : β → α) (h : Predicting tokens eof limit C x a) :
    Predicting tokens eof limit C (f <$> x) a :=
  fun n short K next => .map f (h n short K next) fun _ _ => id

/-- The first terminal of a form tells it from the other forms. -/
theorem predicts_form {r m : Nonterminal} {t : Token} {x : Parser α} (form : m ∈ r.forms)
    (rule : relaxedGrammar m = .seq (.terminal k) m.rest) (here : t.terminal = k)
    (proper : k ≠ .eof) (h : Predicting tokens eof limit C x m.rest) (next : C K)
    (short : n ≤ limit + 1) :
    Predicts tokens eof (fun s => Expects tokens n (.seq (.rule r) K) s ∧ s.look = t.terminal)
      (do skip; x) fun _ => Expects tokens (n - 1) K := by
  have derives (w : List Terminal) : (Ebnf.seq (.rule r) K).Yields (k :: w) ↔
      (Ebnf.seq m.rest K).Yields w := by
    rw [Ebnf.yields_form form (Ebnf.mem_first_of_rule rule), Ebnf.yields_rule_seq, rule,
      Ebnf.yields_seq_seq, Ebnf.yields_terminal_seq, eq_self_iff_true, true_and]
  refine (predicts_skip here proper derives).bind fun _ => ?_
  exact (h (n - 1) (by omega) K next).imp (fun _ => id) fun _ _ last => last.mono (Nat.sub_le _ _)

/-- No nonterminal can be read when no tokens are left. -/
theorem predicting_zero {m : Nonterminal} {fault : GrammarFault} (aborts : fault.aborts)
    (proper : .eof ∉ m.first) :
    Predicting tokens eof 0 C (fail fault : Parser α) (.rule m) := by
  refine fun n short K _ => predicts_fail aborts fun s h => ⟨n, _, h, fun w => ?_⟩
  exact Ebnf.not_yields_of_not_mem_first ((h.mono short).look_of_zero ▸ proper)

/-- A rule that fails ends a declaration, and reading resumes somewhere. -/
theorem Predicting.attempt {x : Parser α} (h : Predicting tokens eof limit C x a) :
    Predicting tokens eof limit C (Stmt.attempt x) a := by
  intro n short K next s hs
  have all := h n short K next s hs
  unfold Stmt.attempt
  cases hx : x s with
  | ok a s' =>
      rw [hx] at all
      exact all
  | error e s' =>
      rw [hx] at all
      obtain ⟨same, e', first, earliest⟩ := all
      exact ⟨same, .inr ⟨e', by rwa [Array.toList_push], earliest⟩⟩

end Parser

end Lox
