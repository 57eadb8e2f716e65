import Lox.Proofs.Grammar.Reading

/-!
# Reading with more tokens behind

A rule that reads some tokens without an error reads them in the same way when more tokens stand
behind them, and with a larger bound.  There is one exception: at the end of its tokens a rule may
have stopped because there are no more, where otherwise it would have gone on.  Most rules cannot be
at the end when they are part of a declaration, because another token is still to come; those that
can do not go on with what may follow them.

`Parser.Extends c P k ends x y` says this of a rule `x` and the same rule `y` with a larger bound:
in a state with `P`, what `x` yields without noting an error `y` yields with the tokens `c` behind,
unless nothing is left to be read; if `ends` holds, also then.  And `x` reads at least `k` tokens,
which is why bounds are never reached.
-/

namespace Lox

/-! ### Rules with more tokens behind -/

structure Continuation where
  tokens : List Token
  eof : Token

def ParseState.extend (c : Continuation) (s : ParseState) : ParseState :=
  { s with rest := s.rest ++ c.tokens, eof := c.eof }

namespace Parser

/-- There are at most `n` tokens to be read. -/
structure Within (n : Nat) (s : ParseState) : Prop where
  eof : s.eof.terminal = .eof
  length : s.rest.length ≤ n

/-- A rule reads so many tokens, whatever it yields. -/
abbrev atLeast (k : Nat) (_ : α) : Nat := k

/-- A rule reads a token if it yields something. -/
def ifSome : Option α → Nat
  | none => 0
  | some _ => 1

theorem ifSome_le_one (o : Option α) : ifSome o ≤ 1 := by
  cases o <;> simp [ifSome]

/-- What the first rule reads the second one reads with more tokens behind. -/
structure Extends (c : Continuation) (P : ParseState → Prop) (k : α → Nat) (ends : Prop)
    (x y : Parser α) : Prop where
  passes : ∀ s a t, x s = .ok a t → Passed s t
  fails : ∀ s e t, x s = .error e t → Passed s t
  reads : ∀ s a t, P s → x s = .ok a t → t.errors.size = s.errors.size →
    t.rest.length + k a ≤ s.rest.length
  yields : ∀ s a t, P s → x s = .ok a t → t.errors.size = s.errors.size → ends ∨ t.rest ≠ [] →
    y (s.extend c) = .ok a (t.extend c)

variable {c : Continuation} {P : ParseState → Prop} {n : Nat} {e e' : Prop}

theorem Within.mono {m n : Nat} (h : m ≤ n) {s : ParseState} (w : Within m s) : Within n s :=
  ⟨w.eof, Nat.le_trans w.length h⟩

namespace Extends

variable {x y : Parser α} {f g : α → Parser β} {k₁ : α → Nat} {k k₂ : β → Nat}

theorem mono {Q : ParseState → Prop} {l : α → Nat} (h : Extends c P k₁ e x y)
    (state : ∀ s, Q s → P s) (least : ∀ a, l a ≤ k₁ a) (may : e' → e) :
    Extends c Q l e' x y where
  passes := h.passes
  fails := h.fails
  reads s a t hs hx clean :=
    Nat.le_trans (Nat.add_le_add_left (least a) _) (h.reads s a t (state s hs) hx clean)
  yields s a t hs hx clean left := h.yields s a t (state s hs) hx clean (left.imp_left may)

/-- Where only the result counts. -/
theorem weak {j : Nat} (h : Extends c P (atLeast j) e x y) : Extends c P (atLeast 0) False x y :=
  h.mono (fun _ => id) (fun _ => Nat.zero_le _) False.elim

/-- Where it does not matter whether something is read. -/
theorem reading {j : Nat} (h : Extends c P (atLeast j) e x y) : Extends c P (atLeast 0) e x y :=
  h.mono (fun _ => id) (fun _ => Nat.zero_le _) id

theorem within {m : Nat} (h : Extends c (Within n) k₁ e x y) (le : m ≤ n) :
    Extends c (Within m) k₁ e x y :=
  h.mono (fun _ w => w.mono le) (fun _ => Nat.le_refl _) id

theorem pure {k : α → Nat} (a : α) (nothing : k a = 0) :
    Extends c P k e (pure a) (pure a) where
  passes s a t h := by
    cases h
    exact .refl s
  fails s _ t h := by cases h
  reads s a t _ h _ := by
    cases h
    exact Nat.le_of_eq (congrArg _ nothing)
  yields s a t _ h _ _ := by
    cases h
    rfl

theorem size_le {s t : ParseState} (h : Passed s t) : s.errors.size ≤ t.errors.size := by
  simpa using h.errors.length_le

/-- One rule after the other.  If the first one can only be extended where something is left to be
read, the second one must read a token. -/
theorem bind {Q : α → ParseState → Prop} {j : α → β → Nat} (hx : Extends c P k₁ e x y)
    (hf : ∀ a, Extends c (Q a) (j a) e' (f a) (g a))
    (next : ∀ s a t, P s → x s = .ok a t → t.eof = s.eof → t.rest.length + k₁ a ≤ s.rest.length →
      Q a t)
    (least : ∀ a b, k b ≤ k₁ a + j a b) (may : e' → e ∨ ∀ a b, 1 ≤ j a b) :
    Extends c P k e' (x >>= f) (y >>= g) where
  passes s b u h := by
    obtain ⟨a, t, h₁, h₂⟩ := bind_eq_ok_iff.1 h
    exact (hx.passes s a t h₁).trans ((hf a).passes t b u h₂)
  fails s er u h := by
    rcases bind_eq_error_iff.1 h with h | ⟨a, t, h₁, h₂⟩
    · exact hx.fails s er u h
    · exact (hx.passes s a t h₁).trans ((hf a).fails t er u h₂)
  reads s b u hs h clean := by
    obtain ⟨a, t, h₁, h₂⟩ := bind_eq_ok_iff.1 h
    have le₁ := size_le (hx.passes s a t h₁)
    have le₂ := size_le ((hf a).passes t b u h₂)
    have first := hx.reads s a t hs h₁ (by omega)
    have start := next s a t hs h₁ (hx.passes s a t h₁).eof first
    have second := (hf a).reads t b u start h₂ (by omega)
    have both := least a b
    omega
  yields s b u hs h clean left := by
    obtain ⟨a, t, h₁, h₂⟩ := bind_eq_ok_iff.1 h
    have le₁ := size_le (hx.passes s a t h₁)
    have le₂ := size_le ((hf a).passes t b u h₂)
    have first := hx.reads s a t hs h₁ (by omega)
    have state := next s a t hs h₁ (hx.passes s a t h₁).eof first
    have second := (hf a).reads t b u state h₂ (by omega)
    have between : e ∨ t.rest ≠ [] := by
      have some (h : 0 < t.rest.length) : e ∨ t.rest ≠ [] := Or.inr (List.ne_nil_of_length_pos h)
      rcases left with left | left
      · rcases may left with strong | reads
        · exact Or.inl strong
        · have least := reads a b
          exact some (by omega)
      · have pos := List.length_pos_of_ne_nil left
        exact some (by omega)
    have first' := hx.yields s a t hs h₁ (by omega) between
    rw [bind_of_ok first']
    exact (hf a).yields t b u state h₂ (by omega) left

/-- The state after a rule has no more to be read. -/
theorem within_of_le {s t : ParseState} {k : Nat} (w : Within n s) (eof : t.eof = s.eof)
    (le : t.rest.length + k ≤ s.rest.length) : Within n t :=
  ⟨eof ▸ w.eof, Nat.le_trans (Nat.le_of_add_right_le le) w.length⟩

theorem andThen {j : Nat} (hx : Extends c (Within n) k₁ e x y)
    (hf : ∀ a, Extends c (Within n) (atLeast j) False (f a) (g a)) :
    Extends c (Within n) (atLeast j) False (x >>= f) (y >>= g) :=
  hx.bind hf (fun _ _ _ w _ => within_of_le w) (fun _ _ => Nat.le_add_left _ _) False.elim

/-- The first rule reads a token, so that a smaller bound is enough for what follows. -/
theorem firstThen (hx : Extends c (Within (n + 1)) (atLeast 1) e x y)
    (hf : ∀ a, Extends c (Within n) (atLeast 0) False (f a) (g a)) :
    Extends c (Within (n + 1)) (atLeast 1) False (x >>= f) (y >>= g) :=
  hx.bind hf
    (fun _ _ _ w _ eof le => ⟨eof ▸ w.eof, Nat.le_of_succ_le_succ (Nat.le_trans le w.length)⟩)
    (fun _ _ => Nat.le_add_right _ _) False.elim

/-- What follows reads a token, so that the first rule is never at the end. -/
theorem ending (hx : Extends c (Within n) k₁ e x y)
    (hf : ∀ a, Extends c (Within n) (atLeast 1) True (f a) (g a)) :
    Extends c (Within n) (atLeast 1) True (x >>= f) (y >>= g) :=
  hx.bind hf (fun _ _ _ w _ => within_of_le w) (fun _ _ => Nat.le_add_left _ _)
    fun _ => Or.inr fun _ _ => Nat.le_refl _

/-- The first rule may be at the end, and what follows as well. -/
theorem atEnd (hx : Extends c (Within n) (atLeast 1) True x y)
    (hf : ∀ a, Extends c (Within n) (atLeast 0) True (f a) (g a)) :
    Extends c (Within n) (atLeast 1) True (x >>= f) (y >>= g) :=
  hx.bind hf (fun _ _ _ w _ => within_of_le w) (fun _ _ => Nat.le_refl _) fun _ => Or.inl trivial

theorem map (h : α → β) {j : Nat} (hx : Extends c P (atLeast j) e x y) :
    Extends c P (atLeast j) e (h <$> x) (h <$> y) := by
  rw [← bind_pure_comp, ← bind_pure_comp]
  exact hx.bind (Q := fun _ _ => True) (j := fun _ _ => 0) (fun a => .pure (h a) rfl)
    (fun _ _ _ _ _ _ _ => trivial)
    (fun _ _ => Nat.le_refl _) Or.inl

end Extends

/-! ### Tokens -/

theorem extends_peek : Extends c P (atLeast 0) False peek peek where
  passes s a t h := by
    cases h
    exact .refl s
  fails s _ t h := by cases h
  reads s a t _ h _ := by
    cases h
    exact Nat.le_refl _
  yields s a t _ h _ left := by
    cases h
    obtain ⟨first, rest, hs⟩ := List.exists_cons_of_ne_nil (left.resolve_left id)
    simp [peek, ParseState.extend, hs]

/-- A token that was seen and is no end of file is there to be read. -/
theorem extends_skip {seen : Token} (proper : seen.terminal ≠ .eof) :
    Extends c (fun s => Within n s ∧ s.rest.headD s.eof = seen) (atLeast 1) True skip skip where
  passes s a t h := by
    cases h
    exact .read (List.tail_suffix _)
  fails s _ t h := by cases h
  reads s a t hs h _ := by
    cases h
    cases rest : s.rest with
    | nil => exact absurd hs.1.eof (by simpa [rest, ← hs.2] using proper)
    | cons t rest => simp
  yields s a t hs h _ _ := by
    cases h
    cases rest : s.rest with
    | nil => exact absurd hs.1.eof (by simpa [rest, ← hs.2] using proper)
    | cons t rest => simp [skip, ParseState.extend, rest]

theorem extends_fail (fault : GrammarFault) {k : α → Nat} {y : Parser α} :
    Extends c P k e (fail fault) y where
  passes _ _ _ h := by cases h
  fails s _ t h := by
    cases h
    exact .refl s
  reads _ _ _ _ h := by cases h
  yields _ _ _ _ h := by cases h

theorem extends_note (fault : GrammarFault) (culprit : Token) {y : Parser Unit} :
    Extends c P (atLeast 0) False (note fault culprit) y where
  passes s a t h := by
    cases h
    exact .note s _
  fails s _ t h := by cases h
  reads s a t _ h clean := by
    cases h
    simp at clean
  yields s a t _ h clean _ := by
    cases h
    simp at clean

theorem extends_freshSite : Extends c P (atLeast 0) e freshSite freshSite where
  passes s a t h := by
    cases h
    exact ⟨List.suffix_refl _, rfl, Nat.le_succ _, List.prefix_refl _⟩
  fails s _ t h := by cases h
  reads s a t _ h _ := by
    cases h
    exact Nat.le_refl _
  yields s a t _ h _ _ := by
    cases h
    rfl

theorem extends_nextIs (terminals : List Terminal) :
    Extends c (Within n) (atLeast 0) False (nextIs terminals) (nextIs terminals) :=
  extends_peek.andThen fun _ => .pure _ rfl

/-- At the end nothing is accepted, and what follows is not to be accepted either. -/
theorem extends_acceptBefore (terminals : List Terminal)
    (calm : e → terminals.contains (c.tokens.headD c.eof).terminal = false) :
    Extends c P ifSome e (accept? terminals) (accept? terminals) where
  passes s a t h := by
    obtain ⟨first, rest, next, -, read⟩ | ⟨-, declined⟩ := accept?_cases terminals s
    · cases read.symm.trans h
      exact .read (next ▸ List.suffix_cons _ _)
    · cases declined.symm.trans h
      exact .refl s
  fails s e t h := by
    obtain ⟨first, rest, -, -, read⟩ | ⟨-, declined⟩ := accept?_cases terminals s
    · cases read.symm.trans h
    · cases declined.symm.trans h
  reads s a t _ h _ := by
    obtain ⟨first, rest, next, -, read⟩ | ⟨-, declined⟩ := accept?_cases terminals s
    · cases read.symm.trans h
      simp [next, ifSome]
    · cases declined.symm.trans h
      exact Nat.le_refl _
  yields s a t _ h _ left := by
    obtain ⟨first, rest, next, mem, read⟩ | ⟨other, declined⟩ := accept?_cases terminals s
    · cases read.symm.trans h
      exact accept?_of_mem (by rw [ParseState.extend, next, List.cons_append]) mem
    · cases declined.symm.trans h
      refine accept?_of_forall_notMem ?_
      rw [ParseState.extend]
      cases next : s.rest with
      | nil =>
          have calm := calm (left.resolve_right fun ne => ne next)
          rw [List.nil_append]
          cases tokens : c.tokens with
          | nil => exact nofun
          | cons first rest =>
              rw [tokens, List.headD_cons] at calm
              simpa using calm
      | cons first rest =>
          rw [next] at other
          exact other

theorem extends_accept? (terminals : List Terminal) :
    Extends c P ifSome False (accept? terminals) (accept? terminals) :=
  extends_acceptBefore terminals False.elim

theorem extends_acceptAll (terminals : List Terminal) :
    Extends c P (atLeast 0) False (acceptAll terminals) (acceptAll terminals) where
  passes s a t h := by
    cases h
    exact .read (List.dropWhile_suffix _)
  fails s _ t h := by cases h
  reads s a t _ h _ := by
    cases h
    exact (List.dropWhile_suffix _).length_le
  yields s a t _ h _ left := by
    cases h
    have left : s.rest.dropWhile (fun t => terminals.contains t.terminal) ≠ [] :=
      left.resolve_left id
    have pos := List.length_pos_of_ne_nil left
    have whole := congrArg List.length
      (List.takeWhile_append_dropWhile (p := fun t => terminals.contains t.terminal) (l := s.rest))
    rw [List.length_append] at whole
    have taken : (s.rest ++ c.tokens).takeWhile (fun t => terminals.contains t.terminal) =
        s.rest.takeWhile fun t => terminals.contains t.terminal := by
      rw [List.takeWhile_append, if_neg (by omega)]
    have dropped : (s.rest ++ c.tokens).dropWhile (fun t => terminals.contains t.terminal) =
        s.rest.dropWhile (fun t => terminals.contains t.terminal) ++ c.tokens := by
      rw [List.dropWhile_append, if_neg (by simpa using left)]
    simp only [acceptAll, ParseState.extend, taken, dropped]

theorem ok_of_expect {terminal : Terminal} {fault : GrammarFault} {s t : ParseState} {a : Token}
    (h : expect terminal fault s = .ok a t) :
    ∃ rest, s.rest = a :: rest ∧ a.terminal = terminal ∧ t = { s with rest } := by
  obtain ⟨o, u, h₁, h₂⟩ := bind_eq_ok_iff.1 h
  obtain ⟨first, rest, next, here, read⟩ | ⟨-, declined⟩ := accept?_cases [terminal] s
  · cases read.symm.trans h₁
    cases h₂
    exact ⟨rest, next, List.mem_singleton.1 here, rfl⟩
  · cases declined.symm.trans h₁
    cases h₂

theorem extends_expect (terminal : Terminal) (fault : GrammarFault) :
    Extends c P (atLeast 1) True (expect terminal fault) (expect terminal fault) where
  passes s a t h := by
    obtain ⟨rest, hs, -, rfl⟩ := ok_of_expect h
    exact .read (hs ▸ List.suffix_cons _ _)
  fails s _ t h := by
    rcases bind_eq_error_iff.1 h with h | ⟨o, u, h₁, h₂⟩
    · exact (extends_accept? (c := c) (P := P) _).fails _ _ _ h
    · have first := (extends_accept? (c := c) (P := P) _).passes _ _ _ h₁
      cases o with
      | none =>
          cases h₂
          exact first
      | some a => cases h₂
  reads s a t _ h _ := by
    obtain ⟨rest, hs, -, rfl⟩ := ok_of_expect h
    rw [hs]
    exact Nat.le_refl _
  yields s a t _ h _ _ := by
    obtain ⟨rest, hs, here, rfl⟩ := ok_of_expect h
    have seen : accept? [terminal] (s.extend c) =
        .ok (some a) { s.extend c with rest := rest ++ c.tokens } := by
      refine accept?_of_mem ?_ (List.mem_singleton.2 here)
      rw [ParseState.extend, hs, List.cons_append]
    rw [expect, bind_of_ok seen]
    rfl

/-! ### Repetition -/

/-- Where a repetition ends, something is left to be read, so that its bound was not reached. -/
theorem extends_chain {step step' : α → Parser (Option α)}
    (h : ∀ a, Extends c (Within n) ifSome e (step a) (step' a)) {b b' : Nat} (fits : n ≤ b)
    (bounds : b ≤ b') (a : α) :
    Extends c (Within n) (atLeast 0) False (chain step b a) (chain step' b' a) := by
  induction b generalizing n b' a with
  | zero =>
      exact {
        passes := fun s _ t h => by
          cases h
          exact .refl s
        fails := fun _ _ _ h => by cases h
        reads := fun _ _ _ _ h _ => by
          cases h
          exact Nat.le_refl _
        yields := fun s _ t hs h _ left => by
          cases h
          have nothing := List.eq_nil_of_length_eq_zero (Nat.le_zero.1 (hs.length.trans fits))
          exact absurd nothing (left.resolve_left id) }
  | succ b ih =>
      obtain ⟨b', rfl⟩ : ∃ b'', b' = b'' + 1 := ⟨b' - 1, by omega⟩
      refine (h a).bind (Q := fun o t => o.isSome → Within (n - 1) t) (j := fun _ _ => 0)
        (fun o => ?_) (fun s o t w hx eof le some => ?_) (fun _ _ => Nat.zero_le _) False.elim
      · cases o with
        | none => exact .pure a rfl
        | some a' =>
            have rest := ih (fun a => (h a).within (Nat.sub_le n 1)) (Nat.sub_le_of_le_add fits)
              (Nat.le_of_succ_le_succ bounds) a'
            exact rest.mono (fun _ w => w rfl) (fun _ => Nat.le_refl _) id
      · obtain ⟨a', rfl⟩ := Option.isSome_iff_exists.1 some
        exact ⟨eof ▸ w.eof, Nat.le_sub_of_add_le (Nat.le_trans le w.length)⟩

def itemStep (stop : List Terminal) (item : Parser (Option α)) (found : Array α) :
    Parser (Option (Array α)) := do
  if ← nextIs stop then return none
  match ← item with
  | some a => return some (found.push a)
  | none => return some found

theorem itemsUntil_eq (stop : List Terminal) (bound : Nat) (item : Parser (Option α)) :
    itemsUntil stop bound item = chain (itemStep stop item) bound #[] >>= fun as =>
      pure as.toList := rfl

theorem extends_itemStep (stop : List Terminal) {item item' : Parser (Option α)}
    (h : Extends c (Within n) (atLeast 1) e item item') (found : Array α) :
    Extends c (Within n) ifSome False (itemStep stop item found) (itemStep stop item' found) := by
  refine (extends_nextIs stop).bind (Q := fun _ => Within n) (j := fun _ => ifSome)
    (fun stops => ?_) (fun _ _ _ w _ => Extends.within_of_le w)
    (fun _ _ => Nat.le_add_left _ _) False.elim
  cases stops with
  | true => exact .pure none rfl
  | false =>
      refine h.bind (Q := fun _ _ => True) (j := fun _ _ => 0) (fun o => ?_)
        (fun _ _ _ _ _ _ _ => trivial) (fun _ o => ifSome_le_one o) False.elim
      cases o with
      | none => exact .pure (some found) rfl
      | some a => exact .pure (some (found.push a)) rfl

theorem extends_itemsUntil (stop : List Terminal) {item item' : Parser (Option α)}
    (h : Extends c (Within n) (atLeast 1) e item item') {b b' : Nat} (fits : n ≤ b)
    (bounds : b ≤ b') :
    Extends c (Within n) (atLeast 0) False (itemsUntil stop b item) (itemsUntil stop b' item') :=
  (extends_chain (extends_itemStep stop h) fits bounds #[]).andThen fun as => .pure as.toList rfl

/-! ### Whole programs -/

section Program

variable {item item' : Parser (Option α)} {s : ParseState}

def collect (found : Array α) (o : Option α) : Array α := o.elim found found.push

theorem append_collect (before found : Array α) (o : Option α) :
    before ++ collect found o = collect (before ++ found) o := by
  cases o <;> simp [collect]

theorem chain_itemStep_nil (item : Parser (Option α)) (eof : s.eof.terminal = .eof)
    (nothing : s.rest = []) (bound : Nat) (found : Array α) :
    chain (itemStep [.eof] item) bound found s = .ok found s := by
  have stops : nextIs [.eof] s = .ok true s := by
    rw [nextIs, bind_of_ok (x := peek) rfl, nothing, List.headD_nil, eof]
    rfl
  have step : itemStep [.eof] item found s = .ok none s := by
    rw [itemStep, bind_of_ok stops]
    rfl
  cases bound with
  | zero => rfl
  | succ bound =>
      rw [chain, bind_of_ok step]
      rfl

/-- One item is read where there is a token, and then the others. -/
theorem chain_itemStep_cons (item : Parser (Option α)) {first : Token} {rest : List Token}
    (some : s.rest = first :: rest) (proper : first.terminal ≠ .eof) (bound : Nat)
    (found : Array α) :
    chain (itemStep [.eof] item) (bound + 1) found s =
      (item >>= fun o => chain (itemStep [.eof] item) bound (collect found o)) s := by
  have goes : nextIs [.eof] s = .ok false s := by
    have other : [Terminal.eof].contains first.terminal = false := by simpa using proper
    rw [nextIs, bind_of_ok (x := peek) rfl, some, List.headD_cons, other]
    rfl
  have step : itemStep [.eof] item found s =
      (item >>= fun o => pure (Option.some (collect found o))) s := by
    rw [itemStep, bind_of_ok goes]
    refine congrFun (congrArg (item >>= ·) (funext fun o => ?_)) s
    cases o <;> rfl
  rw [chain]
  cases read : item s with
  | ok o u =>
      rw [bind_of_ok read] at step ⊢
      rw [bind_of_ok step]
  | error e u =>
      rw [bind_of_error read] at step ⊢
      rw [bind_of_error step]

/-- Items that are read up to the end without an error are read first, with more tokens behind. -/
theorem chain_itemStep_extend (h : Extends c (Within n) (atLeast 1) True item item') {b : Nat}
    (fits : s.rest.length ≤ b) (w : Within n s) (proper : ∀ t ∈ s.rest, t.terminal ≠ .eof)
    {found found' : Array α} {u : ParseState}
    (ran : chain (itemStep [.eof] item) b found s = .ok found' u)
    (clean : u.errors.size = s.errors.size) (before : Array α) {b' : Nat}
    (more : s.rest.length + c.tokens.length ≤ b') :
    u.rest = [] ∧ ∃ b'', c.tokens.length ≤ b'' ∧
      chain (itemStep [.eof] item') b' (before ++ found) (s.extend c) =
        chain (itemStep [.eof] item') b'' (before ++ found') (u.extend c) := by
  induction b generalizing s found b' with
  | zero =>
      cases ran
      refine ⟨List.eq_nil_of_length_eq_zero (Nat.le_zero.1 fits), b', ?_, rfl⟩
      exact Nat.le_of_add_left_le more
  | succ b ih =>
      cases hs : s.rest with
      | nil =>
          rw [chain_itemStep_nil item w.eof hs] at ran
          cases ran
          exact ⟨hs, b', Nat.le_of_add_left_le more, rfl⟩
      | cons first rest =>
          have first_proper : first.terminal ≠ .eof := proper first (by simp [hs])
          rw [chain_itemStep_cons item hs first_proper] at ran
          obtain ⟨o, t, first_ran, ran⟩ := bind_eq_ok_iff.1 ran
          have passed := h.passes s o t first_ran
          -- Also the items after the first one are read without an error.
          have later : Passed t u :=
            (extends_chain (extends_itemStep [.eof] (h.within (Nat.zero_le n))) (Nat.zero_le b)
              (Nat.le_refl b) _).passes t found' u ran
          have le := Extends.size_le passed
          have le' := Extends.size_le later
          have reads := h.reads s o t w first_ran (by omega)
          have yields := h.yields s o t w first_ran (by omega) (Or.inl trivial)
          rw [atLeast] at reads
          rw [hs, List.length_cons] at fits more reads
          obtain ⟨b', rfl⟩ : ∃ k, b' = k + 1 := ⟨b' - 1, by omega⟩
          have inside : Within n t := ⟨passed.eof ▸ w.eof, passed.rest.length_le.trans w.length⟩
          obtain ⟨nothing, b'', fits', same⟩ := ih (by omega) inside
            (fun t' ht => proper t' (passed.mem ht)) ran (by omega)
            (show t.rest.length + c.tokens.length ≤ b' by omega)
          refine ⟨nothing, b'', fits', ?_⟩
          have behind : (s.extend c).rest = first :: (rest ++ c.tokens) := by
            rw [ParseState.extend, hs, List.cons_append]
          rw [chain_itemStep_cons item' behind first_proper, bind_of_ok yields,
            ← append_collect]
          exact same

end Program

/-- Something is read after a token that may be there. -/
theorem extends_acceptStep (terminals : List Terminal) {f g : Option Token → Parser (Option α)}
    (h : ∀ t, Extends c (Within n) (atLeast 0) e (f (some t)) (g (some t)))
    (hf : f none = pure none) (hg : g none = pure none) :
    Extends c (Within n) ifSome False (accept? terminals >>= f) (accept? terminals >>= g) := by
  refine (extends_accept? terminals).bind (Q := fun _ => Within n)
    (j := fun o a => ifSome a - ifSome o) (fun o => ?_) (fun _ _ _ w _ => Extends.within_of_le w)
    (fun o a => by omega) False.elim
  cases o with
  | none =>
      rw [hf, hg]
      exact .pure none rfl
  | some t =>
      refine (h t).mono (fun _ => id) (fun a => ?_) False.elim
      exact Nat.sub_le_of_le_add (ifSome_le_one a)

theorem extends_limited (excess : GrammarFault) {item item' : Parser α}
    (h : Extends c (Within n) (atLeast 1) e item item') (found : Array α) :
    Extends c (Within n) (atLeast 1) False (limited excess item found)
      (limited excess item' found) := by
  have rest : Extends c (Within n) (atLeast 1) False (do return found.push (← item))
      (do return found.push (← item')) :=
    (h.map fun a => found.push a).mono (fun _ => id) (fun _ => Nat.le_refl _) False.elim
  unfold limited
  split
  · exact extends_peek.andThen fun t => (extends_note excess t).andThen fun _ => rest
  · exact rest

theorem extends_commaList (excess : GrammarFault) {item item' : Parser α}
    (h : Extends c (Within n) (atLeast 1) e item item') {b b' : Nat} (fits : n ≤ b)
    (bounds : b ≤ b') :
    Extends c (Within n) (atLeast 0) False (commaList excess b item)
      (commaList excess b' item') := by
  refine (extends_nextIs _).andThen fun empty => ?_
  cases empty with
  | true => exact .pure [] rfl
  | false =>
      refine (extends_limited excess h #[]).weak.andThen fun first => ?_
      refine (extends_chain (e := False) (fun found => ?_) fits bounds first).andThen
        fun as => .pure as.toList rfl
      exact extends_acceptStep _ (fun _ => (extends_limited excess h found).weak.andThen fun as =>
        .pure (some as) rfl) rfl rfl

/-! ### Choice by the next token -/

def Seen (n : Nat) (t : Token) (s : ParseState) : Prop := Within n s ∧ s.rest.headD s.eof = t

theorem Extends.dispatch {f g : Token → Parser α}
    (h : ∀ t, Extends c (Seen n t) (atLeast 1) e (f t) (g t)) :
    Extends c (Within n) (atLeast 1) e (peek >>= f) (peek >>= g) :=
  extends_peek.bind (Q := fun t => Seen n t) (j := fun _ => atLeast 1) h
    (fun s a t w hx _ _ => by
      cases hx
      exact ⟨w, rfl⟩)
    (fun _ _ => Nat.le_add_left _ _) fun _ => Or.inr fun _ _ => Nat.le_refl _

theorem Extends.skipThen {j : Nat} {x y : Parser α} {seen : Token} (proper : seen.terminal ≠ .eof)
    (h : Extends c (Within n) (atLeast j) e x y) :
    Extends c (Seen (n + 1) seen) (atLeast 1) e (do skip; x) (do skip; y) :=
  (extends_skip proper).bind (Q := fun _ => Within n) (j := fun _ => atLeast j) (fun _ => h)
    (fun _ _ _ w _ eof le => ⟨eof ▸ w.1.eof, Nat.le_of_succ_le_succ (Nat.le_trans le w.1.length)⟩)
    (fun _ _ => Nat.le_add_right _ _) fun _ => Or.inl trivial

theorem Extends.seen {x y : Parser α} {k : α → Nat} (h : Extends c (Within n) k e x y) (t : Token) :
    Extends c (Seen n t) k e x y :=
  h.mono (fun _ w => w.1) (fun _ => Nat.le_refl _) id

end Parser

end Lox
