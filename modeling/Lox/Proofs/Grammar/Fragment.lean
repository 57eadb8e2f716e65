import Lox.Token.Scan
import Lox.Proofs.Grammar.Joined
import Lox.Proofs.Grammar.Surrounded

/-!
# Programs that are read part by part

A program without errors can be put in front of another one, with errors or without: what is read
of the second one is what is read of it alone (`parse_append_of_clean`).  The second one may not
start with an `else`, which the first one could take for its own.

Errors do not reach from one simple statement into the next one.  A `Fragment` ends with its only
semicolon and may be anything before, except for the words that make a statement go on after a
semicolon.  The statements and errors of fragments one after the other are those of each fragment
alone (`parse_fragments`).
-/

namespace Lox

open Lox.Parser

variable {n m : Nat}

/-! ### Declarations one after the other -/

theorem Stmt.exists_declarationParser (n : Nat) (s : ParseState) :
    ∃ o t, declarationParser n s = .ok o t := by
  have attempted (rule : Parser Stmt) : ∃ o t, attempt rule s = .ok o t := by
    rw [attempt]
    cases rule s with
    | ok a t => exact ⟨_, _, rfl⟩
    | error e t => exact ⟨_, _, rfl⟩
  cases n with
  | zero => exact attempted _
  | succ n => exact attempted (declared (n + 1) (parser n) (declarationParser n))

/-- A declaration with errors is dropped, so that the whole never fails. -/
theorem exists_declarations (n bound : Nat) (found : Array Stmt) (s : ParseState) :
    ∃ found' t, declarations n bound found s = .ok found' t := by
  induction bound generalizing found s with
  | zero => exact ⟨found, s, rfl⟩
  | succ bound ih =>
      obtain ⟨stops, here⟩ : ∃ stops, nextIs [.eof] s = .ok stops s := ⟨_, rfl⟩
      obtain ⟨o, t, read⟩ := Stmt.exists_declarationParser n s
      rw [declarations, chain]
      cases stops with
      | true =>
          have step : itemStep [.eof] (Stmt.declarationParser n) found s = .ok none s := by
            rw [itemStep, bind_of_ok here]
            rfl
          rw [bind_of_ok step]
          exact ⟨found, s, rfl⟩
      | false =>
          have step : itemStep [.eof] (Stmt.declarationParser n) found s =
              .ok (some (collect found o)) t := by
            rw [itemStep, bind_of_ok here]
            refine (bind_of_ok read).trans ?_
            cases o <;> rfl
          rw [bind_of_ok step]
          exact ih (collect found o) t

section Surroundings

variable {c : Surroundings} {eof : Token} {z : Zone c eof}

/-- Items are read in their surroundings as they are read alone, and what is behind them is left. -/
theorem chain_itemStep_amid {item item' : Parser (Option α)} (h : FollowsStmt z n item item')
    {b : Nat} {s : ParseState} (fits : s.rest.length ≤ b) (w : z.After n s)
    {found found' : Array α} {t : ParseState}
    (ran : chain (itemStep [.eof] item) b found s = .ok found' t) (before : Array α) {b' : Nat}
    (more : s.rest.length + c.tokens.length ≤ b') :
    t.rest = [] ∧ ∃ b'', c.tokens.length ≤ b'' ∧
      chain (itemStep [.eof] item') b' (before ++ found) (s.amid c) =
        chain (itemStep [.eof] item') b'' (before ++ found') (t.amid c) := by
  induction b generalizing s found b' with
  | zero =>
      cases ran
      exact ⟨List.eq_nil_of_length_eq_zero (Nat.le_zero.1 fits), b', Nat.le_of_add_left_le more,
        rfl⟩
  | succ b ih =>
      cases hs : s.rest with
      | nil =>
          rw [chain_itemStep_nil item ((congrArg Token.terminal w.eof).trans z.closed) hs] at ran
          cases ran
          exact ⟨hs, b', Nat.le_of_add_left_le more, rfl⟩
      | cons first rest =>
          have here : z.inside s.rest := w.here.resolve_right (by simp [hs])
          have proper : first.terminal ≠ .eof := z.proper (hs ▸ here)
          rw [chain_itemStep_cons item hs proper] at ran
          obtain ⟨o, u, first_ran, ran⟩ := bind_eq_ok_iff.1 ran
          have follows := h s.rest.length w.length s ⟨here, w.eof, Nat.le_refl _⟩
          rw [first_ran] at follows
          obtain ⟨same, after⟩ := follows
          have length := after.length
          rw [hs, List.length_cons] at fits more length
          obtain ⟨b', rfl⟩ : ∃ k, b' = k + 1 := ⟨b' - 1, by omega⟩
          have le := w.length
          obtain ⟨nothing, b'', fits', rest_same⟩ := ih (by omega)
            (after.mono ((Nat.sub_le _ 1).trans le)) ran
            (show u.rest.length + c.tokens.length ≤ b' by omega)
          refine ⟨nothing, b'', fits', ?_⟩
          have behind : (s.amid c).rest = first :: (rest ++ c.tokens) := by
            rw [ParseState.amid, hs, List.cons_append]
          rw [chain_itemStep_cons item' behind proper, bind_of_ok same, ← append_collect]
          exact rest_same

end Surroundings

/-! ### A program behind another one -/

def Zone.alone (noted : Array GrammarError) {eof : Token} (closed : eof.terminal = .eof) :
    Zone ⟨noted, [], eof⟩ eof where
  inside rest := ∀ t ∈ rest, t.terminal ≠ .eof
  ends _ := ⟨rfl, rfl⟩
  proper h := h _ List.mem_cons_self
  reads h _ := (List.forall_mem_cons.1 h).2
  closes h _ := Or.inl (List.forall_mem_cons.1 h).2
  nests _ _ := by simp
  calm := by
    rw [List.headD_nil, closed]
    decide
  closed := closed

/-- A larger bound does not change what is read of a program, nor do the statements before it. -/
theorem declarations_bound (found : Array Stmt) {N b : Nat} {found' : Array Stmt}
    {s t : ParseState}
    (closed : s.eof.terminal = .eof) (proper : ∀ t ∈ s.rest, t.terminal ≠ .eof)
    (ran : declarations s.rest.length s.rest.length #[] s = .ok found' t)
    (le : s.rest.length ≤ N) (fits : s.rest.length ≤ b) :
    ∃ t', declarations N b found s = .ok (found ++ found') t' ∧ t'.errors = t.errors ∧
      t'.nextSite = t.nextSite := by
  let z := Zone.alone #[] closed
  have alone : s.amid ⟨#[], [], s.eof⟩ = s := by
    rw [ParseState.amid, List.append_nil, Array.empty_append]
  obtain ⟨nothing, b', -, same⟩ := chain_itemStep_amid (z := z)
    (Stmt.follows_statements le).2 (Nat.le_refl _) ⟨Or.inl proper, rfl, Nat.le_refl _⟩ ran found
    (Nat.add_zero s.rest.length ▸ fits)
  rw [Array.append_empty, alone] at same
  refine ⟨t.amid ⟨#[], [], s.eof⟩, same.trans ?_, Array.empty_append, rfl⟩
  refine chain_itemStep_nil (s := t.amid ⟨#[], [], s.eof⟩) _ closed ?_ b' _
  rw [ParseState.amid, nothing, List.append_nil]

/-- Nothing that is read first belongs to a statement before. -/
theorem ParseState.calm_start {tokens : List Token}
    (calm : ∀ t ∈ tokens.head?, t.terminal ≠ .keyword .else) (firstSite : Site) :
    ((ParseState.start tokens firstSite).rest.headD (eofOf tokens)).terminal ≠ .keyword .else := by
  rw [ParseState.start]
  cases tokens with
  | nil =>
      rw [List.takeWhile_nil, List.headD_nil, eofOf_terminal]
      decide
  | cons t ts =>
      by_cases eof : t.terminal = .eof
      · rw [List.takeWhile_cons_of_neg (by simpa using eof), List.headD_nil, eofOf_terminal]
        decide
      · rw [List.takeWhile_cons_of_pos (by simpa using eof), List.headD_cons]
        exact calm t rfl

/-- A program behind another one, which has no errors, is read as if it were alone.  It may not
start with an `else`. -/
theorem parse_append_of_clean {first second : List Token} {firstSite : Site}
    (proper : ∀ t ∈ first, t.terminal ≠ .eof) (clean : (parse first firstSite).errors = [])
    (calm : ∀ t ∈ second.head?, t.terminal ≠ .keyword .else) :
    parse (first ++ second) firstSite =
      ⟨(parse first firstSite).statements ++
          (parse second (parse first firstSite).nextSite).statements,
        (parse second (parse first firstSite).nextSite).errors,
        (parse second (parse first firstSite).nextSite).nextSite⟩ := by
  have start := ParseState.start_of_proper proper firstSite
  obtain ⟨found, t, ran, errors, parsed⟩ :=
    declarations_of_parse (n := first.length) (by rw [start]) clean
  rw [parsed]
  dsimp only
  by_cases some : second = []
  · have nil : parse [] t.nextSite = ⟨[], [], t.nextSite⟩ := rfl
    rw [some, List.append_nil, parsed, nil, List.append_nil]
  let c : Continuation := ⟨(ParseState.start second t.nextSite).rest, eofOf second⟩
  have next : (c.tokens.headD c.eof).terminal ≠ .keyword .else :=
    ParseState.calm_start calm t.nextSite
  have whole : ParseState.start (first ++ second) firstSite =
      (ParseState.start first firstSite).extend c := by
    rw [ParseState.start_append proper some, start]
    rfl
  have within : Within first.length (ParseState.start first firstSite) := by
    rw [start]
    exact ⟨eofOf_terminal first, Nat.le_refl _⟩
  obtain ⟨nothing, b, enough, same⟩ := chain_itemStep_extend
    (Stmt.extends_statements next (Nat.le_add_right first.length c.tokens.length)).2
    within.length within (fun _ => ParseState.proper_start) ran (by rw [errors]; rfl) #[]
    (Nat.add_le_add_right within.length _)
  have between : t.extend c = ParseState.start second t.nextSite := by
    rw [ParseState.extend, nothing, errors, List.nil_append]
    rfl
  rw [between, Array.empty_append, Array.empty_append, ← whole] at same
  obtain ⟨found', t', ran'⟩ :=
    exists_declarations c.tokens.length c.tokens.length #[] (.start second t.nextSite)
  obtain ⟨u, all, errors', nextSite'⟩ := declarations_bound found
    (eofOf_terminal second) (fun _ => ParseState.proper_start) ran'
    (Nat.le_add_left _ first.length) enough
  have length : (ParseState.start (first ++ second) firstSite).rest.length =
      first.length + c.tokens.length := by
    rw [whole, start]
    exact List.length_append
  rw [parse_of_declarations length (same.trans all), parse_of_declarations rfl ran', errors',
    nextSite', Array.toList_append]

/-- An error in the second program, which drops a declaration before an `else`. -/
theorem parse_append_of_clean_dropped :
    let first := (tokensOf (scan "if (a) b = 1;")).dropLast
    let second := tokensOf (scan "var = 2; else c; d(e) = 3; f;")
    let next := (parse first 0).nextSite
    (∀ t ∈ first, t.terminal ≠ .eof) ∧ (parse first 0).errors = [] ∧
      (∀ t ∈ second.head?, t.terminal ≠ .keyword .else) ∧
      (parse second next).errors.length = 3 ∧
      parse (first ++ second) 0 =
        ⟨(parse first 0).statements ++ (parse second next).statements, (parse second next).errors,
          (parse second next).nextSite⟩ := by
  intro first second next
  have proper : ∀ t ∈ first, t.terminal ≠ .eof := by decide +kernel
  have clean : (parse first 0).errors = [] := by decide +kernel
  have calm : ∀ t ∈ second.head?, t.terminal ≠ .keyword .else := by decide +kernel
  have faulty : (parse second next).errors.length = 3 := by decide +kernel
  exact ⟨proper, clean, calm, faulty, parse_append_of_clean proper clean calm⟩

/-! ### Fragments -/

/-- The tokens that a fragment has only at its end, or not at all. -/
def reserved : List Terminal :=
  [.symbol .semicolon, .keyword .for, .symbol .leftBrace, .keyword .else, .eof]

/-- The tokens end with their only semicolon, and none of them lets a statement go on after it. -/
def IsFragment (tokens : List Token) : Prop :=
  ∃ body semicolon, tokens = body ++ [semicolon] ∧ semicolon.terminal = .symbol .semicolon ∧
    ∀ t ∈ body, t.terminal ∉ reserved

namespace IsFragment

variable {t : Token} {rest : List Token}

/-- The first token is the last one, or a fragment follows it. -/
theorem first (h : IsFragment (t :: rest)) :
    (t.terminal = .symbol .semicolon ∧ rest = []) ∨
      (t.terminal ∉ reserved ∧ IsFragment rest) := by
  obtain ⟨body, semicolon, same, last, others⟩ := h
  cases body with
  | nil =>
      obtain ⟨rfl, rfl⟩ := List.cons.inj same
      exact Or.inl ⟨last, rfl⟩
  | cons t' body =>
      obtain ⟨rfl, rfl⟩ := List.cons.inj same
      rw [List.forall_mem_cons] at others
      exact Or.inr ⟨others.1, body, semicolon, rfl, last, others.2⟩

theorem ne_nil {tokens : List Token} (h : IsFragment tokens) : tokens ≠ [] := by
  obtain ⟨body, semicolon, rfl, -, -⟩ := h
  simp

/-- No token of a fragment ends a program or belongs to a statement before. -/
theorem apart {tokens : List Token} (h : IsFragment tokens) (ht : t ∈ tokens) :
    t.terminal ≠ .eof ∧ t.terminal ≠ .keyword .else := by
  obtain ⟨body, semicolon, rfl, last, others⟩ := h
  rcases List.mem_append.1 ht with ht | ht
  · have other := others t ht
    simp only [reserved, List.mem_cons, not_or] at other
    exact ⟨other.2.2.2.2.1, other.2.2.2.1⟩
  · rw [List.mem_singleton.1 ht, last]
    decide

end IsFragment

theorem isFragment_iff {tokens : List Token} :
    IsFragment tokens ↔ tokens.getLast?.map Token.terminal = some (.symbol .semicolon) ∧
      ∀ t ∈ tokens.dropLast, t.terminal ∉ reserved := by
  constructor
  · rintro ⟨body, semicolon, rfl, last, others⟩
    rw [List.getLast?_concat, List.dropLast_concat]
    exact ⟨congrArg some last, others⟩
  · rintro ⟨last, others⟩
    obtain ⟨semicolon, found, terminal⟩ := Option.map_eq_some_iff.1 last
    obtain ⟨body, rfl⟩ := List.getLast?_eq_some_iff.1 found
    rw [List.dropLast_concat] at others
    exact ⟨body, semicolon, rfl, terminal, others⟩

instance : DecidablePred IsFragment := fun _ => decidable_of_iff _ isFragment_iff.symm

def Zone.fragment (c : Surroundings) (calm : (c.tokens.headD c.eof).terminal ≠ .keyword .else)
    {eof : Token} (closed : eof.terminal = .eof) : Zone c eof where
  inside := IsFragment
  ends h := absurd rfl h.ne_nil
  proper h := (h.apart List.mem_cons_self).1
  reads h other := (h.first.resolve_left fun last => other last.1).2
  closes h semicolon := by
    refine Or.inr (h.first.resolve_right fun more => more.1 ?_).2
    rw [semicolon]
    decide
  nests h outer := by
    rcases h.first with ⟨last, -⟩ | ⟨other, -⟩
    · rw [last] at outer
      exact absurd outer (by decide)
    · refine absurd ?_ other
      rcases outer with outer | outer <;> rw [outer] <;> decide
  calm := calm
  closed := closed

/-- Reads the parts of a program one after the other, each as if it were alone. -/
def parseEach : List (List Token) → Site → Parsed
  | [], firstSite => ⟨[], [], firstSite⟩
  | part :: parts, firstSite =>
    let first := parse part firstSite
    let others := parseEach parts first.nextSite
    ⟨first.statements ++ others.statements, first.errors ++ others.errors, others.nextSite⟩

theorem calm_flatten {parts : List (List Token)} (fragments : ∀ part ∈ parts, IsFragment part)
    {eof : Token} (closed : eof.terminal = .eof) :
    (parts.flatten.headD eof).terminal ≠ .keyword .else := by
  cases parts with
  | nil =>
      rw [List.flatten_nil, List.headD_nil, closed]
      decide
  | cons part parts =>
      have fragment := fragments part List.mem_cons_self
      obtain ⟨t, ts, rfl⟩ := List.exists_cons_of_ne_nil fragment.ne_nil
      exact (fragment.apart List.mem_cons_self).2

/-- The fragment at the front is read as if it were alone. -/
theorem declarations_fragment {part behind : List Token} (fragment : IsFragment part)
    {s : ParseState} (rest : s.rest = part ++ behind)
    (calm : (behind.headD s.eof).terminal ≠ .keyword .else) {N b : Nat} (le : part.length ≤ N)
    (fits : part.length + behind.length ≤ b) (found : Array Stmt) :
    ∃ b', behind.length ≤ b' ∧ declarations N b found s =
      declarations N b' (found ++ (parse part s.nextSite).statements.toArray)
        ⟨behind, s.eof, (parse part s.nextSite).nextSite,
          s.errors ++ (parse part s.nextSite).errors.toArray⟩ := by
  have start := ParseState.start_of_proper (fun t ht => (fragment.apart ht).1) s.nextSite
  obtain ⟨first, t, ran⟩ := exists_declarations part.length part.length #[] (.start part s.nextSite)
  rw [parse_of_declarations (by rw [start]) ran]
  rw [start] at ran
  let c : Surroundings := ⟨s.errors, behind, s.eof⟩
  let alone : ParseState := ⟨part, eofOf part, s.nextSite, #[]⟩
  let z : Zone c alone.eof := .fragment c calm (eofOf_terminal part)
  obtain ⟨nothing, b', enough, same⟩ := chain_itemStep_amid (z := z) (s := alone)
    (Stmt.follows_statements le).2 (Nat.le_refl _) ⟨Or.inl fragment, rfl, Nat.le_refl _⟩ ran found
    fits
  have whole : alone.amid c = s := by
    rw [ParseState.amid, ← rest, Array.append_empty]
  rw [whole, Array.append_empty, ParseState.amid, nothing, List.nil_append] at same
  exact ⟨b', enough, same⟩

/-- The fragments that a state still has are read one by one. -/
theorem declarations_fragments {parts : List (List Token)}
    (fragments : ∀ part ∈ parts, IsFragment part) {s : ParseState} (rest : s.rest = parts.flatten)
    (closed : s.eof.terminal = .eof) {N b : Nat} (le : s.rest.length ≤ N)
    (fits : s.rest.length ≤ b) (found : Array Stmt) :
    ∃ t, declarations N b found s =
        .ok (found ++ (parseEach parts s.nextSite).statements.toArray) t ∧
      t.errors = s.errors ++ (parseEach parts s.nextSite).errors.toArray ∧
      t.nextSite = (parseEach parts s.nextSite).nextSite := by
  induction parts generalizing s b found with
  | nil =>
      refine ⟨s, ?_, Array.append_empty.symm, rfl⟩
      rw [declarations, chain_itemStep_nil _ closed rest, parseEach, Array.append_empty]
  | cons part parts ih =>
      obtain ⟨fragment, others⟩ := List.forall_mem_cons.1 fragments
      rw [List.flatten_cons] at rest
      have length := congrArg List.length rest
      rw [List.length_append] at length
      obtain ⟨b', enough, first⟩ := declarations_fragment fragment rest
        (calm_flatten others closed) (show part.length ≤ N by omega) (length ▸ fits) found
      obtain ⟨t, all, errors, nextSite⟩ := ih others
        (s := ⟨parts.flatten, s.eof, (parse part s.nextSite).nextSite,
          s.errors ++ (parse part s.nextSite).errors.toArray⟩) rfl closed
        (show parts.flatten.length ≤ N by omega) enough
        (found ++ (parse part s.nextSite).statements.toArray)
      refine ⟨t, first.trans (all.trans ?_), ?_, nextSite⟩
      · rw [parseEach, ← List.append_toArray, Array.append_assoc]
      · rw [errors, parseEach, ← List.append_toArray, Array.append_assoc]

/-- Fragments are read one by one, each as if it were alone, whatever errors are in them. -/
theorem parse_fragments {parts : List (List Token)} (fragments : ∀ part ∈ parts, IsFragment part)
    (firstSite : Site) : parse parts.flatten firstSite = parseEach parts firstSite := by
  have proper : ∀ t ∈ parts.flatten, t.terminal ≠ .eof := by
    intro t ht
    obtain ⟨part, hp, ht⟩ := List.mem_flatten.1 ht
    exact ((fragments part hp).apart ht).1
  have start := ParseState.start_of_proper proper firstSite
  obtain ⟨t, ran, errors, nextSite⟩ := declarations_fragments fragments
    (s := .start parts.flatten firstSite) (by rw [start]) (eofOf_terminal _) (Nat.le_refl _)
    (Nat.le_refl _) #[]
  rw [parse_of_declarations rfl ran, errors, nextSite, start]
  simp

/-- An error at a semicolon, one in front of a word that starts a statement, and one that is only
noted. -/
theorem parse_fragments_faulty :
    let parts := ["print (1;", "a b var c = 2;", "d + e = 3;", "f;"].map fun source =>
      (tokensOf (scan source)).dropLast
    (∀ part ∈ parts, IsFragment part) ∧ (parseEach parts 0).errors.length = 3 ∧
      (parseEach parts 0).statements.length = 3 ∧
      parse parts.flatten 0 = parseEach parts 0 := by
  intro parts
  have fragments : ∀ part ∈ parts, IsFragment part := by decide +kernel
  have errors : (parseEach parts 0).errors.length = 3 := by decide +kernel
  have statements : (parseEach parts 0).statements.length = 3 := by decide +kernel
  exact ⟨fragments, errors, statements, parse_fragments fragments 0⟩

end Lox
