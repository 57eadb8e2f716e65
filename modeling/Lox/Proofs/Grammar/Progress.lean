import Mathlib.Order.Bounds.Basic
import Lox.Proofs.Grammar.Fragment
import Lox.Proofs.Grammar.Outcome

/-!
# Where the parser stands

The `buffer` of a list of tokens is the list with an end-of-file token after it, unless it ends with
one.  A state is *at* an index of the buffer if the token there comes next and what is left are the
tokens from there up to the first end-of-file token.  Rules move forward only, and a declaration
that is read takes a token at least.

A declaration that fails does so at some index, and reading resumes at the next *boundary*: at the
end, after a semicolon, or before a word that starts a statement (`resumesAt_recover`).  So every
attempt at a declaration makes progress, in a block as well as outside (`attempts_progress`).
-/

namespace Lox

open Lox.Parser

/-- The tokens with an end-of-file token after them, unless they end with one. -/
def buffer (tokens : List Token) : List Token :=
  match tokens.getLast? with
  | none => [⟨.eof, "", 1⟩]
  | some last => if last.terminal = .eof then tokens else tokens ++ [⟨.eof, "", last.line⟩]

def firstEof (tokens : List Token) : Nat := (buffer tokens).findIdx (·.terminal = .eof)

/-- The token at the index of the buffer comes next, and what is left are the tokens from there up
to the first end-of-file token. -/
structure ParseState.At (s : ParseState) (tokens : List Token) (i : Nat) : Prop where
  ahead : ∃ behind, (buffer tokens).drop i = s.rest ++ s.eof :: behind
  proper : ∀ t ∈ s.rest, t.terminal ≠ .eof
  closed : s.eof.terminal = .eof

/-- Reading may resume at the index: it is that of the end, of a word that starts a statement, or
that after a semicolon. -/
def IsBoundary (tokens : List Token) (j : Nat) : Prop :=
  (∃ t, (buffer tokens)[j]? = some t ∧ (t.terminal = .eof ∨ t.terminal ∈ Stmt.starters)) ∨
    ∃ t, (buffer tokens)[j - 1]? = some t ∧ t.terminal = .symbol .semicolon

/-- After an error at the index `k` reading resumes at `j`, the first boundary after it.  It stays
at the end. -/
def ResumesAt (tokens : List Token) (k j : Nat) : Prop :=
  if ∃ t, (buffer tokens)[k]? = some t ∧ t.terminal = .eof then j = k
  else IsLeast {j | k < j ∧ IsBoundary tokens j} j

/-- The state that a rule leaves behind, whether it fails or not. -/
def Parser.leaves (x : Parser α) (s : ParseState) : ParseState :=
  match x s with
  | .ok _ t => t
  | .error _ t => t

/-- From any index of the buffer the rule moves to one that is not smaller. -/
def Parser.Stays (tokens : List Token) (x : Parser α) : Prop :=
  ∀ i s, s.At tokens i → ∃ j ≥ i, (x.leaves s).At tokens j

/-! ### Indices -/

theorem exists_buffer_eq_append (tokens : List Token) :
    ∃ behind, buffer tokens = tokens ++ behind := by
  rw [buffer]
  split
  · rename_i none
    rw [List.getLast?_eq_none_iff.1 none]
    exact ⟨_, rfl⟩
  · split
    · exact ⟨[], (List.append_nil _).symm⟩
    · exact ⟨_, rfl⟩

/-- Without an end-of-file token among the tokens there is one after them. -/
theorem buffer_of_proper {tokens : List Token} (proper : ∀ t ∈ tokens, t.terminal ≠ .eof) :
    buffer tokens = tokens ++ [eofOf tokens] := by
  have none : tokens.find? (·.terminal = .eof) = none := by simpa using proper
  rw [buffer, eofOf, none]
  cases last : tokens.getLast? with
  | none => rw [List.getLast?_eq_none_iff.1 last]; rfl
  | some t => exact if_neg (proper t (List.mem_of_getLast? last))

/-- The tokens before the first end-of-file token stand at the front of the buffer. -/
theorem exists_buffer_eq (tokens : List Token) :
    ∃ behind, buffer tokens =
      tokens.takeWhile (·.terminal ≠ .eof) ++ eofOf tokens :: behind := by
  have split := List.takeWhile_append_dropWhile (p := (·.terminal ≠ .eof)) (l := tokens)
  have proper : ∀ t ∈ tokens.takeWhile (·.terminal ≠ .eof), t.terminal ≠ .eof :=
    fun t ht => by simpa using List.mem_takeWhile_imp ht
  have stops := List.head?_dropWhile_not (fun t : Token => decide (t.terminal ≠ .eof)) tokens
  cases rest : tokens.dropWhile (·.terminal ≠ .eof) with
  | nil =>
      rw [rest, List.append_nil] at split
      rw [split] at proper ⊢
      exact ⟨[], buffer_of_proper proper⟩
  | cons t behind =>
      rw [rest] at split stops
      have first : eofOf tokens = t := by
        rw [← split, eofOf_append proper (by simp), eofOf,
          List.find?_cons_of_pos (by simpa using stops)]
      obtain ⟨behind', whole⟩ := exists_buffer_eq_append tokens
      refine ⟨behind ++ behind', ?_⟩
      rw [whole, first, ← List.cons_append, ← List.append_assoc, split]

namespace ParseState

variable {tokens : List Token} {i : Nat} {s t : ParseState}

theorem at_start (tokens : List Token) (firstSite : Site) : (start tokens firstSite).At tokens 0 :=
  ⟨exists_buffer_eq tokens, fun _ => proper_start, eofOf_terminal tokens⟩

namespace At

/-- The next token is the one at the index, which is one of the buffer. -/
theorem getElem?_buffer (h : s.At tokens i) :
    (buffer tokens)[i]? = some (s.rest.headD s.eof) := by
  obtain ⟨behind, ahead⟩ := h.ahead
  have head := congrArg List.head? ahead
  rw [List.head?_drop] at head
  rw [head]
  cases s.rest <;> rfl

/-- Nothing is left only at the end. -/
theorem rest_eq_nil_iff (h : s.At tokens i) :
    s.rest = [] ↔ ∃ t, (buffer tokens)[i]? = some t ∧ t.terminal = .eof := by
  rw [h.getElem?_buffer]
  cases hs : s.rest with
  | nil => simpa using h.closed
  | cons t rest => simpa using h.proper t (hs ▸ List.mem_cons_self)

/-- Reading moves on by as many tokens as are read. -/
theorem pass (h : s.At tokens i) (passed : Passed s t) :
    t.At tokens (i + (s.rest.length - t.rest.length)) := by
  obtain ⟨behind, ahead⟩ := h.ahead
  obtain ⟨read, split⟩ := passed.rest
  refine ⟨⟨behind, ?_⟩, fun u hu => h.proper u (passed.mem hu), passed.eof ▸ h.closed⟩
  have length : s.rest.length - t.rest.length = read.length := by
    rw [← split, List.length_append, Nat.add_sub_cancel]
  rw [length, ← List.drop_drop, ahead, ← split, List.append_assoc, List.drop_left, passed.eof]

/-- From the start the end is reached at the first end-of-file token. -/
theorem firstEof_eq (h : s.At tokens 0) : firstEof tokens = s.rest.length := by
  obtain ⟨behind, ahead⟩ := h.ahead
  have before : s.rest.findIdx (·.terminal = .eof) = s.rest.length :=
    List.findIdx_eq_length.2 fun t ht => by simpa using h.proper t ht
  rw [List.drop_zero] at ahead
  rw [firstEof, ahead, List.findIdx_append, before, if_neg (Nat.lt_irrefl _), List.findIdx_cons]
  simp [h.closed]

/-- An index is that of a boundary for the token there, or for the one before it. -/
theorem isBoundary_iff (h : s.At tokens i) :
    IsBoundary tokens i ↔
      (s.rest.headD s.eof).terminal = .eof ∨ (s.rest.headD s.eof).terminal ∈ Stmt.starters ∨
        ∃ t, (buffer tokens)[i - 1]? = some t ∧ t.terminal = .symbol .semicolon := by
  rw [IsBoundary, h.getElem?_buffer, or_assoc.symm]
  simp

/-- Reading one token. -/
theorem tail {first : Token} {rest : List Token} (h : s.At tokens i)
    (next : s.rest = first :: rest) :
    { s with rest }.At tokens (i + 1) := by
  have read : Passed s { s with rest } := .read (next ▸ List.suffix_cons first rest)
  have moved := h.pass read
  have one : s.rest.length - rest.length = 1 := by simp [next]
  rwa [one] at moved

/-- The next index is the first boundary, if it is one. -/
theorem isLeast_succ (boundary : IsBoundary tokens (i + 1)) :
    IsLeast {j | i < j ∧ IsBoundary tokens j} (i + 1) :=
  ⟨⟨Nat.lt_succ_self i, boundary⟩, fun _ hj => hj.1⟩

/-- If the next index is no boundary, the first one comes after it. -/
theorem isLeast_later (other : ¬IsBoundary tokens (i + 1)) {k : Nat}
    (least : IsLeast {j | i + 1 < j ∧ IsBoundary tokens j} k) :
    IsLeast {j | i < j ∧ IsBoundary tokens j} k := by
  refine ⟨⟨Nat.lt_of_succ_lt least.1.1, least.1.2⟩, fun j hj => least.2 ⟨?_, hj.2⟩⟩
  refine Nat.lt_of_le_of_ne hj.1 ?_
  rintro rfl
  exact other hj.2

/-- After a token reading resumes at the first boundary. -/
theorem isLeast_recover {first : Token} {rest : List Token} (h : s.At tokens i)
    (next : s.rest = first :: rest) :
    IsLeast {j | i < j ∧ IsBoundary tokens j}
      (i + (s.rest.length - (Stmt.recover s.rest).length)) := by
  induction rest generalizing s i first with
  | nil =>
      have ended : Stmt.recover s.rest = [] := by simp [next, Stmt.recover]
      rw [ended, next]
      exact isLeast_succ ((h.tail next).isBoundary_iff.2 (.inl h.closed))
  | cons second rest ih =>
      have later := h.tail next
      have before : (buffer tokens)[i]? = some first := by
        rw [h.getElem?_buffer, next]
        rfl
      have proper : second.terminal ≠ .eof := later.proper second List.mem_cons_self
      have here : IsBoundary tokens (i + 1) ↔
          first.terminal = .symbol .semicolon ∨ second.terminal ∈ Stmt.starters := by
        rw [later.isBoundary_iff, Nat.add_sub_cancel, before]
        simp [proper, or_comm]
      by_cases boundary : IsBoundary tokens (i + 1)
      · have ended : Stmt.recover s.rest = second :: rest := by
          rw [next, Stmt.recover, if_pos (by simpa using here.1 boundary)]
        rw [ended, next]
        simpa using isLeast_succ boundary
      · have goes : Stmt.recover s.rest = Stmt.recover (second :: rest) := by
          rw [next, Stmt.recover, if_neg (by simpa using mt here.2 boundary)]
        have least := isLeast_later boundary (ih later rfl)
        have le := (Stmt.recover_suffix (second :: rest)).length_le
        rw [goes, next]
        convert least using 1
        simp only [List.length_cons] at le ⊢
        omega

/-- Where reading resumes after an error. -/
theorem resumesAt (h : s.At tokens i) :
    ResumesAt tokens i (i + (s.rest.length - (Stmt.recover s.rest).length)) := by
  rw [ResumesAt]
  split
  · rename_i ended
    rw [h.rest_eq_nil_iff.2 ended]
    rfl
  · rename_i goes
    obtain ⟨first, rest, next⟩ := List.exists_cons_of_ne_nil (mt h.rest_eq_nil_iff.1 goes)
    exact h.isLeast_recover next

end At

end ParseState

/-! ### Statements take tokens -/

namespace Parser

variable {α β : Type} {s : ParseState} {x : Parser α}

/-- From the state on, the rule reads a token unless it fails. -/
def Shortens (x : Parser α) (s : ParseState) : Prop :=
  ∀ a t, x s = .ok a t → t.rest.length < s.rest.length

namespace Shortens

theorem fail (fault : GrammarFault) : Shortens (fail fault : Parser α) s := by
  intro a t ran
  cases ran

/-- A rule that looks at the next token. -/
theorem peek {f : Token → Parser α} (h : Shortens (f (s.rest.headD s.eof)) s) :
    Shortens (peek >>= f) s := h

theorem map (f : α → β) (h : Shortens x s) : Shortens (f <$> x) s := by
  intro b t ran
  rw [← bind_pure_comp] at ran
  obtain ⟨a, u, read, ran⟩ := bind_eq_ok_iff.1 ran
  cases ran
  exact h a _ read

/-- What comes after a token that is skipped leaves fewer tokens. -/
theorem skip {Q : α → ParseState → Prop} (closed : s.eof.terminal = .eof)
    (reads : Reads (Built s []) x Q) (proper : (s.rest.headD s.eof).terminal ≠ .eof) :
    Shortens (do skip; x) s := by
  intro a t ran
  change x { s with rest := s.rest.tail } = .ok a t at ran
  have all := reads { s with rest := s.rest.tail }
    ((Built.nil closed).pass (.read (List.tail_suffix _)))
  rw [ran] at all
  have le := all.1.rest.length_le
  cases next : s.rest with
  | nil =>
      rw [next, List.headD_nil] at proper
      exact absurd closed proper
  | cons first rest =>
      rw [next, List.tail_cons] at le
      exact Nat.lt_succ_of_le le

/-- What ends with a semicolon reads it. -/
theorem terminated (closed : s.eof.terminal = .eof) {bound : Nat} (fault : GrammarFault) :
    Shortens (Stmt.terminated (Expr.parser bound) fault) s := by
  intro e t ran
  obtain ⟨value, u, read, ran⟩ := bind_eq_ok_iff.1 ran
  obtain ⟨semicolon, v, expected, ran⟩ := bind_eq_ok_iff.1 ran
  cases ran
  obtain ⟨rest, next, -, rfl⟩ := ok_of_expect expected
  have all := Expr.reads_expression bound [] s (.nil closed)
  rw [read] at all
  have le := all.1.rest.length_le
  rw [next, List.length_cons] at le
  exact le

end Shortens

end Parser

namespace Stmt

variable {s : ParseState}

theorem shortens_simple (n bound : Nat) (closed : s.eof.terminal = .eof) :
    Shortens (simple bound (parser n) (declarationParser n)) s := by
  obtain ⟨hs, hd⟩ : ReadsStmt s (parser n) ∧ ReadsDecl s (declarationParser n) :=
    reads_statements n
  have he : ReadsExpr s (Expr.parser bound) := Expr.reads_expression bound
  have proper {terminal : Terminal} (here : (s.rest.headD s.eof).terminal = terminal)
      (ne : terminal ≠ .eof) : (s.rest.headD s.eof).terminal ≠ .eof := by rwa [here]
  refine .peek ?_
  split
  case _ here => exact .skip closed (reads_forStatement he hs []) (proper here nofun)
  case _ here => exact .skip closed (reads_ifStatement he hs []) (proper here nofun)
  case _ here => exact .skip closed (reads_whileStatement he hs []) (proper here nofun)
  case _ here =>
    have next := proper here nofun
    refine .skip closed (reads_returnStatement he ?_) next
    cases rest : s.rest with
    | nil =>
        rw [rest, List.headD_nil] at next
        exact absurd closed next
    | cons first rest => exact List.mem_cons_self
  case _ here =>
    refine .skip closed (Q := fun _ _ => True) ?_ (proper here nofun)
    exact (reads_terminated he _ []).map Stmt.print fun _ _ _ => trivial
  case _ here =>
    refine .skip closed (Q := fun _ _ => True) ?_ (proper here nofun)
    exact (reads_blockBody bound hd).map Stmt.block fun _ _ _ => trivial
  case _ => exact (Shortens.terminated closed _).map Stmt.expression

theorem shortens_declared (n bound : Nat) (closed : s.eof.terminal = .eof) :
    Shortens (declared bound (parser n) (declarationParser n)) s := by
  obtain ⟨hs, hd⟩ : ReadsStmt s (parser n) ∧ ReadsDecl s (declarationParser n) :=
    reads_statements n
  have proper {terminal : Terminal} (here : (s.rest.headD s.eof).terminal = terminal)
      (ne : terminal ≠ .eof) : (s.rest.headD s.eof).terminal ≠ .eof := by rwa [here]
  refine .peek ?_
  split
  case _ here => exact .skip closed (reads_classDecl bound hd) (proper here nofun)
  case _ here =>
    refine .skip closed (Q := fun _ _ => True) ?_ (proper here nofun)
    exact (reads_functionDecl bound hd .function).map Stmt.function
      fun _ _ _ => trivial
  case _ here =>
    exact .skip closed (reads_varDecl (Expr.reads_expression bound))
      (proper here nofun)
  case _ => exact shortens_simple n bound closed

end Stmt

/-! ### Attempts -/

/-- The rule that is tried when a declaration is attempted on at most `bound` tokens. -/
def Stmt.attempted : (bound : Nat) → Parser Stmt
  | 0 => fail .noExpression
  | bound + 1 => declared (bound + 1) (parser bound) (declarationParser bound)

theorem Stmt.declarationParser_eq (bound : Nat) :
    declarationParser bound = attempt (attempted bound) := by
  cases bound <;> rfl

/-- A declaration has failed with an error at the index `k` of the buffer, in the state `t`, and is
dropped: in the state `u` the error is recorded and reading resumes where it may. -/
structure Resumed (tokens : List Token) (k : Nat) (e : GrammarError) (t u : ParseState) :
    Prop where
  offending : t.At tokens k
  culprit : (buffer tokens)[k]? = some e.culprit
  resumes : ∃ j, ResumesAt tokens k j ∧ u.At tokens j
  recorded : u.errors = t.errors.push e
  nextSite : u.nextSite = t.nextSite

/-- After an error reading resumes past the token at which it shows, unless that is the end. -/
theorem ResumesAt.lt_or {tokens : List Token} {k j : Nat} (h : ResumesAt tokens k j) :
    k < j ∨ j = k ∧ ∃ t, (buffer tokens)[k]? = some t ∧ t.terminal = .eof := by
  rw [ResumesAt] at h
  split at h
  · exact .inr ⟨h, ‹_›⟩
  · exact .inl h.1.1

/-- What only reads stays in the buffer. -/
theorem Parser.stays_of_reads (tokens : List Token) {x : Parser α}
    {Q : ParseState → α → ParseState → Prop} (reads : ∀ s, Reads (Built s []) x (Q s)) :
    Stays tokens x := by
  intro i s here
  have all := reads s s (.nil here.closed)
  rw [Parser.leaves]
  cases ran : x s with
  | ok a t =>
      rw [ran] at all
      exact ⟨_, Nat.le_add_right _ _, here.pass all.1⟩
  | error e t =>
      rw [ran] at all
      exact ⟨_, Nat.le_add_right _ _, here.pass all⟩

namespace ParseState.At

variable {tokens : List Token} {i : Nat} {s : ParseState}

theorem built (h : s.At tokens i) : Built s [] s := .nil h.closed

theorem reads_attempted (s : ParseState) (bound : Nat) :
    Reads (Built s []) (Stmt.attempted bound) fun _ _ => True := by
  cases bound with
  | zero => exact reads_fail _
  | succ bound =>
      obtain ⟨hs, hd⟩ :
          ReadsStmt s (Stmt.parser bound) ∧ ReadsDecl s (Stmt.declarationParser bound) :=
        Stmt.reads_statements bound
      exact (Stmt.reads_declared (bound + 1) hs hd).imp fun _ _ _ => trivial

/-- What an attempt at a declaration comes to. -/
theorem attempt (h : s.At tokens i) (bound : Nat) :
    match Stmt.attempted bound s with
    | .ok st t => Stmt.declarationParser bound s = .ok (some st) t ∧ ∃ j > i, t.At tokens j
    | .error e t => ∃ u, Stmt.declarationParser bound s = .ok none u ∧
        s.errors.toList <+: t.errors.toList ∧ ∃ k ≥ i, Resumed tokens k e t u := by
  have passed := reads_attempted s bound s h.built
  have shows : ComesTo (Stmt.attempted bound) Stmt.Regular := by
    cases bound with
    | zero => exact .fail _
    | succ bound =>
        obtain ⟨hs, hd⟩ := Stmt.comesTo_statements bound
        exact Stmt.comesTo_declared (bound + 1) hs hd
  have culprit := shows s
  have shortens : Shortens (Stmt.attempted bound) s := by
    cases bound with
    | zero => exact .fail _
    | succ bound => exact Stmt.shortens_declared bound (bound + 1) h.closed
  rw [Stmt.declarationParser_eq]
  cases ran : Stmt.attempted bound s with
  | ok st t =>
      rw [ran] at passed
      have fewer := shortens st t ran
      exact ⟨Stmt.attempt_of_ok ran, _, Nat.lt_add_of_pos_right (Nat.sub_pos_of_lt fewer),
        h.pass passed.1⟩
  | error e t =>
      rw [ran] at passed culprit
      have there := h.pass passed
      refine ⟨_, Stmt.attempt_of_error ran, passed.errors, _, Nat.le_add_right _ _, there, ?_,
        ⟨_, there.resumesAt, ?_⟩, rfl, rfl⟩
      · rw [there.getElem?_buffer, culprit]
      · exact there.pass ((Passed.read (Stmt.recover_suffix t.rest)).trans (.note _ e))

/-- Where a token is left, an attempt takes one. -/
theorem exists_lt_attempt (h : s.At tokens i) (some : s.rest ≠ []) (bound : Nat) :
    ∃ j > i, ((Stmt.declarationParser bound).leaves s).At tokens j := by
  have outcome := h.attempt bound
  cases ran : Stmt.attempted bound s with
  | ok st t =>
      rw [ran] at outcome
      rw [Parser.leaves, outcome.1]
      exact outcome.2
  | error e t =>
      rw [ran] at outcome
      obtain ⟨u, ended, -, k, le, resumed⟩ := outcome
      obtain ⟨j, resumes, here⟩ := resumed.resumes
      rw [Parser.leaves, ended]
      refine ⟨j, ?_, here⟩
      rcases resumes.lt_or with lt | ⟨rfl, last⟩
      · exact Nat.lt_of_le_of_lt le lt
      · refine Nat.lt_of_le_of_ne le ?_
        rintro rfl
        exact some (h.rest_eq_nil_iff.2 last)

/-- A larger bound does not change what an attempt comes to. -/
theorem declarationParser_bound (h : s.At tokens i) {bound : Nat} (le : s.rest.length ≤ bound) :
    Stmt.declarationParser bound s = Stmt.declarationParser s.rest.length s := by
  have same := (Stmt.follows_statements (z := Zone.alone #[] h.closed) le).2 s.rest.length
    (Nat.le_refl _) s ⟨h.proper, rfl, Nat.le_refl _⟩
  have alone {u : ParseState} (eof : u.eof = s.eof) : u.amid ⟨#[], [], s.eof⟩ = u := by
    rw [ParseState.amid, List.append_nil, Array.empty_append, ← eof]
  obtain ⟨o, t, ran⟩ := Stmt.exists_declarationParser s.rest.length s
  have reads : ReadsDecl s _ := (Stmt.reads_statements s.rest.length).2
  have passed := reads [] s h.built
  rw [ran] at same passed ⊢
  obtain ⟨read, -⟩ := same
  rwa [alone rfl, alone passed.1.eof] at read

end ParseState.At

/-- The loop over the declarations of a program ends at the first end-of-file token, whatever its
bound is, and yields the program. -/
theorem exists_itemsUntil_eof (tokens : List Token) (firstSite : Site) {bound : Nat}
    (le : (ParseState.start tokens firstSite).rest.length ≤ bound) :
    ∃ statements s,
      itemsUntil [.eof] bound (Stmt.declarationParser bound) (.start tokens firstSite) =
        .ok statements s ∧
      s.At tokens (firstEof tokens) ∧
      parse tokens firstSite = ⟨statements, s.errors.toList, s.nextSite⟩ := by
  have here := ParseState.at_start tokens firstSite
  let start := ParseState.start tokens firstSite
  obtain ⟨found, t, ran⟩ := exists_declarations start.rest.length start.rest.length #[] start
  obtain ⟨u, ran', errors, nextSite⟩ := declarations_bound #[] here.closed here.proper ran le le
  rw [Array.empty_append] at ran'
  have read : itemsUntil [.eof] bound (Stmt.declarationParser bound) start = .ok found.toList u :=
    (congrFun (itemsUntil_eq [.eof] _ (Stmt.declarationParser _)) _).trans (bind_of_ok ran')
  have passed := reads_itemsUntil [.eof] bound (fun _ => True) Stmt.nodes
    (fun nodes => ((Stmt.reads_statements bound).2 nodes).imp
      fun _ _ hs => ⟨fun _ _ => trivial, hs⟩) start here.built
  rw [read] at passed
  obtain ⟨nothing, -⟩ := chain_itemStep_amid (z := Zone.alone #[] here.closed)
    (Stmt.follows_statements (Nat.le_refl bound)).2 le ⟨.inl here.proper, rfl, le⟩ ran' #[] le
  have last := here.pass passed.1
  rw [nothing, List.length_nil, Nat.sub_zero, Nat.zero_add, ← here.firstEof_eq] at last
  refine ⟨_, u, read, last, ?_⟩
  rw [parse_of_declarations rfl ran, errors, nextSite]

/-- On every list of tokens the parser stays in its buffer and ends at the first end-of-file token.
Wherever it attempts a declaration, in a block or outside, the attempt takes a token if one is left.
If the attempt fails, the error shows at a token of the buffer and is recorded after those that were
found on the way, the declaration is dropped, and reading resumes at the next boundary.  The bounds
that limit the rules do not change what they read. -/
theorem attempts_progress (tokens : List Token) (firstSite : Site) :
    (ParseState.start tokens firstSite).At tokens 0 ∧
    (∀ bound, (ParseState.start tokens firstSite).rest.length ≤ bound → ∃ statements s,
      itemsUntil [.eof] bound (Stmt.declarationParser bound) (.start tokens firstSite) =
        .ok statements s ∧
      s.At tokens (firstEof tokens) ∧
      parse tokens firstSite = ⟨statements, s.errors.toList, s.nextSite⟩) ∧
    (Stays tokens skip ∧
      (∀ terminals, Stays tokens (accept? terminals) ∧ Stays tokens (acceptAll terminals)) ∧
      ∀ bound, Stays tokens (Expr.parser bound) ∧ Stays tokens (Stmt.parser bound) ∧
        Stays tokens (Stmt.declarationParser bound)) ∧
    ∀ (i : Nat) (s : ParseState), s.At tokens i →
      (buffer tokens)[i]? = some (s.rest.headD s.eof) ∧
      (∀ bound, s.rest.length ≤ bound →
        Stmt.declarationParser bound s = Stmt.declarationParser s.rest.length s) ∧
      ∀ bound,
        ((s.rest.headD s.eof).terminal ≠ .eof →
          ∃ j > i, ((Stmt.declarationParser bound).leaves s).At tokens j) ∧
        match Stmt.attempted bound s with
        | .ok st t => Stmt.declarationParser bound s = .ok (some st) t ∧ ∃ j > i, t.At tokens j
        | .error e t => ∃ u, Stmt.declarationParser bound s = .ok none u ∧
            s.errors.toList <+: t.errors.toList ∧ ∃ k ≥ i, Resumed tokens k e t u := by
  refine ⟨ParseState.at_start tokens firstSite, fun _ => exists_itemsUntil_eof tokens firstSite,
    ⟨?_, fun terminals => ⟨?_, ?_⟩, fun bound => ⟨?_, ?_, ?_⟩⟩, fun i s here =>
      ⟨here.getElem?_buffer, fun _ => here.declarationParser_bound, fun bound => ⟨?_, ?_⟩⟩⟩
  · exact stays_of_reads tokens fun _ => reads_skip
  · exact stays_of_reads tokens fun _ => reads_accept? terminals
  · exact stays_of_reads tokens fun _ => reads_acceptAll terminals
  · exact stays_of_reads tokens fun _ => Expr.reads_expression bound []
  · exact stays_of_reads tokens fun _ => (Stmt.reads_statements bound).1 []
  · exact stays_of_reads tokens fun _ => (Stmt.reads_statements bound).2 []
  · intro more
    refine here.exists_lt_attempt (fun nothing => more ?_) bound
    rw [nothing, List.headD_nil, here.closed]
  · exact here.attempt bound

/-- An error inside a declaration with more errors behind the first end-of-file token.  Reading
resumes after the semicolon. -/
theorem attempts_progress_var :
    let tokens := tokensOf (scan "var = \x7d 1; print 2;") ++ tokensOf (scan "else (")
    let s := ParseState.start tokens 0
    s.At tokens 0 ∧ (s.rest.headD s.eof).terminal ≠ .eof ∧
      (∃ j > 0, ((Stmt.declarationParser s.rest.length).leaves s).At tokens j) ∧
      ∃ e t, Stmt.attempted s.rest.length s = .error e t ∧
        ∃ u, Stmt.declarationParser s.rest.length s = .ok none u ∧
          ∃ k ≥ 0, Resumed tokens k e t u := by
  intro tokens s
  obtain ⟨here, -, -, attempts⟩ := attempts_progress tokens 0
  have more : (s.rest.headD s.eof).terminal ≠ .eof := by decide +kernel
  obtain ⟨-, -, attempt⟩ := attempts 0 s here
  obtain ⟨advances, outcome⟩ := attempt s.rest.length
  have failed : (match Stmt.attempted s.rest.length s with
    | .ok _ _ => false
    | .error _ _ => true) = true := by decide +kernel
  cases ran : Stmt.attempted s.rest.length s with
  | ok st t => simp [ran] at failed
  | error e t =>
      rw [ran] at outcome
      obtain ⟨u, dropped, -, resumed⟩ := outcome
      exact ⟨here, more, advances more, e, t, rfl, u, dropped, resumed⟩

end Lox
