import Lox.Proofs.Grammar.Phrase
import Lox.Proofs.Grammar.Prediction
import Lox.Token.Scan

/-!
# The first error is as early as can be

The first error that ends a declaration is at the first token that no program has after the tokens
before it, and without such an error the tokens are a program.  Programs are those of
`relaxedGrammar`: assignments to what cannot be assigned and lists that are too long do not end a
declaration.
-/

namespace Lox

open Ebnf Lox.Parser

variable {tokens : List Token} {e : GrammarError}

/-- The tokens, with the end after them, are derived by the relaxed grammar. -/
def IsSentence (tokens : List Token) : Prop :=
  Derives relaxedGrammar (.rule .program) (tokens.map Token.terminal ++ [.eof])

/-- The tokens are the beginning of what is derived by the relaxed grammar. -/
def IsViable (tokens : List Token) : Prop :=
  ∃ w, Derives relaxedGrammar (.rule .program) (tokens.map Token.terminal ++ w)

theorem Earliest.exists_place (h : Earliest tokens (eofOf tokens) e) :
    ∃ i ≤ tokens.length, (tokens ++ [eofOf tokens])[i]? = some e.culprit ∧
      IsViable (tokens.take i) ∧
      if i < tokens.length then ¬IsViable (tokens.take (i + 1)) else ¬IsSentence tokens := by
  obtain ⟨before, after, rfl, culprit, viable, stuck⟩ := h
  refine ⟨before.length, by simp, ?_, by rwa [List.take_left], ?_⟩
  · cases after <;> simp [culprit]
  · cases after with
    | nil =>
        rw [List.append_nil, if_neg (Nat.lt_irrefl _)]
        rw [culprit, List.headD_nil, eofOf_terminal] at stuck
        exact stuck []
    | cons t after =>
        rw [if_pos (by simp), List.take_length_add_append, List.take_succ_cons, List.take_zero]
        rintro ⟨w, derived⟩
        rw [culprit, List.headD_cons] at stuck
        rw [List.map_append, List.append_assoc] at derived
        exact stuck w derived

/-- Before a program is read, all programs are expected. -/
theorem expects_start (proper : ∀ t ∈ tokens, t.terminal ≠ .eof) (firstSite : Site) :
    Expects tokens tokens.length (.seq (.star (.rule .declaration)) (.terminal .eof))
      (.start tokens firstSite) := by
  have rest := ParseState.rest_start proper firstSite
  refine ⟨eofOf_terminal tokens, by rw [rest], [], by rw [rest, List.nil_append], ?_, ?_⟩
  · exact fun w hw => yields_rule.2 hw
  · exact fun w hw => yields_rule.1 hw

/-- Where all tokens have been read and the end is expected, they are a program. -/
theorem isSentence_of_expects {n : Nat} {s : ParseState}
    (proper : ∀ t ∈ tokens, t.terminal ≠ .eof) (h : Expects tokens n (.terminal .eof) s)
    (last : s.look = .eof) : IsSentence tokens := by
  obtain ⟨before, split, sound, -⟩ := h.goes
  have none : s.rest = [] := by
    cases rest : s.rest with
    | nil => rfl
    | cons t rest' =>
        rw [ParseState.look, rest, List.headD_cons] at last
        exact absurd last (proper t (by simp [split, rest]))
  rw [none, List.append_nil] at split
  exact split ▸ sound [.eof] (.terminal .eof)

theorem predicts_program : Predicts tokens (eofOf tokens)
    (Expects tokens tokens.length (.seq (.star (.rule .declaration)) (.terminal .eof)))
    (itemsUntil [.eof] tokens.length (Stmt.declarationParser tokens.length)) fun _ s =>
      Expects tokens tokens.length (.terminal .eof) s ∧ s.look ∈ [.eof] := by
  have ends (k : Terminal) (w : List Terminal) (hw : (terminal .eof).Yields (k :: w)) :
      k ∈ [.eof] := by
    obtain ⟨rfl, -⟩ := List.cons.inj (yields_terminal.1 hw)
    exact List.mem_singleton_self _
  have absorbs : (seq (star (rule .declaration)) (terminal .eof)).Absorbs := by
    refine .of_not fun w hw => ?_
    rcases yields_star_seq.1 hw with rest | first
    · exact absurd (ends _ w rest) (by decide)
    · exact absurd (mem_first_of_yields first) (by decide)
  exact predicts_itemsUntil (Stmt.predicts_statements _).2 (by decide) (by decide) ends absorbs
    (Nat.le_refl _) (Nat.le_refl _)

/-- The first error that ends a declaration is at the first token that no program has after the
tokens before it.  If there is none, the tokens are a program. -/
theorem parse_errors_earliest (proper : ∀ t ∈ tokens, t.terminal ≠ .eof) (firstSite : Site) :
    match firstAborting (parse tokens firstSite).errors with
    | none => IsSentence tokens
    | some e => ∃ i ≤ tokens.length, (tokens ++ [eofOf tokens])[i]? = some e.culprit ∧
        IsViable (tokens.take i) ∧
        if i < tokens.length then ¬IsViable (tokens.take (i + 1)) else ¬IsSentence tokens := by
  let start := ParseState.start tokens firstSite
  have rest : start.rest = tokens := ParseState.rest_start proper firstSite
  have all := predicts_program start ⟨rfl, .inl ⟨rfl, expects_start proper firstSite⟩⟩
  cases hr : itemsUntil [.eof] tokens.length (Stmt.declarationParser tokens.length) start with
  | ok statements s =>
      rw [hr] at all
      rw [parse_of_ok (by rw [rest]; exact hr)]
      obtain ⟨-, ⟨none, expects, last⟩ | ⟨e, some, earliest⟩⟩ := all
      · rw [none]
        exact isSentence_of_expects proper expects (List.mem_singleton.1 last)
      · rw [some]
        exact earliest.exists_place
  | error e s =>
      rw [hr] at all
      rw [parse_of_error (by rw [rest]; exact hr)]
      obtain ⟨-, e', some, earliest⟩ := all
      rw [some]
      exact earliest.exists_place

/-- An operand is missing in front of the first semicolon. -/
theorem parse_errors_earliest_operand :
    let tokens := (tokensOf (scan "print a +; var b")).dropLast
    (∀ t ∈ tokens, t.terminal ≠ .eof) ∧
      (firstAborting (parse tokens 0).errors).map GrammarError.fault = some .noExpression ∧
      IsViable (tokens.take 3) ∧ ¬IsViable (tokens.take 4) := by
  intro tokens
  have proper : ∀ t ∈ tokens, t.terminal ≠ .eof := by decide +kernel
  have first : (firstAborting (parse tokens 0).errors).map
      (fun e => (e.fault, e.culprit.terminal)) = some (.noExpression, .symbol .semicolon) := by
    decide +kernel
  have once : ∀ i ≤ tokens.length,
      (tokens ++ [eofOf tokens])[i]?.map Token.terminal = some (.symbol .semicolon) → i = 3 := by
    decide +kernel
  obtain ⟨e, found, same⟩ := Option.map_eq_some_iff.1 first
  obtain ⟨fault, culprit⟩ := Prod.mk.inj same
  have earliest := parse_errors_earliest proper 0
  rw [found] at earliest ⊢
  obtain ⟨i, le, place, viable, stuck⟩ := earliest
  obtain rfl := once i le (by rw [place, Option.map_some, culprit])
  rw [if_pos (by decide +kernel)] at stuck
  exact ⟨proper, by rw [Option.map_some, fault], viable, stuck⟩

end Lox
