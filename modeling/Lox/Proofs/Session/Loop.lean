import Lox.Proofs.Evaluation.Loop
import Lox.Proofs.Session.Renumbered

/-!
# Loops mean their expansions

A `for` statement means what its expansion with `while` means, in every program that it is a part of
and in every session (`Loop.Formed.means_expansion`).  As the sites are handed out in the order of
the tokens, and the increment comes before the body in the loop and after it in the expansion, the
two programs have other numbers, but nothing that can be seen depends on them.
-/

namespace Lox

open Relation

/-- The second tokens are read without errors as what the first ones are read as, but for the
numbers of the sites, and under the new numbers the analysis finds the same. -/
structure Rereads (tokens tokens' : List Token) (firstSite : Site) (number : Site → Site) :
    Prop where
  clean : (parse tokens' firstSite).errors = []
  renumbers :
    Renumbers number (parse tokens firstSite).statements (parse tokens' firstSite).statements
  scopeErrors : scopeErrorsOf (analyze (parse tokens' firstSite).statements) =
    scopeErrorsOf (analyze (parse tokens firstSite).statements)
  bindings : bindingsOf (analyze (parse tokens' firstSite).statements) =
    (bindingsOf (analyze (parse tokens firstSite).statements)).map (Binding.relabel ⟨number, id⟩)

/-- Programs that are read as the same are run with the same reports. -/
theorem Rereads.report {tokens tokens' : List Token} {s : Session} {number : Site → Site}
    (h : Rereads tokens tokens' s.nextSite number)
    (clean : (parse tokens s.nextSite).errors = []) {sink : Sink} {clock : Nat → Float}
    {fuel : Nat} {earlier : List String} {reports : List Report}
    (ran : (Session.initial sink clock).runAll fuel earlier = some (reports, s)) (fuel' : Nat) :
    (s.runTokens fuel' tokens').map Prod.fst = (s.runTokens fuel' tokens).map Prod.fst := by
  refine Session.runChunk_renumbered ran ?_ (parse_numbered tokens s.nextSite)
    (parse_numbered tokens' s.nextSite) h.renumbers fuel'
  change (parse tokens' s.nextSite).errors.map _ = (parse tokens s.nextSite).errors.map _
  rw [h.clean, clean]

namespace Loop

variable {l : Loop} {w : List Token}

/-- With its expansion for the loop, a program is read as the same program. -/
theorem Formed.exists_rereads (formed : l.Formed) (expansion : l.Expansion w)
    {before behind : List Token} {firstSite : Site} (whole : l.Whole behind)
    (clean : (parse (before ++ (l.tokens ++ behind)) firstSite).errors = []) :
    ∃ number, Rereads (before ++ (l.tokens ++ behind)) (before ++ (w ++ behind)) firstSite
      number := by
  obtain ⟨clean', same⟩ := formed.parse_replaced expansion whole firstSite clean
  obtain ⟨number, renumbers⟩ := parse_renumbers same.symm
  exact ⟨number, clean', renumbers, renumbers.scopeErrors, renumbers.bindings⟩

/-- All executions that a loop with a variable leads to, but the declaration of the variable, are
inside the one environment that holds it, and so are the functions that they declare. -/
theorem Formed.shares (formed : l.Formed) {firstSite : Site} {st : Stmt}
    (read : (parse l.tokens firstSite).statements = [st]) {name : Token} {value : Option Expr}
    (first : ReadAs l.first (.var name value)) {fuel : Nat} {m : Machine} {q : Point}
    (leads : TransGen Point.Leads ⟨fuel + 1, st, m⟩ q) :
    (∃ value', q = ⟨fuel, .var name value', m.inside⟩) ∨
      q.Shares m.heap.forest.next name.lexeme := by
  obtain ⟨-, initializer, condition, increment, body, read', var⟩ := formed.exists_read firstSite
  obtain ⟨value', rfl⟩ := var name value first
  obtain rfl := List.head_eq_of_cons_eq (read.symm.trans read')
  rw [Stmt.forLoop_some] at leads
  rcases Point.inside_of_block leads with rfl | inside
  · exact .inl ⟨value', rfl⟩
  · exact .inr inside.shares

/-- A loop means its expansion.

* Each is read without errors as one statement, and these are the same but for the numbers.
* In a program that is read without errors, the expansion can take the place of the loop: the
  program is still read without errors, with other numbers; it has the same errors in its scopes,
  and under the new numbers the same distances.
* A session then reports the same: the same output, diagnostics and so exit code.
* Everything that the loop leads to, but the declaration of its variable, is inside the one
  environment that holds the variable, and so are all functions and methods declared there.
* If an execution that the loop has started returns a value, nothing else is executed in it, be it
  the increment, the condition or the rest of the body. -/
theorem Formed.means_expansion (formed : l.Formed) (expansion : l.Expansion w) :
    (∀ firstSite, (parse l.tokens firstSite).errors = [] ∧ (parse w firstSite).errors = [] ∧
      ∃ st st' number, (parse l.tokens firstSite).statements = [st] ∧
        (parse w firstSite).statements = [st'] ∧ Renumbers number [st] [st']) ∧
    (∀ before behind firstSite, l.Whole behind →
      (parse (before ++ (l.tokens ++ behind)) firstSite).errors = [] →
        ∃ number, Rereads (before ++ (l.tokens ++ behind)) (before ++ (w ++ behind)) firstSite
          number) ∧
    (∀ before behind sink clock fuel earlier reports s, l.Whole behind →
      (Session.initial sink clock).runAll fuel earlier = some (reports, s) →
      (parse (before ++ (l.tokens ++ behind)) s.nextSite).errors = [] →
        ∀ fuel', (s.runTokens fuel' (before ++ (w ++ behind))).map Prod.fst =
          (s.runTokens fuel' (before ++ (l.tokens ++ behind))).map Prod.fst) ∧
    ∀ firstSite st, (parse l.tokens firstSite).statements = [st] →
      (∀ name value, ReadAs l.first (.var name value) → ∀ fuel m q,
        TransGen Point.Leads ⟨fuel + 1, st, m⟩ q →
          (∃ value', q = ⟨fuel, .var name value', m.inside⟩) ∨
            q.Shares m.heap.forest.next name.lexeme) ∧
      ∀ watch fuel m q v m', ReflTransGen (Point.Starts watch) ⟨fuel, st, m⟩ q →
        q.runs watch = .ok (.returned v) m' →
          ∃ id, Point.runs watch ⟨fuel, st, m⟩ = .ok (.returned v) { m' with current := id } := by
  refine ⟨fun firstSite => ?_, fun before behind firstSite whole clean => ?_,
    fun before behind sink clock fuel earlier reports s whole ran clean fuel' => ?_,
    fun firstSite st read => ⟨fun name value first fuel m q leads => ?_,
      fun watch fuel m q v m' reaches returned => ?_⟩⟩
  · obtain ⟨clean, clean', _, _, _, _, st', number, read, -, read', renumbers⟩ :=
      formed.parse_expansion expansion firstSite
    exact ⟨clean, clean', _, st', number, read, read', renumbers⟩
  · exact formed.exists_rereads expansion whole clean
  · obtain ⟨number, rereads⟩ := formed.exists_rereads expansion whole clean
    exact rereads.report clean ran fuel'
  · exact formed.shares read first leads
  · exact Point.runs_of_reaches reaches returned

/-- A loop with a closure that changes the variable, and a `return` before an increment that would
fail. -/
theorem means_expansion_closure :
    let read (source : String) := (tokensOf (scan source)).dropLast
    let name : Token := ⟨.identifier, "a", 1⟩
    let equal : Token := ⟨.symbol .equal, "=", 1⟩
    let semicolon : Token := ⟨.symbol .semicolon, ";", 1⟩
    let l : Loop := ⟨⟨.keyword .for, "for", 1⟩, ⟨.symbol .leftParen, "(", 1⟩,
      [⟨.keyword .var, "var", 1⟩, name, equal, ⟨.keyword .true, "true", 1⟩, semicolon],
      [name], semicolon, [⟨.identifier, "b", 1⟩, equal, name], ⟨.symbol .rightParen, ")", 1⟩,
      read "\x7b fun f() \x7b a = nil; \x7d f(); return a; \x7d"⟩
    let w := read ("\x7b var a = true; while (a) \x7b " ++
      "\x7b fun f() \x7b a = nil; \x7d f(); return a; \x7d b = a; \x7d \x7d")
    let source := "fun g() \x7b for (var a = true; a; b = a) " ++
      "\x7b fun f() \x7b a = nil; \x7d f(); return a; \x7d \x7d print g();"
    let before := read "fun g() \x7b"
    let behind := tokensOf (scan "\x7d print g();")
    l.Formed ∧ l.Expansion w ∧ l.Whole behind ∧
      tokensOf (scan source) = before ++ (l.tokens ++ behind) ∧
      (parse (before ++ (l.tokens ++ behind)) 0).errors = [] ∧
      ((Session.initial .unlimited fun _ => 0).run 30 source).map Prod.fst =
        some ⟨"nil\n", .none⟩ ∧
      ((Session.initial .unlimited fun _ => 0).runTokens 30
        (before ++ (w ++ behind))).map Prod.fst = some ⟨"nil\n", .none⟩ := by
  intro read name equal semicolon l w source before behind
  have value : Expr.Spells .assignment [name] (.variable 0 name) :=
    (Expr.Spells.variable 0 rfl).loosen (by decide)
  have literal : Expr.Spells .primary [⟨.keyword .true, "true", 1⟩] (.literal (.bool true)) :=
    .literal rfl
  obtain ⟨body, one⟩ := List.length_eq_one_iff.1
    (show (parse l.body 0).statements.length = 1 by decide +kernel)
  have plain : ∀ s ∈ (parse l.body 0).statements, s.isPlain := by decide +kernel
  have formed : l.Formed := {
    word := rfl
    left := rfl
    semicolon := rfl
    right := rfl
    proper := by decide +kernel
    first := (FirstClause.var rfl (.some rfl rfl (literal.loosen (by decide)) rfl)).readAs
    condition := .inr (value.readAs rfl)
    increment := .inr ((Expr.Spells.assign 0 rfl rfl value).readAs rfl)
    body := ⟨body, plain body (one ▸ List.mem_singleton_self body), by decide +kernel, one⟩ }
  have expansion : l.Expansion w := by
    have written : w = ⟨.symbol .leftBrace, "\x7b", 1⟩ :: (l.first ++
        (⟨.keyword .while, "while", 1⟩ :: ⟨.symbol .leftParen, "(", 1⟩ :: (l.condition ++
          ⟨.symbol .rightParen, ")", 1⟩ :: (⟨.symbol .leftBrace, "\x7b", 1⟩ ::
            (l.body ++ (l.increment ++ [semicolon]) ++ [⟨.symbol .rightBrace, "\x7d", 1⟩])))) ++
              [⟨.symbol .rightBrace, "\x7d", 1⟩]) := by
      decide +kernel
    have given : l.condition ≠ [] ∧ l.increment ≠ [] ∧ l.first.length ≠ 1 := by decide +kernel
    have enclosed : ¬l.Bare := by
      rintro ⟨t, -, same⟩
      exact given.2.2 (same ▸ rfl)
    rw [written]
    exact .enclosed enclosed rfl
      (.intro rfl rfl (.given given.1) rfl (.block given.2.1 rfl rfl rfl)) rfl
  have calm : NoElse behind := by
    intro t ht
    have head : ∀ t ∈ behind.head?, t.terminal ≠ .keyword .else := by decide +kernel
    exact head t ht
  have spelled : lexicalErrorsOf (scan source) = [] := by decide +kernel
  have same : tokensOf (scan source) = before ++ (l.tokens ++ behind) := by decide +kernel
  have clean : (parse (before ++ (l.tokens ++ behind)) 0).errors = [] := by decide +kernel
  have printed : ((Session.initial .unlimited fun _ => 0).run 30 source).map Prod.fst =
      some ⟨"nil\n", .none⟩ := by decide +kernel
  refine ⟨formed, expansion, fun _ => calm, same, clean, printed, ?_⟩
  rw [(formed.means_expansion expansion).2.2.1 before behind .unlimited (fun _ => 0) 0 [] [] _
    (fun _ => calm) rfl clean, ← same, ← Session.run_eq_runTokens _ spelled, printed]

end Loop

end Lox
