import Lox.Proofs.Grammar.Acceptance
import Lox.Proofs.Grammar.Faultless
import Lox.Token.Scan

/-!
# Reading undoes writing

A shaped program can be written down and is read back as it was, up to the sites.  In turn, a
program that is read without errors is shaped, and if no `for` stands in it, its tokens are those
that it is written with: the words and marks that the tree does not keep are determined by it
(`parse_roundtrip`).
-/

namespace Lox

def Stmt.written (statements : List Stmt) : List Token :=
  (Stmt.spellingAll statements).map Mark.written

/-- Every token of the declaration of a variable is clausal. -/
theorem VarPhrase.clausal {ts : List Token} {s : Stmt} (h : VarPhrase ts s) :
    ∀ t ∈ ts, t.terminal.Clausal := by
  cases h <;> simp only [List.forall_mem_append, List.forall_mem_cons, List.not_mem_nil,
    false_implies, implies_true, and_true]
  case none identifier ends => exact ⟨.of_eq identifier (by decide), .of_eq ends (by decide)⟩
  case some identifier sign value ends =>
    exact ⟨.of_eq identifier (by decide), .of_eq sign (by decide), value.clausal,
      .of_eq ends (by decide)⟩

theorem OptionalExpr.clausal {ts : List Token} {o : Option Expr} (h : OptionalExpr ts o) :
    ∀ t ∈ ts, t.terminal.Clausal := by
  cases h with
  | none => exact List.forall_mem_nil _
  | some value => exact value.clausal

theorem FirstClause.clausal {ts : List Token} {o : Option Stmt} (h : FirstClause ts o) :
    ∀ t ∈ ts, t.terminal.Clausal := by
  cases h with
  | none mark => simpa using .of_eq mark (by decide)
  | var word clause => exact List.forall_mem_cons.2 ⟨.of_eq word (by decide), clause.clausal⟩
  | expression value mark =>
      simpa [or_imp, forall_and] using ⟨value.clausal, .of_eq mark (by decide)⟩

theorem SuperClause.clausal {ts : List Token} {o : Option Expr} (h : SuperClause ts o) :
    ∀ t ∈ ts, t.terminal.Clausal := by
  cases h with
  | none => exact List.forall_mem_nil _
  | some _ mark parent => simpa using ⟨.of_eq mark (by decide), .of_eq parent (by decide)⟩

/-- Every token of a list of parameters is clausal. -/
theorem Parameters.clausal {ts parameters : List Token} (h : Parameters ts parameters) :
    ∀ t ∈ ts, t.terminal.Clausal := by
  refine h.forall_tokens (fun t mark => .of_eq mark (by decide)) fun ts' p _ item => ?_
  rw [item.1]
  simpa using .of_eq item.2 (by decide)

/-- No phrase contains the end of the tokens. -/
theorem Phrase.proper {r : Rule} {ts : List Token} {a : r.Result} (h : Phrase r ts a) :
    ∀ t ∈ ts, t.terminal ≠ .eof := by
  have is {t : Token} {k : Terminal} (ht : t.terminal = k) (ne : k ≠ .eof) : t.terminal ≠ .eof :=
    ht ▸ ne
  have clause {ts : List Token} (clausal : ∀ t ∈ ts, t.terminal.Clausal) :
      ∀ t ∈ ts, t.terminal ≠ .eof := fun t ht => (clausal t ht).1
  induction h <;> try simp only [List.forall_mem_append, List.forall_mem_cons, List.not_mem_nil,
    false_implies, implies_true, and_true]
  case expression value ends => exact ⟨value.proper, is ends (by decide)⟩
  case print starts value ends => exact ⟨is starts (by decide), value.proper, is ends (by decide)⟩
  case «return» starts value ends =>
    exact ⟨is starts (by decide), clause value.clausal, is ends (by decide)⟩
  case block opens _ closes ih => exact ⟨is opens (by decide), ih, is closes (by decide)⟩
  case branch starts opens condition closes _ ih =>
    exact ⟨is starts (by decide), is opens (by decide), condition.proper, is closes (by decide), ih⟩
  case alternative starts opens condition closes _ between _ ih ih' =>
    exact ⟨is starts (by decide), is opens (by decide), condition.proper, is closes (by decide), ih,
      is between (by decide), ih'⟩
  case «while» starts opens condition closes _ ih =>
    exact ⟨is starts (by decide), is opens (by decide), condition.proper, is closes (by decide), ih⟩
  case «for» starts opens first second ends third closes _ ih =>
    exact ⟨is starts (by decide), is opens (by decide), clause first.clausal,
      clause second.clausal, is ends (by decide), clause third.clausal, is closes (by decide), ih⟩
  case plain ih => exact ih
  case var starts rest => exact ⟨is starts (by decide), clause rest.clausal⟩
  case function starts _ ih => exact ⟨is starts (by decide), ih⟩
  case «class» starts identifier parent opens _ closes ih =>
    exact ⟨is starts (by decide), is identifier (by decide), clause parent.clausal,
      is opens (by decide), ih, is closes (by decide)⟩
  case cons ih ih' => exact ⟨ih, ih'⟩
  case decl identifier opens given _ closes opens' _ closes' ih =>
    exact ⟨is identifier (by decide), is opens (by decide), clause (Parameters.clausal given),
      is closes (by decide), is opens' (by decide), ih, is closes' (by decide)⟩
  case method ih ih' => exact ⟨ih, ih'⟩

/-- Reading undoes writing, up to the sites; and without `for`, writing undoes reading: what the
tree keeps of a token is the token itself, or else its kind with the value of a literal. -/
theorem parse_roundtrip :
    (∀ (statements : List Stmt) (ts : List Token) (firstSite : Site),
      Stmt.ShapedAll statements → Fits ts (Stmt.spellingAll statements) →
        (parse ts firstSite).errors = [] ∧
          Stmt.relabelAll .forget (parse ts firstSite).statements =
            Stmt.relabelAll .forget statements) ∧
    (∀ statements : List Stmt, Fits (Stmt.written statements) (Stmt.spellingAll statements)) ∧
    ∀ (ts : List Token) (firstSite : Site),
      (∀ t ∈ ts, t.terminal ≠ .keyword .for ∧ t.terminal ≠ .eof) →
        (parse ts firstSite).errors = [] →
          Stmt.ShapedAll (parse ts firstSite).statements ∧
            Fits ts (Stmt.spellingAll (parse ts firstSite).statements) := by
  refine ⟨fun statements ts firstSite shaped fits => ?_, fun statements => Fits.written _,
    fun ts firstSite plain clean => ?_⟩
  · have phrase := Stmt.ShapedAll.phrase shaped fits
    exact parse_accepts phrase phrase.proper firstSite
  · have phrase := parse_phrase (fun t ht => (plain t ht).2) clean
    exact phrase.written fun t ht => (plain t ht).1

/-- An `else` that belongs to the outer `if`, operators of several levels, and both kinds of
targets. -/
theorem parse_roundtrip_branches :
    let source := "if (a) \x7b if (b or !c) d = -1 + e.f(2, nil).g * (3 - 4) == h; \x7d
      else while (x) y.z = \"s\";"
    let tokens := (tokensOf (scan source)).dropLast
    let first := parse tokens 0
    let again := parse (Stmt.written first.statements) 9
    (∀ t ∈ tokens, t.terminal ≠ .keyword .for ∧ t.terminal ≠ .eof) ∧ first.errors = [] ∧
      Stmt.ShapedAll first.statements ∧ Fits tokens (Stmt.spellingAll first.statements) ∧
      again.errors = [] ∧
      Stmt.relabelAll .forget again.statements = Stmt.relabelAll .forget first.statements := by
  intro source tokens first again
  have plain : ∀ t ∈ tokens, t.terminal ≠ .keyword .for ∧ t.terminal ≠ .eof := by decide +kernel
  have clean : first.errors = [] := by decide +kernel
  obtain ⟨shaped, fits⟩ := parse_roundtrip.2.2 tokens 0 plain clean
  have written := parse_roundtrip.2.1 first.statements
  obtain ⟨clean', same⟩ := parse_roundtrip.1 first.statements _ 9 shaped written
  exact ⟨plain, clean, shaped, fits, clean', same⟩

end Lox
