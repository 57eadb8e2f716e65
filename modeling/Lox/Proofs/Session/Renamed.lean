import Lox.Program.Printer
import Lox.Proofs.Session.Agreement
import Lox.Proofs.Simulation.Renamed

/-!
# Renaming a variable of a program

A program without static errors is executed as its copy in which a variable has a new name
(`perform_renamed`): they print the same, and they end alike, except that a message may quote the
new name where it quoted the old one.  The copy is analyzed with the same distances, so that the two
machines start in the same state.
-/

namespace Lox

variable {t : NewName}

/-- Messages that are the same but for the name of the variable. -/
inductive NewName.Restates (t : NewName) : Diagnostic → Diagnostic → Prop
  | runtime (fault : RuntimeFault) {t₁ t₂ : Token} : t.Quotes t₁ t₂ →
      t.Restates (RuntimeError.diagnostic ⟨fault, t₁⟩) (RuntimeError.diagnostic ⟨fault, t₂⟩)
  | output (e : OutputError) : t.Restates e.diagnostic e.diagnostic

/-- What is reported of a program and of its copy. -/
structure NewName.Retells (t : NewName) (report report' : Report) : Prop where
  output : report'.output = report.output
  exitCode : report'.diagnostics.exitCode = report.diagnostics.exitCode
  static : report.diagnostics.static = [] ∧ report'.diagnostics.static = []
  failure : Option.Rel t.Restates report.diagnostics.failure report'.diagnostics.failure

def Chunk.renamed (t : NewName) (chunk : Chunk) : Chunk :=
  { chunk with statements := Lox.renamed t chunk.statements }

/-- What is recorded depends on the places of bindings only. -/
theorem recorded_eq_of_place {bs bs' : List Binding}
    (same : bs'.map Binding.place = bs.map Binding.place) (known : Std.TreeMap Site Nat) :
    recorded known bs' = recorded known bs := by
  have record (bs : List Binding) : recorded known bs =
      (bs.map Binding.place).foldl (fun known p => p.2.elim known (known.insert p.1)) known := by
    rw [List.foldl_map, recorded]
    congr 1
    funext known b
    rw [Binding.place]
    cases b.distance <;> rfl
  rw [record, record, same]

theorem Numbered.learned {first next : Site} {ss : List Stmt} (numbered : Numbered first next ss)
    (errors : scopeErrorsOf (analyze ss) = []) :
    Learned (recorded ∅ (bindingsOf (analyze ss))) (analyze ss) where
  errors := errors
  distances _ hb := getElem?_recorded_of_mem ∅ numbered.bindings_nodup hb rfl

theorem ordinary_of_ofSpelling? {name : String} (word : Keyword.ofSpelling? name = none) :
    Ordinary name := by
  constructor
  · rintro rfl
    cases word
  · rintro rfl
    cases word

theorem NewName.retells_of_performMatch {known : Std.TreeMap Site Nat} {p q : Report × Session}
    (h : (t.correspondence known).PerformMatch p q) : t.Retells p.1 q.1 := by
  refine ⟨?_, h.exitCode, ⟨h.static₁, h.static₂⟩, ?_⟩
  · rw [h.output]
    exact String.empty_append
  · have ends := h.failure
    generalize p.1.diagnostics.failure = d at ends ⊢
    generalize q.1.diagnostics.failure = d' at ends ⊢
    cases ends with
    | none => exact .none
    | some same =>
        cases same with
        | output e => exact .some (.output e)
        | runtime fault same => exact .some (.runtime fault same)

/-- Where a local variable gets a name that is not in the text, the copy has no static errors
either, every name of it has the distance that it had, and it is executed alike. -/
theorem perform_renamed (t : NewName) {source : String} (clean : (Chunk.read source 0).Clean)
    (word : Keyword.ofSpelling? t.new = none)
    (fresh : ∀ token ∈ tokensOf (scan source), token.lexeme ≠ t.new) (sink : Sink)
    (clock : Nat → Float) (fuel : Nat) :
    let s := Session.initial sink clock
    let chunk := s.chunk source
    let copy := chunk.renamed t
    s.run fuel source =
        Session.perform fuel chunk.statements chunk.nextSite (s.prepared chunk) ∧
      copy.Clean ∧
      (bindingsOf (analyze copy.statements)).map Binding.place =
        (bindingsOf (analyze chunk.statements)).map Binding.place ∧
      Option.Rel (fun p q => t.Retells p.1 q.1)
        (Session.perform fuel chunk.statements chunk.nextSite (s.prepared chunk))
        (Session.perform fuel copy.statements copy.nextSite (s.prepared copy)) := by
  intro s chunk copy
  have ordinary := ordinary_of_ofSpelling? word
  have avoids (node : Node) (h : node ∈ Stmt.nodesAll chunk.statements) : t.Avoids node :=
    ⟨Chunk.sound source 0 node h, fun token ht => fresh token (Chunk.mem_scan_of_mem_tokens h ht)⟩
  obtain ⟨errors, bindings⟩ := renamed_rebinds ordinary avoids clean.2
  refine ⟨s.run_of_clean clean, ⟨clean.1, errors⟩, bindings, ?_⟩
  let known := recorded ∅ (bindingsOf (analyze chunk.statements))
  have learned : Learned known (analyze chunk.statements) :=
    (Chunk.numbered source 0).learned clean.2
  have statements : (t.correspondence known).Statements .top chunk.statements copy.statements := by
    refine NewName.statements_copied .top .nil ?_ avoids learned
    rw [Stmt.marksAll_nil]
    exact .nil
  have prepared : s.prepared chunk =
      { Machine.initial sink.emptied clock with distances := known } := Machine.recordAll_eq _ _
  have prepared' : s.prepared copy = s.prepared chunk := by
    rw [Session.prepared, Session.prepared, Machine.recordAll_eq, Machine.recordAll_eq,
      show copy.statements = renamed t chunk.statements from rfl, recorded_eq_of_place bindings]
  obtain ⟨w, place, matched⟩ :=
    (t.correspondence known).matched_initial ⟨rfl, rfl⟩ rfl sink.emptied clock
  have alike : (t.correspondence known).Matched w (s.prepared chunk) (s.prepared copy) := by
    rw [prepared', prepared]
    exact matched
  have performed := Correspondence.perform_match (NewName.closed ordinary) fuel statements place
    alike chunk.nextSite copy.nextSite
  generalize Session.perform fuel chunk.statements _ _ = first at performed ⊢
  generalize Session.perform fuel copy.statements _ _ = second at performed ⊢
  cases performed with
  | none => exact .none
  | some same => exact .some (NewName.retells_of_performMatch same)

/-- A block whose variable is shadowed inside, and shadows another one that a function before it
means. -/
theorem perform_renamed_block :
    let source := "var a; \x7b fun f() \x7b print a; \x7d var a = true;
      fun g(x) \x7b a = x; \x7b var a = nil; print a; \x7d \x7d f(); g(a); -a; \x7d"
    let s := Session.initial .unlimited fun _ => 0
    let chunk := s.chunk source
    let copy := chunk.renamed ⟨1, "a", "b"⟩
    (Chunk.read source 0).Clean ∧ Keyword.ofSpelling? "b" = none ∧
      (∀ token ∈ tokensOf (scan source), token.lexeme ≠ "b") ∧ copy.Clean ∧
      Option.Rel (fun p q => NewName.Retells ⟨1, "a", "b"⟩ p.1 q.1)
        (Session.perform 20 chunk.statements chunk.nextSite (s.prepared chunk))
        (Session.perform 20 copy.statements copy.nextSite (s.prepared copy)) := by
  intro source s chunk copy
  have clean : (Chunk.read source 0).Clean := by decide +kernel
  have word : Keyword.ofSpelling? "b" = none := by decide
  have fresh : ∀ token ∈ tokensOf (scan source), token.lexeme ≠ "b" := by decide +kernel
  obtain ⟨-, accepted, -, performed⟩ :=
    perform_renamed ⟨1, "a", "b"⟩ clean word fresh .unlimited (fun _ => 0) 20
  exact ⟨clean, word, fresh, accepted, performed⟩

example :
    let source := "var a; \x7b fun f() \x7b print a; \x7d var a = true;
      fun g(x) \x7b a = x; \x7b var a = nil; print a; \x7d \x7d f(); g(a); -a; \x7d"
    Stmt.printedAll (renamed ⟨1, "a", "b"⟩ (Chunk.read source 0).statements) =
      ["(var a)",
        "(block (fun f () (print a)) (var b = true)" ++
          " (fun g (x) (; (= b x)) (block (var a = nil) (print a)))" ++
          " (; (call f)) (; (call g b)) (; (- b)))"] := by
  decide +kernel

end Lox
