import Lox.Proofs.Grammar.Renumbering
import Lox.Proofs.Session.Alike

/-!
# Programs with other numbers

A program whose sites have other numbers means the same.  The analysis finds the same errors and the
same distances under the new numbers (`Renumbers.analyze`), and a session that runs the one or the
other reports the same, whatever it has run before (`Session.runChunk_renumbered`).

`Session.runTokens` runs a program that is given by its tokens, which need not be those of a text.
-/

namespace Lox

def Chunk.ofTokens (tokens : List Token) (firstSite : Site) : Chunk :=
  let parsed := parse tokens firstSite
  ⟨parsed.statements, parsed.errors.map GrammarError.diagnostic, parsed.nextSite⟩

/-- A text without lexical errors is the program of its tokens. -/
theorem Chunk.read_eq_ofTokens {source : String} (spelled : lexicalErrorsOf (scan source) = [])
    (firstSite : Site) :
    Chunk.read source firstSite = .ofTokens (tokensOf (scan source)) firstSite := by
  rw [Chunk.read, spelled]
  rfl

namespace Renumbers

variable {number : Site → Site} {ss ss' : List Stmt}

theorem analyze (h : Renumbers number ss ss') :
    Lox.analyze ss' = (Lox.analyze ss).map (Finding.relabel ⟨number, id⟩) := by
  rw [← h.relabeled]
  exact analyze_relabel ⟨fun _ => rfl, fun _ => rfl⟩ ss

theorem scopeErrors (h : Renumbers number ss ss') :
    scopeErrorsOf (Lox.analyze ss') = scopeErrorsOf (Lox.analyze ss) := by
  rw [h.analyze, scopeErrorsOf_map_relabel]
  exact List.map_id _

theorem bindings (h : Renumbers number ss ss') :
    bindingsOf (Lox.analyze ss') =
      (bindingsOf (Lox.analyze ss)).map (Binding.relabel ⟨number, id⟩) := by
  rw [h.analyze, bindingsOf_map_relabel]

end Renumbers

namespace Alike

variable {vs : List Visit} {c : Comparison} {s : Session} {chunk chunk' : Chunk}
  {number : Site → Site}

/-- A session performs a program and the renumbered one alike. -/
theorem perform_renumbered (h : Alike 0 vs c s s)
    (numbered : Numbered s.nextSite chunk.nextSite chunk.statements)
    (numbered' : Numbered s.nextSite chunk'.nextSite chunk'.statements)
    (renumbers : Renumbers number chunk.statements chunk'.statements)
    (errors : scopeErrorsOf (analyze chunk.statements) = []) (fuel : Nat) :
    (Session.perform fuel chunk'.statements chunk'.nextSite (s.prepared chunk')).map Prod.fst =
      (Session.perform fuel chunk.statements chunk.nextSite (s.prepared chunk)).map Prod.fst := by
  let bs := bindingsOf (analyze chunk.statements)
  let bs' := bindingsOf (analyze chunk'.statements)
  -- Both sessions record the same distance for a node, each under its own number.
  have new (v : Visit) (hv : v ∈ visits chunk.statements) :
      v.Recorded (recorded c.first bs) (recorded c.second bs') c.culprit ⟨number, id⟩ := by
    have first (site : Site) (name : Token) (refers : v.node.reference? = some (site, name)) :
        (recorded c.first bs)[site]? = v.scopes.distance? name.lexeme := by
      have told := numbered.getElem?_recorded .same Function.injective_id.injOn
        (fun site hs => h.fresh₁ site (numbered.bindings_sites hs).1) errors hv refers
      rwa [Binding.map_relabel_same] at told
    refine ⟨first, fun site name refers => ?_, fun t _ => ?_, numbered.visit_formed hv⟩
    · rw [first site name refers, show bs' = _ from renumbers.bindings]
      refine numbered.getElem?_recorded ⟨number, id⟩ renumbers.injective (fun site hs => ?_)
        errors hv refers
      refine h.fresh₂ _ (numbered'.bindings_sites ?_).1
      obtain ⟨b, hb, rfl⟩ := List.mem_map.1 hs
      rw [renumbers.bindings]
      exact List.mem_map_of_mem (List.mem_map_of_mem hb)
    · rw [h.culprit]
      rfl
  let c' := c.next (recorded c.first bs) (recorded c.second bs') "" ⟨number, id⟩
    ⟨fun _ => rfl, fun _ => rfl⟩ (visits chunk.statements)
    (fun _ _ => h.recorded_old (fun _ hs => (numbered.bindings_sites hs).1)
      fun _ hs => (numbered'.bindings_sites hs).1) new
  have statements : c'.correspondence.Statements .top chunk.statements chunk'.statements := by
    rw [← renumbers.relabeled]
    exact Comparison.statements_of_chunk (Or.inr rfl) fun v hv => Or.inr ⟨rfl, hv⟩
  obtain ⟨w, place, matched⟩ := h.matched
  have prepared : c'.correspondence.Matched w (s.prepared chunk) (s.prepared chunk') := by
    rw [← prepared_emptied s chunk, ← prepared_emptied s chunk', prepared_eq matched.distances₁,
      prepared_eq matched.distances₂]
    refine Comparison.matched_of_visited c' (fun _ => Or.inl) (fun _ _ => Or.inl) matched _ _ ?_
    have sink := matched.sink
    rwa [show c.correspondence.before = "" from h.before] at sink
  have ends := Correspondence.perform_match c'.closed fuel statements place prepared
    chunk.nextSite chunk'.nextSite
  generalize Session.perform fuel chunk.statements _ _ = o at ends ⊢
  generalize Session.perform fuel chunk'.statements _ _ = o' at ends ⊢
  cases ends with
  | none => rfl
  | some same =>
      have culprit : c'.culprit = Eq := h.culprit
      exact congrArg some (eq_of_performMatch rfl culprit same)

end Alike

namespace Session

variable {fuel : Nat} {s : Session}

def runChunk (fuel : Nat) (chunk : Chunk) (s : Session) : Option (Report × Session) :=
  if chunk.Clean then perform fuel chunk.statements chunk.nextSite (s.prepared chunk)
  else some (⟨"", ⟨chunk.staticErrors, none⟩⟩, s.rejected chunk)

theorem run_eq_runChunk (s : Session) (source : String) :
    s.run fuel source = s.runChunk fuel (s.chunk source) := by
  unfold runChunk
  split
  next clean => exact s.run_of_clean clean
  next faulty => exact s.run_of_not_clean faulty

def runTokens (fuel : Nat) (tokens : List Token) (s : Session) : Option (Report × Session) :=
  s.runChunk fuel (.ofTokens tokens s.nextSite)

/-- A text without lexical errors runs as its tokens. -/
theorem run_eq_runTokens (s : Session) {source : String}
    (spelled : lexicalErrorsOf (scan source) = []) :
    s.run fuel source = s.runTokens fuel (tokensOf (scan source)) := by
  rw [run_eq_runChunk, chunk, Chunk.read_eq_ofTokens spelled]
  rfl

/-- A session reports of a renumbered program what it reports of the program. -/
theorem runChunk_renumbered {sink : Sink} {clock : Nat → Float} {earlier : List String}
    {reports : List Report} (ran : (initial sink clock).runAll fuel earlier = some (reports, s))
    {chunk chunk' : Chunk} {number : Site → Site} (errors : chunk'.errors = chunk.errors)
    (numbered : Numbered s.nextSite chunk.nextSite chunk.statements)
    (numbered' : Numbered s.nextSite chunk'.nextSite chunk'.statements)
    (renumbers : Renumbers number chunk.statements chunk'.statements) (fuel' : Nat) :
    (s.runChunk fuel' chunk').map Prod.fst = (s.runChunk fuel' chunk).map Prod.fst := by
  have static : chunk'.staticErrors = chunk.staticErrors := by
    rw [Chunk.staticErrors, Chunk.staticErrors, errors, renumbers.scopeErrors]
  have clean : chunk'.Clean ↔ chunk.Clean := by
    rw [← Chunk.staticErrors_eq_nil, static, Chunk.staticErrors_eq_nil]
  unfold runChunk
  by_cases accepted : chunk.Clean
  · rw [if_pos accepted, if_pos (clean.2 accepted)]
    have itself := (Alike.initial sink clock).runAll fuel earlier
    rw [ran] at itself
    rcases itself with stuck | ⟨_, _, _, c, h₁, h₂, alike⟩
    · cases stuck.1
    cases h₁
    cases h₂
    exact alike.perform_renumbered numbered numbered' renumbers accepted.2 fuel'
  · rw [if_neg accepted, if_neg (accepted ∘ clean.1), static]
    rfl

end Session

end Lox
