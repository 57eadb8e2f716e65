import Lox.Proofs.Token.Joined
import Lox.Proofs.Grammar.Joined
import Lox.Proofs.Evaluation.Sequence
import Lox.Proofs.Session.Comparison
import Lox.Proofs.Session.Run

/-!
# Chunks joined to one source

Two chunks that a session runs one after the other can as well be run as one source, with a line end
between them: the second one is then found on later lines, and everything else is the same.

The single run executes the statements of both chunks.  It has recorded the distances of the second
chunk already when it executes the first one, which does not matter because these belong to other
sites; and it does not empty the sink in between.  So it is compared with the session twice, first
while the first chunk is executed, and then from there on.
-/

namespace Lox

/-- Tokens are found on later lines, and sites stay. -/
def Relabeling.lower (k : Nat) : Relabeling := ⟨id, Token.lower k⟩

theorem Relabeling.lower_shifts (k : Nat) : (lower k).Shifts where
  kind _ := rfl
  lexeme _ := rfl
  succ _ := rfl

@[simp] theorem Binding.map_relabel_lower (k : Nat) (bs : List Binding) :
    bs.map (Binding.relabel (.lower k)) = bs :=
  List.map_id bs

/-! ### Reading -/

namespace Chunk

variable {firstSite : Site}

theorem lexicalErrorsOf_of_errors {source : String}
    (clean : (Chunk.read source firstSite).errors = []) : lexicalErrorsOf (scan source) = [] :=
  List.map_eq_nil_iff.1 (List.append_eq_nil_iff.1 clean).1

theorem parse_errors_of_errors {source : String}
    (clean : (Chunk.read source firstSite).errors = []) :
    (parse (tokensOf (scan source)) firstSite).errors = [] :=
  List.map_eq_nil_iff.1 (List.append_eq_nil_iff.1 clean).2

/-- Two chunks are read as one. -/
theorem read_joined {first second : String}
    (clean : (Chunk.read first firstSite).errors = [])
    (clean' : (Chunk.read second (Chunk.read first firstSite).nextSite).errors = []) :
    Chunk.read (first ++ "\n" ++ second) firstSite =
      ⟨(Chunk.read first firstSite).statements ++ Stmt.relabelAll (.lower (linesBefore first))
          (Chunk.read second (Chunk.read first firstSite).nextSite).statements, [],
        (Chunk.read second (Chunk.read first firstSite).nextSite).nextSite⟩ := by
  have spelling := lexicalErrorsOf_of_errors clean
  have spelling' := lexicalErrorsOf_of_errors clean'
  have grammar := parse_errors_of_errors clean
  have grammar' := parse_errors_of_errors clean'
  let r := Relabeling.lower (linesBefore first)
  have lowered (site : Site) : parse ((tokensOf (scan second)).map r.token) site =
      (parse (tokensOf (scan second)) site).relabel r :=
    parse_relabel (Relabeling.lower_shifts _) (exists_eof_mem_scan second) site
  have closed : ∃ t ∈ (tokensOf (scan second)).map r.token, t.terminal = .eof := by
    obtain ⟨t, ht, eof⟩ := exists_eof_mem_scan second
    exact ⟨r.token t, List.mem_map_of_mem ht, eof⟩
  have first_closed : ∀ t ∈ properTokens first, t.terminal ≠ .eof := fun _ => terminal_ne_eof
  have closes : (endOfFile (linesBefore first)).terminal = .eof := rfl
  have append := parse_append closes first_closed closed (tokensOf_scan first ▸ grammar)
  rw [← tokensOf_scan first, lowered] at append
  have whole := append (List.map_eq_nil_iff.2 grammar')
  have tokens : tokensOf (scan (first ++ "\n" ++ second)) =
      properTokens first ++ (tokensOf (scan second)).map r.token :=
    tokensOf_scan_joined second (closed_of_lexicalErrorsOf spelling)
  rw [Chunk.read, tokens, whole, lexicalErrorsOf_scan_joined spelling spelling']
  rfl

/-- The second chunk is analyzed as if it stood alone. -/
theorem analyze_joined {first second : String}
    (clean : (Chunk.read first firstSite).errors = [])
    (clean' : (Chunk.read second (Chunk.read first firstSite).nextSite).errors = []) :
    analyze (Chunk.read (first ++ "\n" ++ second) firstSite).statements =
      analyze (Chunk.read first firstSite).statements ++
        (analyze (Chunk.read second (Chunk.read first firstSite).nextSite).statements).map
          (Finding.relabel (.lower (linesBefore first))) := by
  rw [read_joined clean clean', analyze_append,
    analyze_relabel (Relabeling.lower_shifts _).toFaithful]

theorem clean_joined {first second : String} (clean : (Chunk.read first firstSite).Clean)
    (clean' : (Chunk.read second (Chunk.read first firstSite).nextSite).Clean) :
    (Chunk.read (first ++ "\n" ++ second) firstSite).Clean := by
  constructor
  · rw [read_joined clean.1 clean'.1]
  · rw [analyze_joined clean.1 clean'.1, scopeErrorsOf_append, scopeErrorsOf_map_relabel, clean.2,
      clean'.2]
    rfl

theorem mem_scan_of_mem_visits {source : String} :
    ∀ v ∈ Lox.visits (Chunk.read source firstSite).statements, ∀ t ∈ v.node.tokens,
      t ∈ tokensOf (scan source) := by
  intro v hv t ht
  exact mem_scan_of_mem_tokens (node_mem_of_mem_visits hv) ht

end Chunk

/-! ### Comparison -/

/-- How the token at which an error shows moves when the text `second` is put behind the text
`first`.  The line on which it is found then tells which text it is in. -/
def Token.Moved (first second : String) (t t' : Token) : Prop :=
  if t'.line ≤ linesBefore first then t ∈ tokensOf (scan first) ∧ t' = t
  else t ∈ tokensOf (scan second) ∧ t' = t.lower (linesBefore first)

theorem Token.Moved.kept {first : String} (second : String) {t : Token}
    (ht : t ∈ tokensOf (scan first)) : Token.Moved first second t t := by
  rw [Moved, if_pos (line_of_mem_scan ht).2]
  exact ⟨ht, rfl⟩

theorem Token.Moved.lowered (first : String) {second : String} {t : Token}
    (ht : t ∈ tokensOf (scan second)) :
    Token.Moved first second t (t.lower (linesBefore first)) := by
  have pos := (line_of_mem_scan ht).1
  have line : ¬ t.line + linesBefore first ≤ linesBefore first := by omega
  rw [Moved, Token.lower, if_neg line]
  exact ⟨ht, rfl⟩

theorem Token.Moved.lexeme {first second : String} {t t' : Token}
    (h : Token.Moved first second t t') : t'.lexeme = t.lexeme := by
  rw [Moved] at h
  split at h
  · rw [h.2]
  · rw [h.2, Token.lower]

def distancesAfter (known : Std.TreeMap Site Nat) (ss : List Stmt) : Std.TreeMap Site Nat :=
  recorded known (bindingsOf (analyze ss))

/-- A machine that has executed nothing but knows distances. -/
def Machine.knowing (distances : Std.TreeMap Site Nat) (sink : Sink) (clock : Nat → Float) :
    Machine :=
  { Machine.initial sink.emptied clock with distances }

/-- Two programs one after the other, with sites of their own and without errors in their scopes. -/
structure Successive (n₁ n₂ : Site) (ss₁ ss₂ : List Stmt) : Prop where
  first : Numbered 0 n₁ ss₁
  second : Numbered n₁ n₂ ss₂
  accepted₁ : scopeErrorsOf (analyze ss₁) = []
  accepted₂ : scopeErrorsOf (analyze ss₂) = []

namespace Successive

variable {n₁ n₂ : Site} {ss₁ ss₂ : List Stmt} (h : Successive n₁ n₂ ss₁ ss₂) {v : Visit}
  {site : Site} {name : Token}
include h

theorem recorded_first (hv : v ∈ visits ss₁) (refers : v.node.reference? = some (site, name)) :
    (distancesAfter ∅ ss₁)[site]? = v.scopes.distance? name.lexeme := by
  have told := h.first.getElem?_recorded .same Function.injective_id.injOn
    (fun _ _ => show (∅ : Std.TreeMap Site Nat)[_]? = none from rfl) h.accepted₁ hv refers
  rwa [Binding.map_relabel_same] at told

/-- What is known of the first program stays. -/
theorem recorded_kept (hv : v ∈ visits ss₁) (refers : v.node.reference? = some (site, name)) :
    (distancesAfter (distancesAfter ∅ ss₁) ss₂)[site]? = (distancesAfter ∅ ss₁)[site]? := by
  have old := (h.first.visit_sites hv refers).2
  have other := h.second.getElem?_recorded_of_other .same (distancesAfter ∅ ss₁) site
    fun _ le _ => Nat.ne_of_gt (Nat.lt_of_lt_of_le old le)
  rwa [Binding.map_relabel_same] at other

theorem recorded_second (hv : v ∈ visits ss₂) (refers : v.node.reference? = some (site, name)) :
    (distancesAfter (distancesAfter ∅ ss₁) ss₂)[site]? = v.scopes.distance? name.lexeme := by
  have fresh (site : Site) (hs : site ∈ (bindingsOf (analyze ss₂)).map Binding.site) :
      (distancesAfter ∅ ss₁)[site]? = none := by
    have le := (h.second.bindings_sites hs).1
    have other := h.first.getElem?_recorded_of_other .same ∅ site
      fun _ _ lt => Nat.ne_of_lt (Nat.lt_of_lt_of_le lt le)
    rwa [Binding.map_relabel_same] at other
  have told := h.second.getElem?_recorded .same Function.injective_id.injOn fresh h.accepted₂ hv
    refers
  rwa [Binding.map_relabel_same] at told

/-- The first program is executed while the distances of the second one are known already. -/
def ahead : Comparison where
  first := distancesAfter ∅ ss₁
  second := distancesAfter (distancesAfter ∅ ss₁) ss₂
  before := ""
  culprit := Eq
  relabels r := r = .same
  faithful r hr := hr ▸ Relabeling.same_faithful
  visited r v := r = .same ∧ v ∈ visits ss₁
  recorded := by
    rintro r v ⟨rfl, hv⟩
    exact ⟨fun _ _ => h.recorded_first hv, fun _ _ => h.recorded_kept hv, fun _ _ => rfl,
      h.first.visit_formed hv⟩

/-- From then on. -/
def behind (first second printed : String)
    (tokens₁ : ∀ v ∈ visits ss₁, ∀ t ∈ v.node.tokens, t ∈ tokensOf (scan first))
    (tokens₂ : ∀ v ∈ visits ss₂, ∀ t ∈ v.node.tokens, t ∈ tokensOf (scan second)) :
    Comparison where
  first := distancesAfter (distancesAfter ∅ ss₁) ss₂
  second := distancesAfter (distancesAfter ∅ ss₁) ss₂
  before := printed
  culprit := Token.Moved first second
  relabels r := r = .same ∨ r = .lower (linesBefore first)
  faithful := by
    rintro r (rfl | rfl)
    · exact Relabeling.same_faithful
    · exact (Relabeling.lower_shifts _).toFaithful
  visited r v := r = .same ∧ v ∈ visits ss₁ ∨ r = .lower (linesBefore first) ∧ v ∈ visits ss₂
  recorded := by
    rintro r v (⟨rfl, hv⟩ | ⟨rfl, hv⟩)
    · exact ⟨fun _ _ refers => (h.recorded_kept hv refers).trans (h.recorded_first hv refers),
        fun _ _ _ => rfl, fun t ht => .kept second (tokens₁ v hv t ht), h.first.visit_formed hv⟩
    · exact ⟨fun _ _ => h.recorded_second hv, fun _ _ _ => rfl,
        fun t ht => .lowered first (tokens₂ v hv t ht), h.second.visit_formed hv⟩

/-- The first program does not notice that more distances are known. -/
theorem execute_ahead (sink : Sink) (clock : Nat → Float) (fuel : Nat) :
    ∃ w : World, w.At .top ∧ h.ahead.correspondence.Outcome w (fun _ _ _ => True)
      (executeAll fuel ss₁ (.knowing (distancesAfter ∅ ss₁) sink clock))
      (executeAll fuel ss₁
        (.knowing (distancesAfter (distancesAfter ∅ ss₁) ss₂) sink clock)) := by
  obtain ⟨w, place, matched⟩ := Comparison.matched_initial Eq sink.emptied clock
  have statements : h.ahead.correspondence.Statements .top ss₁ (Stmt.relabelAll .same ss₁) :=
    Comparison.statements_of_chunk rfl fun v hv => ⟨rfl, hv⟩
  rw [Stmt.relabelAll_same] at statements
  have prepared := Comparison.matched_of_visited h.ahead (fun _ => False.elim)
    (fun _ _ => False.elim) matched sink.emptied sink.emptied rfl
  exact ⟨w, place, Correspondence.Sim.executeAll h.ahead.closed fuel statements place _ _ prepared⟩

/-- From then on the second program is executed where the first one has left off. -/
theorem perform_behind {first second : String}
    (tokens₁ : ∀ v ∈ visits ss₁, ∀ t ∈ v.node.tokens, t ∈ tokensOf (scan first))
    (tokens₂ : ∀ v ∈ visits ss₂, ∀ t ∈ v.node.tokens, t ∈ tokensOf (scan second)) {w : World}
    (place : w.At .top) {m m' : Machine} (matched : h.ahead.correspondence.Matched w m m')
    (fuel : Nat) (n n' : Site) :
    Option.Rel (h.behind first second m.sink.text tokens₁ tokens₂).correspondence.PerformMatch
      (Session.perform fuel ss₂ n { m.emptied with distances := distancesAfter m.distances ss₂ })
      (Session.perform fuel (Stmt.relabelAll (.lower (linesBefore first)) ss₂) n' m') := by
  let c := h.behind first second m.sink.text tokens₁ tokens₂
  have statements : c.correspondence.Statements .top ss₂
      (Stmt.relabelAll (.lower (linesBefore first)) ss₂) :=
    Comparison.statements_of_chunk (Or.inr rfl) fun v hv => Or.inr ⟨rfl, hv⟩
  have sink : m'.sink = { m.sink.emptied with text := m.sink.text ++ m.sink.emptied.text } := by
    have printed : m'.sink = { m.sink with text := "" ++ m.sink.text } := matched.sink
    rw [printed, String.empty_append, Sink.emptied, String.append_empty]
  have continued := Comparison.matched_of_visited c (fun _ => Or.inl) (fun _ _ => Or.inl) matched
    m.sink.emptied m'.sink sink
  have known : m.distances = distancesAfter ∅ ss₁ := matched.distances₁
  have known' : m'.distances = c.second := matched.distances₂
  rw [← known'] at continued
  rw [known]
  exact Correspondence.perform_match c.closed fuel statements place continued n n'

end Successive

/-! ### Runs -/

/-- Messages that are the same, except for where the token at which an error shows is found. -/
inductive Diagnostic.Moved (first second : String) : Diagnostic → Diagnostic → Prop
  | runtime (message : String) {t t' : Token} : Token.Moved first second t t' →
      Moved first second (.runtime message t) (.runtime message t')
  | output (message : String) : Moved first second (.output message) (.output message)

/-- What a single run reports of two texts one after the other, of which a session has reported
`report₁` and `report₂`. -/
structure Report.Joins (first second : String) (report₁ report₂ report : Report) : Prop where
  output : report.output = report₁.output ++ report₂.output
  exitCode : report.diagnostics.exitCode = report₂.diagnostics.exitCode
  failure : Option.Rel (Diagnostic.Moved first second) report₂.diagnostics.failure
    report.diagnostics.failure

theorem Diagnostics.static_of_exitCode {d : Diagnostics} (h : d.exitCode = 0) : d.static = [] := by
  rw [exitCode, hasError] at h
  cases hd : d.static with
  | nil => rfl
  | cons e es => simp [hd] at h

theorem RuntimeError.message_of_lexeme (fault : RuntimeFault) {t t' : Token}
    (h : t'.lexeme = t.lexeme) :
    RuntimeError.message ⟨fault, t'⟩ = RuntimeError.message ⟨fault, t⟩ := by
  cases fault <;> simp [RuntimeError.message, h]

/-- Reports that differ in what was printed before and in the tokens of errors. -/
theorem Report.joins_of_performMatch {R : Correspondence} {first second : String}
    (culprit : R.culprit = Token.Moved first second) {report₁ : Report}
    (before : R.before = report₁.output) {p q : Report × Session} (h : R.PerformMatch p q) :
    Report.Joins first second report₁ p.1 q.1 := by
  have failure : Option.Rel (Diagnostic.Moved first second) p.1.diagnostics.failure
      q.1.diagnostics.failure := by
    have ends := h.failure
    generalize p.1.diagnostics.failure = d at ends ⊢
    generalize q.1.diagnostics.failure = d' at ends ⊢
    cases ends with
    | none => exact .none
    | some same =>
        cases same with
        | output e => exact .some (.output _)
        | runtime fault same =>
            rw [culprit] at same
            have message := RuntimeError.message_of_lexeme fault same.lexeme
            rw [RuntimeError.diagnostic, RuntimeError.diagnostic, message]
            exact .some (.runtime _ same)
  exact ⟨before ▸ h.output, h.exitCode, failure⟩

namespace Session

variable {fuel : Nat} {sink : Sink} {clock : Nat → Float} {first second : String}
  {report₁ : Report} {s₁ : Session}

theorem initial_prepared (sink : Sink) (clock : Nat → Float) (chunk : Chunk) :
    (Session.initial sink clock).prepared chunk =
      .knowing (distancesAfter ∅ chunk.statements) sink clock :=
  Machine.recordAll_eq _ _

/-- The machine that executes the joined text knows the distances of both chunks. -/
theorem run_joined_eq (sink : Sink) (clock : Nat → Float) (fuel : Nat)
    (clean : (Chunk.read first 0).Clean)
    (clean' : (Chunk.read second (Chunk.read first 0).nextSite).Clean) :
    (Session.initial sink clock).run fuel (first ++ "\n" ++ second) =
      perform fuel ((Chunk.read first 0).statements ++ Stmt.relabelAll (.lower (linesBefore first))
          (Chunk.read second (Chunk.read first 0).nextSite).statements)
        (Chunk.read second (Chunk.read first 0).nextSite).nextSite
        (.knowing (distancesAfter (distancesAfter ∅ (Chunk.read first 0).statements)
          (Chunk.read second (Chunk.read first 0).nextSite).statements) sink clock) := by
  have whole : ((Session.initial sink clock).chunk (first ++ "\n" ++ second)).Clean :=
    Chunk.clean_joined clean clean'
  rw [run_of_clean _ whole, initial_prepared, Session.chunk, distancesAfter,
    show (Session.initial sink clock).nextSite = 0 from rfl,
    Chunk.analyze_joined clean.1 clean'.1, bindingsOf_append, bindingsOf_map_relabel,
    Binding.map_relabel_lower, recorded_append, Chunk.read_joined clean.1 clean'.1]
  rfl

section Perform

variable {ss : List Stmt} {m m' : Machine}

theorem perform_of_ok (ran : executeAll fuel ss m = .ok () m') (n : Site) :
    perform fuel ss n m = some (⟨m'.sink.text, .none⟩, ⟨m', n⟩) := by
  rw [perform, ran]

theorem perform_of_error {halt : Halt} (ran : executeAll fuel ss m = .error halt m') (n : Site) :
    perform fuel ss n m =
      halt.diagnostic?.map fun d => (⟨m'.sink.text, ⟨[], some d⟩⟩, ⟨m', n⟩) := by
  rw [perform, ran]

/-- The joined text goes on where the first chunk has ended. -/
theorem perform_append_of_ok (ran : executeAll fuel ss m = .ok () m') (ss' : List Stmt) (n : Site) :
    perform fuel (ss ++ ss') n m = perform fuel ss' n m' := by
  rw [perform, perform, executeAll_append_of_ok ran]

end Perform

/-- What is reported of the first program, and what the joined programs do after it. -/
theorem perform_joined {n₁ n₂ : Site} {ss₁ ss₂ : List Stmt} (h : Successive n₁ n₂ ss₁ ss₂)
    (tokens₁ : ∀ v ∈ visits ss₁, ∀ t ∈ v.node.tokens, t ∈ tokensOf (scan first))
    (tokens₂ : ∀ v ∈ visits ss₂, ∀ t ∈ v.node.tokens, t ∈ tokensOf (scan second))
    (ran : perform fuel ss₁ n₁ (.knowing (distancesAfter ∅ ss₁) sink clock) = some (report₁, s₁))
    (n : Site) :
    (report₁.diagnostics.exitCode = 0 →
      Option.Rel (fun p q => Report.Joins first second report₁ p.1 q.1)
        (perform fuel ss₂ n { s₁.machine.emptied with
          distances := distancesAfter s₁.machine.distances ss₂ })
        (perform fuel (ss₁ ++ Stmt.relabelAll (.lower (linesBefore first)) ss₂) n
          (.knowing (distancesAfter (distancesAfter ∅ ss₁) ss₂) sink clock))) ∧
    ∀ message t, report₁.diagnostics.failure = some (.runtime message t) →
      ∃ s, perform fuel (ss₁ ++ Stmt.relabelAll (.lower (linesBefore first)) ss₂) n
          (.knowing (distancesAfter (distancesAfter ∅ ss₁) ss₂) sink clock) =
        some (⟨report₁.output, ⟨[], some (.runtime message t)⟩⟩, s) := by
  obtain ⟨w, place, outcome⟩ := h.execute_ahead sink clock fuel
  generalize hx : executeAll fuel ss₁ (.knowing (distancesAfter ∅ ss₁) sink clock) = x at outcome
  generalize hy : executeAll fuel ss₁ (.knowing _ sink clock) = y at outcome
  cases outcome with
  | @ok w' _ _ m m' le matched _ =>
      rw [perform_of_ok hx] at ran
      cases ran
      constructor
      · intro _
        rw [perform_append_of_ok hy]
        have ends := h.perform_behind tokens₁ tokens₂ (place.mono le) matched fuel n n
        generalize perform fuel ss₂ n _ = o at ends ⊢
        generalize perform fuel _ n m' = o' at ends ⊢
        cases ends with
        | none => exact .none
        | some same => exact .some (Report.joins_of_performMatch rfl rfl same)
      · intro message t failure
        cases failure
  | @error w' halt halt' m m' le matched halts =>
      have text : m'.sink.text = m.sink.text := by
        have printed : m'.sink = { m.sink with text := "" ++ m.sink.text } := matched.sink
        rw [printed, String.empty_append]
      rw [perform_of_error hx] at ran
      obtain ⟨d, hd, same⟩ := Option.map_eq_some_iff.1 ran
      cases same
      constructor
      · intro code
        cases code
      · intro message t failure
        -- A failure of the output at the end of the first program is no run-time error.
        cases halts with
        | outOfFuel => cases hd
        | output e =>
            cases hd
            cases failure
        | error fault culprit =>
            cases culprit
            cases hd
            cases failure
            rw [perform_of_error (executeAll_append_of_error hy nofun _), text]
            exact ⟨_, rfl⟩

/-- Two texts that are run one after the other in a new session are reported as their joined text,
which prints what both print and ends as the second one does, unless already the first one ends in a
run-time error. -/
theorem run_joined (ran : (Session.initial sink clock).run fuel first = some (report₁, s₁))
    (clean : (s₁.chunk second).Clean) :
    (report₁.diagnostics.exitCode = 0 →
      Option.Rel (fun p q => Report.Joins first second report₁ p.1 q.1) (s₁.run fuel second)
        ((Session.initial sink clock).run fuel (first ++ "\n" ++ second))) ∧
    ∀ message t, report₁.diagnostics.failure = some (.runtime message t) →
      ∃ s, (Session.initial sink clock).run fuel (first ++ "\n" ++ second) =
        some (⟨report₁.output, ⟨[], some (.runtime message t)⟩⟩, s) := by
  by_cases clean₁ : ((Session.initial sink clock).chunk first).Clean
  · have next := nextSite_of_run ran
    let chunk₁ := Chunk.read first 0
    let chunk₂ := Chunk.read second chunk₁.nextSite
    have second_chunk : s₁.chunk second = chunk₂ := by
      rw [Session.chunk, next]
      rfl
    have clean₂ : chunk₂.Clean := second_chunk ▸ clean
    have h : Successive chunk₁.nextSite chunk₂.nextSite chunk₁.statements chunk₂.statements :=
      ⟨Chunk.numbered first 0, Chunk.numbered second _, clean₁.2, clean₂.2⟩
    have alone : s₁.run fuel second =
        perform fuel chunk₂.statements chunk₂.nextSite { s₁.machine.emptied with
          distances := distancesAfter s₁.machine.distances chunk₂.statements } := by
      rw [run_of_clean _ clean, second_chunk, prepared, Machine.recordAll_eq]
      rfl
    rw [alone, run_joined_eq sink clock fuel clean₁ clean₂]
    rw [run_of_clean _ clean₁, initial_prepared] at ran
    exact perform_joined h Chunk.mem_scan_of_mem_visits Chunk.mem_scan_of_mem_visits ran _
  · rw [run_of_not_clean _ clean₁] at ran
    cases ran
    constructor
    · intro code
      exact absurd (Chunk.staticErrors_eq_nil.1 (Diagnostics.static_of_exitCode code)) clean₁
    · intro message t failure
      cases failure

/-- A function of the first text fails when the second one calls it; and a text that fails. -/
theorem run_joined_call :
    (∃ report₁ s₁, (Session.initial .unlimited fun _ => 0).run 20
        "fun f(x) \x7b print x; return -x; \x7d" = some (report₁, s₁) ∧
      (s₁.chunk "print nil;\nf(nil);").Clean ∧ report₁.diagnostics.exitCode = 0 ∧
      Option.Rel (fun p q => Report.Joins "fun f(x) \x7b print x; return -x; \x7d"
          "print nil;\nf(nil);" report₁ p.1 q.1)
        (s₁.run 20 "print nil;\nf(nil);") ((Session.initial .unlimited fun _ => 0).run 20
          "fun f(x) \x7b print x; return -x; \x7d\nprint nil;\nf(nil);")) ∧
    ∃ report₁ s₁ s, (Session.initial .unlimited fun _ => 0).run 20 "print nil;\n-nil;" =
        some (report₁, s₁) ∧ (s₁.chunk "print true;").Clean ∧
      (Session.initial .unlimited fun _ => 0).run 20 "print nil;\n-nil;\nprint true;" =
        some (⟨report₁.output, ⟨[], report₁.diagnostics.failure⟩⟩, s) := by
  constructor
  · have accepted : ((Session.initial .unlimited fun _ => 0).run 20
        "fun f(x) \x7b print x; return -x; \x7d").any fun p =>
          decide ((p.2.chunk "print nil;\nf(nil);").Clean ∧ p.1.diagnostics.exitCode = 0) := by
      decide +kernel
    obtain ⟨⟨report₁, s₁⟩, ran, accepted⟩ := (Option.any_eq_true _ _).1 accepted
    obtain ⟨clean, code⟩ := of_decide_eq_true accepted
    exact ⟨report₁, s₁, ran, clean, code, (run_joined ran clean).1 code⟩
  · have failed : ((Session.initial .unlimited fun _ => 0).run 20 "print nil;\n-nil;").any
        fun p => decide ((p.2.chunk "print true;").Clean ∧ p.1.diagnostics.failure =
          some (.runtime "Operand must be a number." ⟨.symbol .minus, "-", 2⟩)) := by
      decide +kernel
    obtain ⟨⟨report₁, s₁⟩, ran, failed⟩ := (Option.any_eq_true _ _).1 failed
    obtain ⟨clean, failure⟩ := of_decide_eq_true failed
    obtain ⟨s, joined⟩ := (run_joined ran clean).2 _ _ failure
    rw [← failure] at joined
    exact ⟨report₁, s₁, s, ran, clean, joined⟩

end Session

end Lox
