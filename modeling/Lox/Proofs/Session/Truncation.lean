import Lox.Proofs.Evaluation.Truncation
import Lox.Proofs.Session.Recording
import Lox.Proofs.Session.Run

/-!
# Sessions whose output is cut short

A session is compared with one whose output is limited.  Both do the same unless a piece of text is
rejected.  If one is, the limited session stops there, with a prefix of the output of the other, and
reports nothing but the failure of the output (`Session.run_truncated`).
-/

namespace Lox

namespace Session

def limited (limit : Nat) (s : Session) : Session := ⟨s.machine.limited limit, s.nextSite⟩

/-- What is reported of an execution, unless it was out of fuel. -/
def reported (nextSite : Site) :
    EStateM.Result Halt Machine Unit → Option (Report × Session)
  | .ok _ m => some (⟨m.sink.text, .none⟩, ⟨m, nextSite⟩)
  | .error halt m =>
    halt.diagnostic?.map fun d => (⟨m.sink.text, ⟨[], some d⟩⟩, ⟨m, nextSite⟩)

def runOr (rejected : Run Unit) (fuel : Nat) (source : String) (s : Session) :
    Option (Report × Session) :=
  let chunk := s.chunk source
  if chunk.Clean then
    reported chunk.nextSite (executeAllOr rejected fuel chunk.statements (s.prepared chunk))
  else s.run fuel source

/-- A piece of text is rejected while a chunk is run: it makes a difference what is done then. -/
def Rejects (fuel : Nat) (source : String) (s : Session) : Prop :=
  ∃ rejected, s.runOr rejected fuel source ≠ s.run fuel source

/-- The run of a chunk comes to the machine `here`, which rejects the next piece of text, and stops
there. -/
structure StopsAt (fuel : Nat) (source : String) (s : Session) (here : Machine) (piece : String) :
    Prop where
  rejects : here.sink.accepts piece = false
  /-- If something else is done that halts, this is the last thing that is done. -/
  last : ∀ rejected halt m, rejected here = .error halt m →
    ∃ current, s.runOr rejected fuel source =
      reported (s.chunk source).nextSite (.error halt { m with current })
  /-- What follows the statement that is executed is never looked at. -/
  cut : ∃ before st after, (s.chunk source).statements = before ++ st :: after ∧
    ∀ rest, perform fuel (before ++ st :: rest) (s.chunk source).nextSite
      (s.prepared (s.chunk source)) = s.run fuel source

variable {fuel : Nat}

theorem perform_eq_reported (ss : List Stmt) (n : Site) (m : Machine) :
    perform fuel ss n m = reported n (executeAll fuel ss m) := by
  rw [perform]
  cases executeAll fuel ss m <;> rfl

theorem runOr_of_clean (s : Session) {source : String} (clean : (s.chunk source).Clean)
    (rejected : Run Unit) : s.runOr rejected fuel source =
      reported (s.chunk source).nextSite
        (executeAllOr rejected fuel (s.chunk source).statements (s.prepared (s.chunk source))) :=
  if_pos clean

/-- A run stops at the first piece of text that is rejected. -/
theorem runOr_closed (s : Session) (source : String) :
    s.runOr (throw (.output .closed)) fuel source = s.run fuel source := by
  by_cases clean : (s.chunk source).Clean
  · rw [runOr_of_clean s clean, executeAllOr_closed, run_of_clean s clean, perform_eq_reported]
  · exact if_neg clean

/-- What is reported as printed is what the sink has at the end. -/
theorem output_of_reported {n : Site} {x : Run Unit} {m : Machine} {report : Report} {s : Session}
    (h : reported n (x m) = some (report, s)) : report.output = (x.leaves m).sink.text := by
  unfold Run.leaves
  cases hx : x m with
  | ok u m' =>
      rw [hx] at h
      cases h
      rfl
  | error halt m' =>
      rw [hx] at h
      obtain ⟨d, -, same⟩ := Option.map_eq_some_iff.1 h
      cases same
      rfl

variable {limit : Nat}

theorem reported_limited {n : Site} {r : EStateM.Result Halt Machine Unit} {report : Report}
    {s : Session} (h : reported n r = some (report, s)) :
    reported n (Run.limited limit r) = some (report, s.limited limit) := by
  cases r with
  | ok u m =>
      cases h
      rfl
  | error halt m =>
      obtain ⟨d, hd, same⟩ := Option.map_eq_some_iff.1 h
      cases same
      exact Option.map_eq_some_iff.2 ⟨d, hd, rfl⟩

theorem prepared_limited (s : Session) (chunk : Chunk) :
    (s.limited limit).prepared chunk = (s.prepared chunk).limited limit := by
  rw [prepared, prepared, Machine.recordAll_eq, Machine.recordAll_eq]
  rfl

variable {s after : Session} {source : String} {report : Report}

theorem runOr_limited_of_clean (clean : (s.chunk source).Clean) (rejected : Run Unit) :
    (s.limited limit).runOr rejected fuel source =
      reported (s.chunk source).nextSite (executeAllOr rejected fuel (s.chunk source).statements
        ((s.prepared (s.chunk source)).limited limit)) := by
  rw [← prepared_limited]
  exact runOr_of_clean (s.limited limit) clean rejected

theorem run_limited_of_clean (clean : (s.chunk source).Clean) :
    (s.limited limit).run fuel source =
      reported (s.chunk source).nextSite (executeAll fuel (s.chunk source).statements
        ((s.prepared (s.chunk source)).limited limit)) := by
  rw [← runOr_closed, runOr_limited_of_clean clean, executeAllOr_closed]

/-- A chunk with static errors does not print. -/
theorem run_limited_of_not_clean (faulty : ¬ (s.chunk source).Clean)
    (ran : s.run fuel source = some (report, after)) :
    (s.limited limit).run fuel source = some (report, after.limited limit) := by
  rw [run_of_not_clean s faulty] at ran
  cases ran
  refine (run_of_not_clean (s.limited limit) faulty).trans ?_
  change some (_, (s.limited limit).rejected (s.chunk source)) = _
  rw [rejected, rejected, prepared_limited]
  split <;> rfl

/-- A run whose last step is at a rejected piece of text. -/
theorem stopsAt_of_endsAt (clean : (s.chunk source).Clean) {here : Machine} {piece : String}
    (rejects : here.sink.accepts piece = false)
    (ends : Run.EndsAt
      (fun rejected => executeAllOr rejected fuel (s.chunk source).statements)
      ((s.prepared (s.chunk source)).limited limit) here) :
    (s.limited limit).StopsAt fuel source here piece where
  rejects := rejects
  last rejected halt m halts := by
    obtain ⟨current, ran⟩ := ends rejected halt m halts
    exact ⟨current, (runOr_limited_of_clean clean rejected).trans (congrArg (reported _) ran)⟩
  cut := by
    obtain ⟨current, ran⟩ := ends (throw (.output .closed)) _ here rfl
    have halted := (congrFun (executeAllOr_closed fuel _) _).symm.trans ran
    obtain ⟨before, st, rest, same, stays⟩ := exists_of_executeAll_error halted nofun
    refine ⟨before, st, rest, same, fun rest' => ?_⟩
    rw [run_limited_of_clean clean, halted, perform_eq_reported, prepared_limited]
    exact congrArg _ (stays rest')

/-- A session runs a source text, and the same session with a limit on the line ends runs it too.
Unless a piece of text is rejected, both reports are the same.  If one is, the second run stops
there, with the failure of the output as its only message.  What it has printed and the rejected
piece together are a prefix of what the first run prints. -/
theorem run_truncated (s : Session) (accepting : s.machine.sink.limit = none) (fuel : Nat)
    (source : String) (limit : Nat) {report : Report} {after : Session}
    (ran : s.run fuel source = some (report, after)) :
    ∃ report' after', (s.limited limit).run fuel source = some (report', after') ∧
      report'.output.toList <+: report.output.toList ∧
      (¬ (s.limited limit).Rejects fuel source → report' = report) ∧
      ((s.limited limit).Rejects fuel source →
        report'.diagnostics = ⟨[], some (.output "pipe closed")⟩ ∧
        (Diagnostic.output "pipe closed").line? = none ∧
        report'.diagnostics.exitCode = 70 ∧
        ∃ here piece, (s.limited limit).StopsAt fuel source here piece ∧
          report'.output = here.sink.text ∧
          (report'.output ++ piece).toList <+: report.output.toList) := by
  by_cases clean : (s.chunk source).Clean
  · rw [run_of_clean s clean, perform_eq_reported] at ran
    have unlimited : (s.prepared (s.chunk source)).sink.limit = none := by
      rw [prepared, Machine.recordAll_eq]
      exact accepting
    obtain ⟨-, agrees | ⟨here, piece, rejects, before, ends⟩⟩ :=
      truncates_executeAll limit fuel (s.chunk source).statements _ unlimited
    · have same (rejected : Run Unit) : (s.limited limit).runOr rejected fuel source =
          some (report, after.limited limit) := by
        refine (runOr_limited_of_clean clean rejected).trans ?_
        exact (congrArg (reported _) (agrees rejected)).trans (reported_limited ran)
      have closed : (s.limited limit).run fuel source = some (report, after.limited limit) :=
        (runOr_closed _ source).symm.trans (same _)
      refine ⟨report, _, closed, List.prefix_refl _, fun _ => rfl, ?_⟩
      rintro ⟨rejected, differs⟩
      exact absurd ((same rejected).trans closed.symm) differs
    · have stops := stopsAt_of_endsAt clean rejects ends
      obtain ⟨current, closed⟩ := stops.last (throw (.output .closed)) _ here rfl
      -- Another failure in the place of the closed output would show.
      obtain ⟨current', stuck⟩ := stops.last (throw .outOfFuel) _ here rfl
      rw [runOr_closed] at closed
      rw [← output_of_reported ran] at before
      refine ⟨⟨here.sink.text, ⟨[], some (.output "pipe closed")⟩⟩, _, closed, ?_, ?_, fun _ => ?_⟩
      · exact .trans (by simp) before
      · refine fun quiet => absurd ⟨throw .outOfFuel, ?_⟩ quiet
        rw [stuck, closed]
        exact (Option.some_ne_none _).symm
      · exact ⟨rfl, rfl, rfl, here, piece, stops, rfl, before⟩
  · refine ⟨report, _, run_limited_of_not_clean clean ran, List.prefix_refl _, fun _ => rfl, ?_⟩
    rintro ⟨rejected, differs⟩
    exact absurd (if_neg clean) differs

/-- An initializer prints a text with a line end in it, and the line end after it is rejected. -/
theorem run_truncated_initializer :
    let source := "class A \x7b init() \x7b print \"x\ny\"; print this; \x7d \x7d A(); print nil;"
    let s := Session.initial .unlimited fun _ => 0
    s.machine.sink.limit = none ∧
    s.limited 1 = .initial { Sink.unlimited with limit := some 1 } (fun _ => 0) ∧
    (s.limited 1).Rejects 20 source ∧
    ∃ report after report' after' here piece, s.run 20 source = some (report, after) ∧
      (s.limited 1).run 20 source = some (report', after') ∧
      report.output = "x\ny\n<class instance A>\nnil\n" ∧ report'.output = "x\ny" ∧
      report'.diagnostics = ⟨[], some (.output "pipe closed")⟩ ∧
      report'.diagnostics.exitCode = 70 ∧ (s.limited 1).StopsAt 20 source here piece ∧
      (report'.output ++ piece).toList <+: report.output.toList := by
  intro source s
  have printed : (s.run 20 source).any
      (fun p => p.1.output = "x\ny\n<class instance A>\nnil\n") ∧
      ((s.limited 1).run 20 source).any (fun p => p.1.output = "x\ny") ∧
      ((s.limited 1).runOr (throw .outOfFuel) 20 source).isNone := by
    decide +kernel
  obtain ⟨whole, part, stuck⟩ := printed
  obtain ⟨⟨report, after⟩, ran, output⟩ := (Option.any_eq_true _ _).1 whole
  obtain ⟨report', after', ran', -, -, stops⟩ := run_truncated s rfl 20 source 1 ran
  have output' : report'.output = "x\ny" := by simpa [ran'] using part
  have rejects : (s.limited 1).Rejects 20 source :=
    ⟨throw .outOfFuel, by rw [Option.isNone_iff_eq_none.1 stuck, ran']; nofun⟩
  obtain ⟨failure, -, code, here, piece, stopped, -, before⟩ := stops rejects
  exact ⟨rfl, rfl, rejects, report, after, report', after', here, piece, ran, ran',
    of_decide_eq_true output, output', failure, code, stopped, before⟩

end Session

end Lox
