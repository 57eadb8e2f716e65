import Lox.Token.Scan
import Lox.Grammar.Statement
import Lox.Evaluation

/-!
# Sessions

A session runs pieces of source text, its *chunks*, one after the other.  What one chunk declares
is there for the next.  `Session.run` runs a chunk and reports what it printed and what went wrong.

A chunk is executed only if it has no static error: spelling and grammar are checked first, names
and scopes only in a chunk that passes.  A run-time error ends the chunk, not the session.  Sites
are handed out over the whole session, also to chunks that are not executed.
-/

namespace Lox

def LexicalError.diagnostic (e : LexicalError) : Diagnostic := .lexical e.message e.line

structure Session where
  machine : Machine
  /-- The first site that is still free. -/
  nextSite : Site

structure Report where
  output : String
  diagnostics : Diagnostics
deriving DecidableEq, Repr

/-- A source text read up to the grammar: its statements, the static errors so far, and the first
free site. -/
structure Chunk where
  statements : List Stmt
  errors : List Diagnostic
  nextSite : Site

/-- Reads a source text, handing out sites from `firstSite` on. -/
def Chunk.read (source : String) (firstSite : Site) : Chunk :=
  let items := scan source
  let parsed := parse (tokensOf items) firstSite
  ⟨parsed.statements,
    (lexicalErrorsOf items).map LexicalError.diagnostic ++
      parsed.errors.map GrammarError.diagnostic,
    parsed.nextSite⟩

namespace Machine

/-- Records a binding.  What belongs to the whole program has no distance. -/
def recordBinding (m : Machine) (b : Binding) : Machine :=
  match b.distance with
  | some distance => m.record b.site distance
  | none => m

def recordAll (m : Machine) (bindings : List Binding) : Machine :=
  bindings.foldl recordBinding m

def emptied (m : Machine) : Machine := { m with sink := m.sink.emptied }

end Machine

/-- The message about a halt, unless the run was out of fuel. -/
def Halt.diagnostic? : Halt → Option Diagnostic
  | .error e => some e.diagnostic
  | .output e => some e.diagnostic
  | .outOfFuel => none

namespace Session

def initial (sink : Sink) (clock : Nat → Float) : Session := ⟨Machine.initial sink clock, 0⟩

/-- Executes a chunk without static errors. -/
def perform (fuel : Nat) (statements : List Stmt) (nextSite : Site) (m : Machine) :
    Option (Report × Session) :=
  match executeAll fuel statements m with
  | .ok _ m => some (⟨m.sink.text, .none⟩, ⟨m, nextSite⟩)
  | .error halt m =>
    halt.diagnostic?.map fun d => (⟨m.sink.text, ⟨[], some d⟩⟩, ⟨m, nextSite⟩)

/-- Runs a chunk.  There is no result only if the fuel runs out. -/
def run (fuel : Nat) (source : String) (s : Session) : Option (Report × Session) :=
  let chunk := Chunk.read source s.nextSite
  let m := s.machine.emptied
  if chunk.errors.isEmpty then
    let findings := analyze chunk.statements
    let m := m.recordAll (bindingsOf findings)
    match scopeErrorsOf findings with
    | [] => perform fuel chunk.statements chunk.nextSite m
    | errors =>
      some (⟨"", ⟨errors.map ScopeError.diagnostic, none⟩⟩, ⟨m, chunk.nextSite⟩)
  else some (⟨"", ⟨chunk.errors, none⟩⟩, ⟨m, chunk.nextSite⟩)

def runAll (fuel : Nat) : List String → Session → Option (List Report × Session)
  | [], s => some ([], s)
  | source :: rest, s => do
    let (report, s) ← s.run fuel source
    let (reports, s) ← s.runAll fuel rest
    return (report :: reports, s)

end Session

end Lox
