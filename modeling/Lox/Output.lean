import Lox.Diagnostic

/-!
# Output

Where a program prints to.  A `Sink` collects text piece by piece and counts the line ends that it
has accepted.  It may have a limit on these: once they have reached it, every further piece is
rejected.  It may also fail when it is flushed.
-/

namespace Lox

inductive OutputError where
  | closed
  | flushFailed
deriving DecidableEq, Repr

def OutputError.message : OutputError → String
  | .closed => "pipe closed"
  | .flushFailed => "flush failed"

def OutputError.diagnostic (e : OutputError) : Diagnostic := .output e.message

structure Sink where
  /-- The text accepted since the sink was last emptied. -/
  text : String
  /-- The number of line ends accepted since the beginning. -/
  newlines : Nat
  /-- The number of line ends after which nothing more is accepted. -/
  limit : Option Nat
  flushable : Bool
deriving Repr

namespace Sink

def unlimited : Sink := ⟨"", 0, none, true⟩

/-- Is a piece of text accepted?  The empty piece always is. -/
def accepts (s : Sink) (piece : String) : Bool :=
  piece.isEmpty || match s.limit with
    | none => true
    | some limit => s.newlines < limit

def append (s : Sink) (piece : String) : Sink :=
  { s with text := s.text ++ piece, newlines := s.newlines + piece.toList.count '\n' }

def emptied (s : Sink) : Sink := { s with text := "" }

end Sink

end Lox
