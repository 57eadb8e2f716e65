import Lox.Token

/-!
# Diagnostics

A `Diagnostic` is one message to the user, with the place it is about.  Lexical, syntax and scope
errors are *static*: they prevent execution, and any number of them is reported.  A run-time error
or a failure of the output ends the execution, so at most one of them counts: `Diagnostics` keeps
the first.
-/

namespace Lox

/-- A message to the user.  Syntax, scope and run-time errors are about a token. -/
inductive Diagnostic where
  | lexical (message : String) (line : Nat)
  | grammatical (message : String) (culprit : Token)
  | scoping (message : String) (culprit : Token)
  | runtime (message : String) (culprit : Token)
  | output (message : String)
deriving DecidableEq, Repr

def Token.location (t : Token) : String :=
  match t.kind with
  | .eof => " at end"
  | _ => " at '" ++ t.lexeme ++ "'"

namespace Diagnostic

def message : Diagnostic → String
  | .lexical message _ => message
  | .grammatical message _ => message
  | .scoping message _ => message
  | .runtime message _ => message
  | .output message => message

/-- The line that the message is about.  A failure of the output is about none. -/
def line? : Diagnostic → Option Nat
  | .lexical _ line => some line
  | .grammatical _ culprit => some culprit.line
  | .scoping _ culprit => some culprit.line
  | .runtime _ culprit => some culprit.line
  | .output _ => none

def staticText (message location : String) (line : Nat) : String :=
  "[line " ++ toString line ++ "] Error" ++ location ++ ": " ++ message

def text : Diagnostic → String
  | .lexical message line => staticText message "" line
  | .grammatical message culprit => staticText message culprit.location culprit.line
  | .scoping message culprit => staticText message culprit.location culprit.line
  | .runtime message culprit => message ++ "\n[line " ++ toString culprit.line ++ "]"
  | .output message => message

/-- Does the message end an execution, rather than prevent it? -/
def endsRun : Diagnostic → Bool
  | .runtime _ _ => true
  | .output _ => true
  | _ => false

end Diagnostic

/-- The messages about one piece of work: the static errors in order, and what ended the
execution, if something did. -/
structure Diagnostics where
  static : List Diagnostic
  failure : Option Diagnostic
deriving DecidableEq, Repr

namespace Diagnostics

def none : Diagnostics := ⟨[], .none⟩

/-- Adds a message.  Only the first one that ends an execution is kept. -/
def report (d : Diagnostics) (message : Diagnostic) : Diagnostics :=
  if message.endsRun then { d with failure := d.failure.or (some message) }
  else { d with static := d.static ++ [message] }

def hasError (d : Diagnostics) : Bool := !d.static.isEmpty

def hasFailure (d : Diagnostics) : Bool := d.failure.isSome

def all (d : Diagnostics) : List Diagnostic := d.static ++ d.failure.toList

/-- The exit code of a program with these messages: 65 for a faulty program, 70 for a failed run. -/
def exitCode (d : Diagnostics) : Nat :=
  if d.hasError then 65 else if d.hasFailure then 70 else 0

end Diagnostics

end Lox
