import Lox.Session
import Lox.Token.Cursor
import Lox.Token.Listing
import Lox.Program.Printer
import Lox.Text.Quoted
import Lox.Text.Utf8

/-!
# The command line

What the program does for the arguments it is started with.  A `Command` lists the tokens of a
file, prints its syntax tree, or runs it; or it is the prompt, which runs line after line in one
session.  The `Outcome` of a command is what it writes and its exit code.

Files and the terminal are not in here: a command on a file takes the bytes of the file or the
reason why there are none, and the prompt takes the lines that are entered.  Nor are the texts about
the arguments themselves, such as what a usage error or a request for help says.
-/

namespace Lox

inductive Command where
  | tokenize (path : String) (asJson : Bool)
  | parse (path : String)
  | run (path : String)
  | prompt
deriving DecidableEq, Repr

structure Outcome where
  stdout : String
  stderr : String
  code : Nat
deriving DecidableEq, Repr

/-- The arguments that are options, and all others.  A single dash is an ordinary argument, and a
double dash makes every argument after it an ordinary one. -/
def splitArguments : List String → List String × List String
  | [] => ([], [])
  | argument :: rest =>
    if argument = "--" then ([], rest)
    else
      let (options, words) := splitArguments rest
      if argument.startsWith "-" && argument ≠ "-" then (argument :: options, words)
      else (options, argument :: words)

/-- The command that the arguments ask for, if they make sense.  Logging is accepted everywhere and
shows in no output; without a command there is the prompt. -/
def Command.ofArguments? (arguments : List String) : Option Command :=
  let (options, words) := splitArguments arguments
  let options := options.filter (· ≠ "--log")
  match words, options with
  | [], [] => some .prompt
  | ["repl"], [] => some .prompt
  | ["run", path], [] => some (.run path)
  | ["parse", path], [] => some (.parse path)
  | ["tokenize", path], [] => some (.tokenize path false)
  | ["tokenize", path], ["--json"] => some (.tokenize path true)
  | _, _ => none

def Command.path? : Command → Option String
  | .tokenize path _ => some path
  | .parse path => some path
  | .run path => some path
  | .prompt => none

/-- Lines of text, each with its line end. -/
def unlines (lines : List String) : String := String.join (lines.map (· ++ "\n"))

namespace Outcome

def silent : Outcome := ⟨"", "", 0⟩

def failure (problem cause : String) : Outcome :=
  ⟨"", "Error: " ++ problem ++ "\n\nCaused by:\n    " ++ cause ++ "\n", 1⟩

/-- Arguments that ask for no command: the code of a usage error, without a text. -/
def misuse : Outcome := ⟨"", "", 2⟩

/-- The outcome of a program that breaks down, for which there is nothing more to say. -/
def breakdown : Outcome := ⟨"", "", 101⟩

/-- The tokens of a scan, one on a line. -/
def ofItems (asJson : Bool) (items : List Item) : Outcome :=
  let errors := (lexicalErrorsOf items).map LexicalError.diagnostic
  ⟨unlines ((tokensOf items).map fun t => if asJson then t.json else t.listing),
    unlines (errors.map Diagnostic.text), if errors.isEmpty then 0 else 65⟩

def ofReport (report : Report) : Outcome :=
  ⟨report.output, unlines (report.diagnostics.all.map Diagnostic.text),
    report.diagnostics.exitCode⟩

end Outcome

inductive FileFault where
  | missing
  | denied
  /-- The path or a name in it is longer than the system takes. -/
  | nameTooLong
  /-- The path goes on after the name of a file. -/
  | notDirectory
  /-- The path leads to a directory, which opens but holds no bytes. -/
  | directory
deriving DecidableEq, Repr

def FileFault.problem : FileFault → String
  | .directory => "Failed to map file "
  | _ => "Failed to open file "

/-- The cause of the failure, in the words of the system. -/
def FileFault.cause : FileFault → String
  | .missing => "No such file or directory (os error 2)"
  | .denied => "Permission denied (os error 13)"
  | .nameTooLong => "File name too long (os error 36)"
  | .notDirectory => "Not a directory (os error 20)"
  | .directory => "No such device (os error 19)"

/-- The source text in a file, given its bytes or the reason why there are none. -/
def sourceOf (path : String) (contents : Except FileFault (List UInt8)) :
    Except Outcome String :=
  match contents with
  | .error fault => .error (.failure (fault.problem ++ Text.quoted path) fault.cause)
  | .ok bytes =>
    match Utf8.decode bytes with
    | .error fault =>
      .error (.failure ("File " ++ Text.quoted path ++ " is not valid UTF-8") fault.message)
    | .ok source => .ok source

/-- Lists the tokens of a source text as a cursor over its bytes finds them. -/
def tokenizeSource (asJson : Bool) (source : String) : Outcome :=
  match scanBytes source with
  | .ok items => .ofItems asJson items
  | .error _ => .breakdown

/-- Prints the syntax tree of a source text, one statement on a line. -/
def parseSource (source : String) : Outcome :=
  let chunk := Chunk.read source 0
  if chunk.errors.isEmpty then ⟨unlines (chunk.statements.map Stmt.printed), "", 0⟩
  else ⟨"", unlines (chunk.errors.map Diagnostic.text), 65⟩

def runSource (fuel : Nat) (source : String) (session : Session) : Option Outcome :=
  (session.run fuel source).map fun (report, _) => .ofReport report

def promptText : String := "> "

/-- A line as it is run, without the line end. -/
def chomped (line : String) : String :=
  String.ofList ((line.toList.reverse.dropWhile fun c => c = '\n' || c = '\r').reverse)

/-- Runs lines that are entered one after the other, up to the first empty one. -/
def promptLines (fuel : Nat) : List String → Session → Option Outcome
  | [], _ => some ⟨promptText, "", 0⟩
  | line :: rest, session => do
    let source := chomped line
    if source.isEmpty then return ⟨promptText, "", 0⟩
    let (report, session) ← session.run fuel source
    let first := Outcome.ofReport report
    let others ← promptLines fuel rest session
    return ⟨promptText ++ first.stdout ++ others.stdout, first.stderr ++ others.stderr, 0⟩

/-- The outcome of a command on a file, given the bytes of the file or the reason why there are
none.  The session is the one a program is run in. -/
def Command.onFile (fuel : Nat) (command : Command) (contents : Except FileFault (List UInt8))
    (session : Session) : Option Outcome :=
  match sourceOf (command.path?.getD "") contents with
  | .error outcome => some outcome
  | .ok source =>
    match command with
    | .tokenize _ asJson => some (tokenizeSource asJson source)
    | .parse _ => some (parseSource source)
    | .run _ => runSource fuel source session
    | .prompt => some .silent

end Lox
