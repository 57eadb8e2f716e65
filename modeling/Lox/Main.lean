import Std.Time.DateTime.Timestamp
import Lox.Console

/-!
# The program

Starts the command line on the files and the terminal of the system.
-/

namespace Lox

/-- The bound on the nesting and the loops of a program, which no program reaches. -/
def fuel : Nat := Nat.pow 2 62

/-- A clock that starts now.  Each reading is later than the one before. -/
def startClock : IO (Nat → Float) := do
  let now ← Std.Time.Timestamp.now
  let seconds := Float.ofInt now.toNanosecondsSinceUnixEpoch.val / 1000000000
  return fun n => seconds + n.toFloat / 1000000

/-- The reason why a file has no bytes, by the system's number of the failure, which comes with
either sign. -/
def faultOf (number : UInt32) : FileFault :=
  match (min number (0 - number)).toNat with
  | 13 => .denied
  | 20 => .notDirectory
  | 21 => .directory
  | 36 => .nameTooLong
  | _ => .missing

def fileContents (path : String) : IO (Except FileFault (List UInt8)) := do
  try
    return .ok (← IO.FS.readBinFile path).toList
  catch
    | .permissionDenied _ number _ => return .error (faultOf number)
    | .inappropriateType _ number _ => return .error (faultOf number)
    | .invalidArgument _ number _ => return .error (faultOf number)
    | _ => return .error .missing

def deliver (outcome : Option Outcome) : IO UInt32 := do
  match outcome with
  | none =>
    IO.eprintln "out of fuel"
    return 70
  | some outcome =>
    IO.print outcome.stdout
    (← IO.getStdout).flush
    IO.eprint outcome.stderr
    return UInt32.ofNat outcome.code

partial def promptLoop (session : Session) : IO UInt32 := do
  IO.print promptText
  (← IO.getStdout).flush
  let source := chomped (← (← IO.getStdin).getLine)
  if source.isEmpty then return 0
  let clock ← startClock
  match { session with machine := { session.machine with clock } }.run fuel source with
  | none => deliver none
  | some (report, session) =>
    let _ ← deliver (some (.ofReport report))
    promptLoop session

def start (arguments : List String) : IO UInt32 := do
  let session := Session.initial .unlimited (← startClock)
  match Command.ofArguments? arguments with
  | none => deliver (some .misuse)
  | some .prompt => promptLoop session
  | some command =>
    deliver (command.onFile fuel (← fileContents (command.path?.getD "")) session)

end Lox

def main (arguments : List String) : IO UInt32 := Lox.start arguments
