import PredictiveGrammar.CommandLine.Run

/-!
# The program

Reads the bytes of the source that the arguments name and prints the outcome; all else is decided in
`PredictiveGrammar.CommandLine.Run`.
-/

namespace PredictiveGrammar

namespace CommandLine

/-- A system error from its code, which may have come negated, and its description. -/
def ReadError.ofCode (code : UInt32) (description : String) : ReadError :=
  .system code.toInt32.toInt.natAbs description.capitalize

/-- What the system says about a failed read. -/
def ReadError.ofSystem : IO.Error → ReadError
  | .noFileOrDirectory _ code details => .ofCode code details
  | .permissionDenied _ code details => .ofCode code details
  | .inappropriateType _ code details => .ofCode code details
  | .otherError code details => .ofCode code details
  | error => .ofCode 5 (toString error)

/-- Reads the bytes of a source: standard input up to its end, or the file with that path. -/
def Source.bytes : Source → IO ByteArray
  | .stdin => do (← IO.getStdin).readBinToEnd
  | .file path => IO.FS.readBinFile path

/-- Reads the bytes of a source and decodes them. Neither bytes that are no text nor an error of the system is an
error of this action; both are answers. -/
def Source.read (source : Source) : IO (Except ReadError String) := do
  match ← source.bytes.toBaseIO with
  | .ok bytes => return decode bytes
  | .error error => return .error (.ofSystem error)

/-- The outcome for some arguments. Only the source of a command is read, and for help nothing is. -/
def outcomeOf (arguments : List String) : IO Outcome :=
  match Invocation.ofArguments arguments with
  | .help reason => return reason.outcome
  | .run command => return command.run (← command.source.read)

end CommandLine

end PredictiveGrammar

/-- Runs the program. -/
def main (arguments : List String) : IO UInt32 := do
  let outcome ← PredictiveGrammar.CommandLine.outcomeOf arguments
  IO.print outcome.stdout
  IO.eprint outcome.stderr
  return UInt32.ofNat outcome.exitCode
