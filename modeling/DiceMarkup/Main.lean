/-
  DiceMarkup.Main

  The command line as a program. It reads the arguments, the input and the
  surroundings of the run, and prints what the run comes to.
-/
import DiceMarkup.CommandLine.Run

namespace DiceMarkup.CommandLine

/-- How arguments that ask for nothing are answered. -/
def usage : String :=
  "Usage: tom [--diagnostics <json|pretty>] <COMMAND>\n\n" ++
  "Commands:\n" ++
  "  parse [INPUT]                            Print the parse tree as JSON\n" ++
  "  preprocess [INPUT] [--seed N]            Print the text to store, dice baked\n" ++
  "  prerender [INPUT] [--seed N | --no-roll] Print the prerendered tree as JSON\n" ++
  "  original [INPUT]                         Print stored text with dice results removed\n"

/-- Why a file cannot be read. -/
def reasonOf (error : IO.Error) : String :=
  match error with
  | .noFileOrDirectory .. => "No such file or directory (os error 2)"
  | .inappropriateType .. => "Is a directory (os error 21)"
  | .permissionDenied .. => "Permission denied (os error 13)"
  | other => toString other

/-- Everything that the standard input holds. -/
partial def readAll (stream : IO.FS.Stream) (read : ByteArray) : IO ByteArray := do
  let chunk ← stream.read 65536
  if chunk.isEmpty then return read else readAll stream (read ++ chunk)

def readInput (path : Option String) : IO (Except String ByteArray) := do
  try
    match path with
    | some path => return .ok (← IO.FS.readBinFile path)
    | none => return .ok (← readAll (← IO.getStdin) .empty)
  catch error => return .error (reasonOf error)

end DiceMarkup.CommandLine

open DiceMarkup.CommandLine in
/-- Answers one call of the program. -/
def main (arguments : List String) : IO UInt32 := do
  match Request.ofArguments arguments with
  | .error _ =>
    (← IO.getStderr).putStr usage
    return 2
  | .ok .version =>
    (← IO.getStdout).putStr versionOutcome.output
    return 0
  | .ok (.run invocation) =>
    let input ← readInput invocation.path
    let seed ← IO.getEnv "TOM_SEED"
    let debug ← IO.getEnv "TOM_DEBUG"
    let clock ← IO.monoNanosNow
    let outcome := run invocation
      { input := input
        seed := seed
        debug := debug.isSome
        clock := UInt64.ofNat clock }
    (← IO.getStdout).putStr outcome.output
    (← IO.getStderr).putStr outcome.errors
    return UInt32.ofNat outcome.status
