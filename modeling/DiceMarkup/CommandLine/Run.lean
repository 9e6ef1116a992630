/-
  DiceMarkup.CommandLine.Run

  What a run of the command line prints and how it ends, given what it has
  read. The result goes to the standard output, and diagnostics, if they are
  asked for, to the error output. A run fails if its input or its seed cannot
  be read, or if a diagnostic is an error.
-/
import DiceMarkup.Baking
import DiceMarkup.CommandLine.Arguments
import DiceMarkup.Report
import DiceMarkup.Submission
import DiceMarkup.Unbaking

namespace DiceMarkup.CommandLine

open Rolling (Source)

/-- What a run prints and the status that it ends with. -/
structure Outcome where
  status : Nat
  output : String
  errors : String
deriving DecidableEq

/-- What a run finds around it. -/
structure Surroundings where
  /-- The bytes of the input, or why they cannot be read. -/
  input : Except String ByteArray
  /-- The seed set for all runs, as it is written. -/
  seed : Option String
  /-- Diagnostics are also printed in a form for developers. -/
  debug : Bool
  /-- The seed if none is given. -/
  clock : UInt64

/-- How a run fails before there is anything to report on. -/
inductive Failure where
  | unreadable (name reason : String)
  | invalidSeed (fault : Numeral.Fault)
deriving DecidableEq

def Failure.outcome : Failure → Outcome
  | .unreadable name reason => ⟨1, "", "failed to read " ++ name ++ ": " ++ reason ++ "\n"⟩
  | .invalidSeed fault =>
    ⟨2, "", "TOM_SEED must be an unsigned integer: " ++ fault.message ++ "\n"⟩

/-- The text of the input, which must be UTF-8. -/
def readText (invocation : Invocation) (around : Surroundings) : Except Failure String :=
  let name := invocation.path.getD "stdin"
  match around.input with
  | .error reason => .error (.unreadable name reason)
  | .ok bytes =>
    match String.fromUTF8? bytes with
    | some text => .ok text
    | none => .error (.unreadable name "stream did not contain valid UTF-8")

/-- The seed of a run: the one given to it, or the one set for all runs with any white space around
    it, or the clock. -/
def readSeed (given : Option UInt64) (around : Surroundings) : Except Failure UInt64 :=
  match given, around.seed with
  | some seed, _ => .ok seed
  | none, some written =>
    (Numeral.readUInt64 (Text.trimBlank written.toList)).mapError .invalidSeed
  | none, none => .ok around.clock

/-- The result of a command on a text, and the diagnostics on it. -/
def execute (around : Surroundings) (source : String) :
    Command → Except Failure (Reported String)
  | .parse =>
    return ((Report.ofDocument (Document.parse source)).toText ++ "\n", Document.diagnose source)
  | .bake seed => do
    let generator : Rolling.SplitMix := ⟨← readSeed seed around⟩
    let ((stored, reports), _) := (Document.ofSubmission source).bake .seeded generator
    return (Document.toText stored, Document.diagnose source ++ reports)
  -- The seed is read even if nothing will be rolled.
  | .view seed noRoll => do
    let generator : Rolling.SplitMix := ⟨← readSeed seed around⟩
    let dice := if noRoll then none else some Source.seeded
    let ((views, reports), _) := (Document.parse source).view dice generator
    return ((Report.ofShown views).toText ++ "\n", Document.diagnose source ++ reports)
  | .unbake => return (unbakedText source, [])

/-- A diagnostic in the form for developers. -/
def debugLine (diagnostic : Diagnostic) : String :=
  "tom debug: " ++ diagnostic.code ++ " " ++ diagnostic.message ++ ": " ++ diagnostic.snippet ++
    "\n"

def diagnosticsText (diagnostics : List Diagnostic) : DiagnosticsForm → String
  | .json => (Json.array (diagnostics.map Report.ofDiagnostic)).toText ++ "\n"
  | .pretty => String.join (diagnostics.map fun diagnostic => Report.summary diagnostic ++ "\n")

/-- The outcome of a run that got as far as a result. -/
def outcome (invocation : Invocation) (around : Surroundings) (result : Reported String) :
    Outcome :=
  let (output, diagnostics) := result
  let debug := if around.debug then String.join (diagnostics.map debugLine) else ""
  let report := (invocation.diagnostics.map (diagnosticsText diagnostics)).getD ""
  { status := if diagnostics.any fun diagnostic => diagnostic.severity = .error then 1 else 0
    output := output
    errors := debug ++ report }

/-- What a run prints and how it ends. -/
def run (invocation : Invocation) (around : Surroundings) : Outcome :=
  let result := do
    let source ← readText invocation around
    execute around source invocation.command
  match result with
  | .ok result => outcome invocation around result
  | .error failure => failure.outcome

/-- The answer to a question for the version. -/
def versionOutcome : Outcome := ⟨0, "tom 0.1.0\n", ""⟩

end DiceMarkup.CommandLine
