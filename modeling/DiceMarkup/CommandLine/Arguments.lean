/-
  DiceMarkup.CommandLine.Arguments

  The arguments of the command line: a command, and after it at most one path
  and the options that the command takes.

  Options may stand before or after the path, and `--diagnostics` before the
  command as well; given on both sides, the one after the command counts. The
  value of an option follows it as the next argument or after `=`. After `--`
  every argument is a path.
-/
import DiceMarkup.Numeral

namespace DiceMarkup.CommandLine

/-- The form of the diagnostics on the error output. -/
inductive DiagnosticsForm where
  | json | pretty
deriving DecidableEq

/-- What to do with the text that is read. -/
inductive Command where
  /-- Print its tree. -/
  | parse
  /-- Take it as submitted, roll its dice for good and print what is to be stored. -/
  | bake (seed : Option UInt64)
  /-- Print it as it is shown; fresh dice are not rolled if so asked, and then reported. -/
  | view (seed : Option UInt64) (noRoll : Bool)
  /-- Print it without the results of its dice. -/
  | unbake
deriving DecidableEq

/-- What a run is asked to do. -/
structure Invocation where
  command : Command
  /-- The file to read; the standard input if there is none. -/
  path : Option String
  diagnostics : Option DiagnosticsForm
deriving DecidableEq

/-- What the arguments ask for. -/
inductive Request where
  | run (invocation : Invocation)
  | version
deriving DecidableEq

/-- The arguments ask for nothing that there is. -/
inductive Misuse where
  | misuse
deriving DecidableEq

/-! ## Options -/

/-- A long option: its name and the value attached with `=`. -/
structure LongOption where
  name : String
  attached : Option String
deriving DecidableEq

/-- An argument that starts with `--` and goes on is a long option. -/
def LongOption.ofArgument? (argument : String) : Option LongOption :=
  match argument.toList with
  | '-' :: '-' :: c :: cs =>
    let name := (c :: cs).takeWhile (· ≠ '=')
    match (c :: cs).drop name.length with
    | _ :: value => some ⟨String.ofList name, some (String.ofList value)⟩
    | [] => some ⟨String.ofList name, none⟩
  | _ => none

/-- A minus sign and more: an option, and not a value or a path. -/
def looksLikeOption (argument : String) : Bool :=
  match argument.toList with
  | '-' :: _ :: _ => true
  | _ => false

/-- The value of an option, attached or next in line, and the arguments after it. -/
def LongOption.value (option : LongOption) (arguments : List String) :
    Except Misuse (String × List String) :=
  match option.attached, arguments with
  | some value, _ => .ok (value, arguments)
  | none, next :: others => if looksLikeOption next then .error .misuse else .ok (next, others)
  | none, [] => .error .misuse

def DiagnosticsForm.ofText (text : String) : Except Misuse DiagnosticsForm :=
  if text = "json" then .ok .json
  else if text = "pretty" then .ok .pretty
  else .error .misuse

def seedOfText (text : String) : Except Misuse UInt64 :=
  match Numeral.readUInt64 text.toList with
  | .ok seed => .ok seed
  | .error _ => .error .misuse

/-- Fills a place that may be filled only once. -/
def fill {α : Type} (place : Option α) (value : α) : Except Misuse (Option α) :=
  if place.isSome then .error .misuse else .ok (some value)

/-- The arguments after the command, as far as they have been read. -/
structure Given where
  path : Option String := none
  diagnostics : Option DiagnosticsForm := none
  seed : Option UInt64 := none
  noRoll : Bool := false

/-- The names of the commands, and which options they take. -/
inductive CommandName where
  | parse | bake | view | unbake
deriving DecidableEq

namespace CommandName

def ofText? (text : String) : Option CommandName :=
  if text = "parse" then some parse
  else if text = "preprocess" then some bake
  else if text = "prerender" then some view
  else if text = "original" then some unbake
  else none

def takesSeed : CommandName → Bool
  | bake | view => true
  | _ => false

def takesNoRoll : CommandName → Bool
  | view => true
  | _ => false

/-- The command with its options. -/
def command (name : CommandName) (given : Given) : Command :=
  match name with
  | parse => .parse
  | bake => .bake given.seed
  | view => .view given.seed given.noRoll
  | unbake => .unbake

end CommandName

/-! ## Reading the arguments -/

/-- Takes an argument as the path. -/
def Given.withPath (given : Given) (argument : String) : Except Misuse Given := do
  if argument.isEmpty then throw .misuse
  return { given with path := ← fill given.path argument }

/-- Reads the arguments after `--`. -/
def readPaths (given : Given) : List String → Except Misuse Given
  | [] => .ok given
  | argument :: arguments => do readPaths (← given.withPath argument) arguments

/-- Takes one option, and its value if it has one; the result holds the arguments after them. -/
def Given.withOption (given : Given) (name : CommandName) (option : LongOption)
    (arguments : List String) : Except Misuse (Given × List String) := do
  if option.name = "diagnostics" then
    let (value, others) ← option.value arguments
    let form ← DiagnosticsForm.ofText value
    return ({ given with diagnostics := ← fill given.diagnostics form }, others)
  else if option.name = "seed" && name.takesSeed then
    let (value, others) ← option.value arguments
    let seed ← seedOfText value
    return ({ given with seed := ← fill given.seed seed }, others)
  else if option.name = "no-roll" && name.takesNoRoll && option.attached.isNone then
    if given.noRoll then throw .misuse
    return ({ given with noRoll := true }, arguments)
  else throw .misuse

/-- Reads the arguments after the command. Each step reads one argument or more, so there are no
    more steps than arguments. -/
def readGiven (name : CommandName) (given : Given) :
    (steps : Nat) → List String → Except Misuse Given
  | _, [] => .ok given
  | 0, _ :: _ => .error .misuse
  | steps + 1, argument :: arguments =>
    if argument = "--" then readPaths given arguments
    else
      match LongOption.ofArgument? argument with
      | some option => do
        let (given, others) ← given.withOption name option arguments
        readGiven name given steps others
      | none => do
        if looksLikeOption argument then throw .misuse
        readGiven name (← given.withPath argument) steps arguments

/-- Reads the arguments from the command on. -/
def readCommand (diagnostics : Option DiagnosticsForm) (argument : String)
    (arguments : List String) : Except Misuse Request := do
  match CommandName.ofText? argument with
  | none => throw .misuse
  | some name =>
    let given ← readGiven name {} arguments.length arguments
    if given.noRoll && given.seed.isSome then throw .misuse
    return .run
      { command := name.command given
        path := given.path
        diagnostics := given.diagnostics.or diagnostics }

/-- Reads the arguments up to the command. -/
def readLeading (diagnostics : Option DiagnosticsForm) :
    (steps : Nat) → List String → Except Misuse Request
  | _, [] => .error .misuse
  | 0, _ :: _ => .error .misuse
  | steps + 1, argument :: arguments =>
    match LongOption.ofArgument? argument with
    | some option =>
      if option.name = "diagnostics" then do
        let (value, others) ← option.value arguments
        let form ← DiagnosticsForm.ofText value
        readLeading (← fill diagnostics form) steps others
      else if option = ⟨"version", none⟩ then .ok .version
      else .error .misuse
    | none =>
      if "-V".toList.isPrefixOf argument.toList then .ok .version
      else readCommand diagnostics argument arguments

/-- What the arguments ask for. -/
def Request.ofArguments (arguments : List String) : Except Misuse Request :=
  readLeading none arguments.length arguments

end DiceMarkup.CommandLine
