import TapeFlow.Codec.Graph
import TapeFlow.Codec.Options
import TapeFlow.File
import TapeFlow.Graph.Listing
import TapeFlow.Machine.Run
import TapeFlow.Source.Location

/-!
# The command line

A program is compiled, and its module is listed, written as JSON or run.  What
is to be done is worked out here without doing it: `plan` says what to write
and with which status to end, and asks for the standard input only if the
program is to be run.
-/

namespace TapeFlow

/-- What was asked for. -/
structure Invocation where
  /-- The path of the program. -/
  program : String
  /-- The path of the options. -/
  options : Option String := none
  /-- Whether the module is written as JSON. -/
  json : Bool := false
  /-- Whether the program is run; then nothing else is written. -/
  run : Bool := false
  deriving DecidableEq

/-- What is written, and the status at the end. -/
structure Response where
  /-- The status. -/
  status : Nat
  /-- The bytes for the standard output. -/
  output : List UInt8
  /-- The text for the standard error. -/
  errors : String
  deriving DecidableEq

/-- What is to be done. -/
inductive Plan where
  /-- Only to respond. -/
  | respond (response : Response)
  /-- To read the standard input first. -/
  | withInput (response : List UInt8 → Response)

/-- The response once the standard input is known. -/
def Plan.respondTo (input : List UInt8) : Plan → Response
  | respond response => response
  | withInput response => response input

namespace Invocation

/-- How the command line is written. -/
def usage : String := "usage: PROGRAM [--options FILE] [--json] [--run]"

/-- Read the arguments from left to right. -/
def parseArgs (program : Option String) (rest : Invocation) : List String → Option Invocation
  | [] => program.map fun path => { rest with program := path }
  | "--json" :: args => parseArgs program { rest with json := true } args
  | "--run" :: args => parseArgs program { rest with run := true } args
  | "--options" :: path :: args => parseArgs program { rest with options := some path } args
  | arg :: args =>
    if arg.startsWith "--options=" then
      parseArgs program { rest with options := some (arg.drop 10).toString } args
    else if arg.startsWith "--" || program.isSome then
      none
    else
      parseArgs (some arg) rest args

/-- Read the arguments. -/
def parse? (args : List String) : Option Invocation := parseArgs none { program := "" } args

end Invocation

namespace Response

/-- Everything went well. -/
def success (output : List UInt8) : Response := ⟨0, output, ""⟩

/-- Something went wrong. -/
def failure (message : String) : Response := ⟨1, [], s!"Error: {message}\n"⟩

/-- A file could not be read. -/
def unreadable (doing : String) (cause : ReadFailure) : Response :=
  failure s!"{doing}\n\nCaused by:\n    {cause.message}"

end Response

namespace CommandLine

/-- The bytes of a text. -/
def bytes (text : String) : List UInt8 := text.toUTF8.data.toList

/-- The options a file holds, or the default ones. -/
def readOptions (read : ReadFile) : Option String → Except Response Options
  | none => .ok {}
  | some path =>
    match (read path).bind decodeText with
    | .error cause => .error (.unreadable s!"reading options from {path}" cause)
    | .ok text =>
      match Options.parse text with
      | .ok options => .ok options
      | .error e => .error (.failure e.message)

/-- An error with the place in the source it points at. -/
def locate (path : String) (source : Source) (e : Error) : String :=
  match e.offset? with
  | some offset =>
    let place := Location.ofOffset source offset
    s!"{path}:{place.line}:{place.column}: {e.message}"
  | none => e.message

/-- Run a module on an input. -/
def execute (symbols : Symbols) (m : Module) (fuel : Nat) (input : List UInt8) : Response :=
  match (Executor.run ⟨symbols, none, {}⟩ m input fuel).1 with
  | some (.ok outcome) => .success outcome.output.toList
  | some (.error fault) => .failure fault.toError.message
  | none => .failure (Fault.stepLimit fuel).toError.message

/-- Work out what is to be done.  The options are read before the program. -/
def plan (read : ReadFile) (fuel : Nat) (i : Invocation) : Plan :=
  match readOptions read i.options with
  | .error response => .respond response
  | .ok options =>
    match read i.program with
    | .error cause => .respond (.unreadable s!"reading {i.program}" cause)
    | .ok source =>
      match (compile options source).1 with
      | .error e => .respond (.failure (locate i.program source e))
      | .ok compiled =>
        if i.run then .withInput (execute options.symbols compiled.result fuel)
        else if i.json then .respond (.success (bytes (compiled.result.jsonText ++ "\n")))
        else .respond (.success (bytes compiled.result.text))

end CommandLine

end TapeFlow
