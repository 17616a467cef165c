import TapeFlow.CommandLine

/-!
# The program

Reading the files and the standard input, and writing the response.
-/

namespace TapeFlow

/-- The failure with a number of the system, which may come negated. -/
def failureOfCode (code : UInt32) (e : IO.Error) : ReadFailure :=
  (ReadFailure.ofCode? (min code (0 - code)).toNat).getD (.other (toString e))

/-- Read a file, or say why it cannot be read. -/
def readPath (path : String) : IO (Except ReadFailure (List UInt8)) := do
  match pathFault? path with
  | some failure => return .error failure
  | none =>
    try
      return .ok (← IO.FS.readBinFile path).data.toList
    catch e =>
      match e with
      | .noFileOrDirectory _ code _ | .inappropriateType _ code _ | .invalidArgument _ code _ =>
        return .error (failureOfCode code e)
      | _ => return .error (.other (toString e))

/-- Write a response and return its status. -/
def writeResponse (response : Response) : IO UInt32 := do
  (← IO.getStdout).write ⟨response.output.toArray⟩
  (← IO.getStderr).putStr response.errors
  return response.status.toUInt32

end TapeFlow

open TapeFlow in
/-- Do what the arguments ask for. -/
def main (args : List String) : IO UInt32 := do
  match Invocation.parse? args with
  | none =>
    IO.eprintln Invocation.usage
    return 2
  | some invocation =>
    let program ← readPath invocation.program
    let options ← match invocation.options with
      | some path => readPath path
      | none => pure program
    let read : ReadFile := fun path => if invocation.options = some path then options else program
    match CommandLine.plan read Executor.horizon invocation with
    | .respond response => writeResponse response
    | .withInput respond =>
      let input ← (← IO.getStdin).readBinToEnd
      writeResponse (respond input.data.toList)
