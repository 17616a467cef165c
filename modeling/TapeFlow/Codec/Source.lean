import TapeFlow.Json.Shape
import TapeFlow.Source.Token

/-!
# The JSON form of commands and tokens
-/

namespace TapeFlow

namespace Command

/-- The name of a command in JSON. -/
def jsonName : Command → String
  | right => "IncrPtr"
  | left => "DecrPtr"
  | increment => "Incr"
  | decrement => "Decr"
  | output => "Output"
  | input => "Input"
  | loopOpen => "LoopOpen"
  | loopClose => "LoopClose"

/-- The command with a name. -/
def ofJsonName? : String → Option Command
  | "IncrPtr" => some right
  | "DecrPtr" => some left
  | "Incr" => some increment
  | "Decr" => some decrement
  | "Output" => some output
  | "Input" => some input
  | "LoopOpen" => some loopOpen
  | "LoopClose" => some loopClose
  | _ => none

/-- A command as JSON. -/
def toJson (c : Command) : Json := .ofString c.jsonName

/-- A command from JSON. -/
def ofJson? (j : Json) : Option Command := j.unit?.bind ofJsonName?

end Command

namespace Token

/-- A token as JSON. -/
def toJson (t : Token) : Json :=
  .ofMembers [("kind", t.command.toJson), ("offset", .ofInt t.offset)]

/-- A token from JSON. -/
def ofJson? (j : Json) : Option Token := do
  match ← j.record? ["kind", "offset"] fun _ => none with
  | [command, offset] => return ⟨← Command.ofJson? command, ← offset.natBelow? UInt64.size⟩
  | _ => none

end Token

end TapeFlow
