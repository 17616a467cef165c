import TapeFlow.Json.Lexeme

/-!
# Reading JSON

A text is read lexeme by lexeme.  What is open is kept on a stack of frames, so
that values can be nested to any depth; `Reader.step` says what a lexeme does to
the stack.  A text is a JSON text if the reader takes all its lexemes and then
holds exactly one finished value.
-/

namespace TapeFlow

namespace Json

/-- An array or an object that is still open, with what has been read of it,
the last first. -/
inductive Frame where
  /-- An array and its items. -/
  | array (items : List Json)
  /-- An object, its members and the name of the value that is being read. -/
  | object (members : List (Option String × Json)) (name : Option String)

/-- What a reader waits for, or what it has just read. -/
inductive Mode where
  /-- A value has to come. -/
  | value
  /-- An array has been opened: a value or its end has to come. -/
  | firstItem
  /-- An object has been opened: a name or its end has to come. -/
  | firstName
  /-- A name has to come, after these members. -/
  | name (members : List (Option String × Json))
  /-- A colon has to come, after these members and this name. -/
  | colon (members : List (Option String × Json)) (name : Option String)
  /-- A value has been read. -/
  | finished (value : Json)

/-- A reader in the middle of a text. -/
structure Reader where
  /-- The arrays and objects that are open, the innermost first. -/
  stack : List Frame
  /-- What comes next. -/
  mode : Mode

namespace Reader

/-- The first lexeme of a value. -/
def startValue (stack : List Frame) : Lexeme → Option Reader
  | .null => some ⟨stack, .finished .null⟩
  | .bool b => some ⟨stack, .finished (.bool b)⟩
  | .number n => some ⟨stack, .finished (.number n)⟩
  | .text t => some ⟨stack, .finished (.string t)⟩
  | .openArray => some ⟨.array [] :: stack, .firstItem⟩
  | .openObject => some ⟨stack, .firstName⟩
  | _ => none

/-- The lexeme after a value: the value belongs to the innermost open frame. -/
def afterValue (value : Json) : List Frame → Lexeme → Option Reader
  | .array items :: stack, .comma => some ⟨.array (value :: items) :: stack, .value⟩
  | .array items :: stack, .closeArray =>
    some ⟨stack, .finished (.array (value :: items).reverse)⟩
  | .object members name :: stack, .comma => some ⟨stack, .name ((name, value) :: members)⟩
  | .object members name :: stack, .closeObject =>
    some ⟨stack, .finished (.object ((name, value) :: members).reverse)⟩
  | _, _ => none

/-- What a lexeme does; `none` if it cannot stand here. -/
def step (r : Reader) (l : Lexeme) : Option Reader :=
  match r.mode, l with
  | .value, l => startValue r.stack l
  | .firstItem, .closeArray => some ⟨r.stack.tail, .finished (.array [])⟩
  | .firstItem, l => startValue r.stack l
  | .firstName, .closeObject => some ⟨r.stack, .finished (.object [])⟩
  | .firstName, .text t => some ⟨r.stack, .colon [] t⟩
  | .name members, .text t => some ⟨r.stack, .colon members t⟩
  | .colon members name, .colon => some ⟨.object members name :: r.stack, .value⟩
  | .finished value, l => afterValue value r.stack l
  | _, _ => none

/-- Read all lexemes of a text. -/
def run (r : Reader) (cs : List Char) : Option Reader :=
  match _h : scan cs with
  | .nothing => some r
  | .malformed => none
  | .lexeme l rest =>
    match r.step l with
    | some r' => run r' rest
    | none => none
termination_by cs.length
decreasing_by exact scan_shorter _h

/-- A reader at the start of a text. -/
def start : Reader := ⟨[], .value⟩

/-- The value of a text that has been read to its end. -/
def result? : Reader → Option Json
  | ⟨[], .finished value⟩ => some value
  | _ => none

end Reader

/-- The value of a JSON text. -/
def parse? (text : String) : Option Json := (Reader.start.run text.toList).bind Reader.result?

end Json

end TapeFlow
