import TapeFlow.Json.Value

/-!
# Writing JSON

A value is written in one of two layouts: on one line without any blanks, or
with an item on each line, indented by two blanks for each level.  Strings are
written as they are, except for quotes, backslashes and control characters.

The functions here write in front of a text that follows, which makes them
linear in what they write.
-/

namespace TapeFlow

namespace Json

/-- How a value is laid out. -/
inductive Layout where
  /-- On one line, without blanks. -/
  | compact
  /-- An item on each line. -/
  | pretty
  deriving DecidableEq

namespace Layout

/-- What separates items that are indented by so many levels. -/
def newline : Layout → Nat → List Char
  | compact, _ => []
  | pretty, depth => '\n' :: List.replicate (2 * depth) ' '

/-- What separates a name from its value. -/
def colon : Layout → List Char
  | compact => [':']
  | pretty => [':', ' ']

end Layout

/-- A character inside a string. -/
def writeChar (c : Char) : List Char :=
  if c = '"' then ['\\', '"']
  else if c = '\\' then ['\\', '\\']
  else if c = '\x08' then ['\\', 'b']
  else if c = '\x0c' then ['\\', 'f']
  else if c = '\n' then ['\\', 'n']
  else if c = '\r' then ['\\', 'r']
  else if c = '\t' then ['\\', 't']
  else if c.toNat < 0x20 then
    ['\\', 'u', '0', '0', Nat.digitChar (c.toNat / 16), Nat.digitChar (c.toNat % 16)]
  else [c]

/-- A string.  What is no text is written as some other string that is none. -/
def writeText (t : Option String) (rest : List Char) : List Char :=
  match t with
  | some s => '"' :: (s.toList.flatMap writeChar ++ '"' :: rest)
  | none => '"' :: '\\' :: 'u' :: 'd' :: '8' :: '0' :: '0' :: '"' :: rest

/-- A number.  What is no integer is written as some other number that is
none. -/
def writeNumber (n : Option Int) (rest : List Char) : List Char :=
  match n with
  | some (.ofNat n) => Nat.toDigits 10 n ++ rest
  | some (.negSucc n) => '-' :: (Nat.toDigits 10 (n + 1) ++ rest)
  | none => '-' :: '0' :: rest

mutual

/-- Write a value in front of what follows. -/
def write (layout : Layout) (depth : Nat) : Json → List Char → List Char
  | .null, rest => 'n' :: 'u' :: 'l' :: 'l' :: rest
  | .bool true, rest => 't' :: 'r' :: 'u' :: 'e' :: rest
  | .bool false, rest => 'f' :: 'a' :: 'l' :: 's' :: 'e' :: rest
  | .number n, rest => writeNumber n rest
  | .string t, rest => writeText t rest
  | .array [], rest => '[' :: ']' :: rest
  | .array (item :: items), rest =>
    '[' :: (layout.newline (depth + 1) ++
      write layout (depth + 1) item (writeItems layout depth items rest))
  | .object [], rest => '\x7b' :: '\x7d' :: rest
  | .object ((name, value) :: members), rest =>
    '\x7b' :: (layout.newline (depth + 1) ++
      writeText name (layout.colon ++
        write layout (depth + 1) value (writeMembers layout depth members rest)))

/-- Write the items of an array after the first, and its end. -/
def writeItems (layout : Layout) (depth : Nat) : List Json → List Char → List Char
  | [], rest => layout.newline depth ++ ']' :: rest
  | item :: items, rest =>
    ',' :: (layout.newline (depth + 1) ++
      write layout (depth + 1) item (writeItems layout depth items rest))

/-- Write the members of an object after the first, and its end. -/
def writeMembers (layout : Layout) (depth : Nat) :
    List (Option String × Json) → List Char → List Char
  | [], rest => layout.newline depth ++ '\x7d' :: rest
  | (name, value) :: members, rest =>
    ',' :: (layout.newline (depth + 1) ++
      writeText name (layout.colon ++
        write layout (depth + 1) value (writeMembers layout depth members rest)))

end

/-- A value as a text. -/
def render (layout : Layout) (value : Json) : String := String.ofList (value.write layout 0 [])

end Json

end TapeFlow
