/-!
# JSON values

A JSON text denotes a tree.  Two kinds of leaf are kept only as far as they can
be used: a number is an integer or some other number, and a string is a text or
a sequence of code units that is no text, because it names half of a surrogate
pair.  Members of an object keep their order, and names may repeat.
-/

namespace TapeFlow

/-- What a JSON text denotes. -/
inductive Json where
  /-- The null value. -/
  | null
  /-- A truth value. -/
  | bool (value : Bool)
  /-- An integer, or `none` for a number that is not written as one: with a
  fraction, with an exponent, or as minus zero. -/
  | number (value : Option Int)
  /-- A text, or `none` for a string with an unpaired surrogate. -/
  | string (text : Option String)
  /-- A list of values. -/
  | array (items : List Json)
  /-- Named values. -/
  | object (members : List (Option String × Json))
  deriving Inhabited

namespace Json

/-- A text as a value. -/
def ofString (s : String) : Json := string (some s)

/-- An integer as a value. -/
def ofInt (n : Int) : Json := number (some n)

/-- Named values as a value. -/
def ofMembers (members : List (String × Json)) : Json :=
  object (members.map fun (name, value) => (some name, value))

end Json

end TapeFlow
