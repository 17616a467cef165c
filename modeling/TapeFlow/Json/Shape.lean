import TapeFlow.Error
import TapeFlow.Json.Reader
import TapeFlow.Json.Writer

/-!
# Taking JSON values apart

Data has a conventional form in JSON:

* a record is an object with a member for each field, or an array of the fields
  in order.  Members with other names are passed over, whatever they hold; a
  field must not be given twice;
* a choice is an object with one member, whose name says which, or, where there
  is nothing more to say, the name alone;
* a number is an integer in its range.

The functions here give `none` for a value that does not have the form.
-/

namespace TapeFlow

namespace Json

/-- A text. -/
def text? : Json → Option String
  | string t => t
  | _ => none

/-- A truth value. -/
def bool? : Json → Option Bool
  | bool b => some b
  | _ => none

/-- An integer. -/
def int? : Json → Option Int
  | number n => n
  | _ => none

/-- A natural number below a bound. -/
def natBelow? (bound : Nat) (j : Json) : Option Nat :=
  match j.int? with
  | some (.ofNat n) => if n < bound then some n else none
  | _ => none

/-- A 32-bit word. -/
def uint32? (j : Json) : Option UInt32 := (j.natBelow? UInt32.size).map UInt32.ofNat

/-- A 64-bit word. -/
def uint64? (j : Json) : Option UInt64 := (j.natBelow? UInt64.size).map UInt64.ofNat

/-- A 64-bit signed number. -/
def int64? (j : Json) : Option Int64 :=
  match j.int? with
  | some n => if -0x8000000000000000 ≤ n ∧ n < 0x8000000000000000 then some (Int64.ofInt n) else none
  | none => none

/-- A list of things that each have a form. -/
def list? (item? : Json → Option α) : Json → Option (List α)
  | array items => items.mapM item?
  | _ => none

/-- Something that may be missing. -/
def orNull? (value? : Json → Option α) : Json → Option (Option α)
  | null => some none
  | j => (value? j).map some

/-- The value of a member, if there is one; there must not be two. -/
def member? (name : String) (members : List (Option String × Json)) : Option (Option Json) :=
  match members.filter fun m => m.1 == some name with
  | [] => some none
  | [(_, value)] => some (some value)
  | _ => none

/-- The values of the members with these names.  All names must be texts. -/
def members? (names : List String) (members : List (Option String × Json)) :
    Option (List (Option Json)) :=
  if members.all fun m => m.1.isSome then names.mapM fun name => member? name members else none

/-- The fields of a record.  Of the fields that an object leaves out, `absent`
says which may be, and what they are then. -/
def record? (names : List String) (absent : String → Option Json) : Json → Option (List Json)
  | object members => do
    let values ← members? names members
    (names.zip values).mapM fun (name, value) => value.or (absent name)
  | array items => if items.length = names.length then some items else none
  | _ => none

/-- The fields of a record, any of which may be left out; in an array, from
some field on. -/
def sparse? (names : List String) : Json → Option (List (Option Json))
  | object members => members? names members
  | array items =>
    if items.length ≤ names.length then
      some (items.map some ++ List.replicate (names.length - items.length) none)
    else
      none
  | _ => none

/-- A field that has a default value. -/
def fieldOr (default : α) (value? : Json → Option α) : Option Json → Option α
  | some j => value? j
  | none => some default

/-- Which of several things a value is, and what it says about it. -/
def variant? : Json → Option (String × Option Json)
  | string t => t.map fun name => (name, none)
  | object [(some name, value)] => some (name, some value)
  | _ => none

/-- Which of several things a value is, where there is nothing to say about
it. -/
def unit? (j : Json) : Option String :=
  match j.variant? with
  | some (name, none) => some name
  | some (name, some null) => some name
  | _ => none

/-- Read something from a text. -/
def decode (what : String) (value? : Json → Option α) (text : String) : Except Error α :=
  match parse? text with
  | none => .error (.malformed "not a JSON text")
  | some j =>
    match value? j with
    | some a => .ok a
    | none => .error (.malformed s!"not the JSON form of {what}")

end Json

end TapeFlow
