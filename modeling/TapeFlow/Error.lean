/-!
# Errors

Everything that can go wrong, as causes.  `Error.message` is the only place
where they are put into words.
-/

namespace TapeFlow

/-- What went wrong. -/
inductive Error where
  /-- A closing bracket at `offset` has no open loop to close. -/
  | unexpectedClose (offset : Nat)
  /-- The source ended at `endOffset` inside the loop opened at `openedAt`. -/
  | unterminatedLoop (endOffset openedAt : Nat)
  /-- Something was added to a block that already has its terminator. -/
  | blockSealed (label : String)
  /-- Something was added while no block was selected. -/
  | noInsertionPoint
  /-- The checker found these faults in a module. -/
  | rejected (reasons : List String)
  /-- A run stopped with a fault. -/
  | execution (detail : String)
  /-- The options ask for something that cannot be expressed. -/
  | invalidOptions (detail : String)
  /-- A source file could not be read. -/
  | unreadable (path detail : String)
  /-- A text is not the JSON form of what it should be. -/
  | malformed (detail : String)
  deriving DecidableEq

/-- Who has to act on an error. -/
inductive Severity where
  /-- The program is at fault, and trying again will not help. -/
  | fatal
  /-- The surroundings are at fault and can be put right. -/
  | recoverable
  /-- This library is at fault. -/
  | internal
  deriving DecidableEq

/-- The two ways in which brackets can fail to match. -/
inductive BracketFault where
  /-- A closing bracket with no open loop. -/
  | unexpectedClose
  /-- A loop that is still open at the end. -/
  | unterminatedLoop
  deriving DecidableEq

namespace Error

/-- The words for an error. -/
def message : Error → String
  | unexpectedClose offset => s!"Unexpected closing bracket at offset {offset}"
  | unterminatedLoop endOffset openedAt =>
    s!"Unterminated loop at end of input (offset {endOffset}): bracket opened at offset {openedAt}"
  | blockSealed label => s!"Block already terminated: {label}"
  | noInsertionPoint => "No insertion point: builder cursor is not positioned on a block"
  | rejected reasons => "IR verification failed: " ++ String.intercalate "; " reasons
  | execution detail => s!"Execution error: {detail}"
  | invalidOptions detail => s!"Invalid compile options: {detail}"
  | unreadable path detail => s!"I/O error reading {path}: {detail}"
  | malformed detail => s!"Serialization error: {detail}"

/-- Who has to act on an error. -/
def severity : Error → Severity
  | unexpectedClose _ | unterminatedLoop .. | execution _ => .fatal
  | invalidOptions _ | unreadable .. | malformed _ => .recoverable
  | blockSealed _ | noInsertionPoint | rejected _ => .internal

/-- The bracket fault behind an error, if that is what it is. -/
def bracketFault? : Error → Option BracketFault
  | unexpectedClose _ => some .unexpectedClose
  | unterminatedLoop .. => some .unterminatedLoop
  | _ => none

/-- The offset in the source that an error points at. -/
def offset? : Error → Option Nat
  | unexpectedClose offset => some offset
  | unterminatedLoop endOffset _ => some endOffset
  | _ => none

end Error

end TapeFlow
