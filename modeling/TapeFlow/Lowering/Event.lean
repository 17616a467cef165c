/-!
# The event log

What a compilation reports while it runs.
-/

namespace TapeFlow

/-- Something a compilation reports. -/
inductive Event where
  /-- A source of so many bytes is about to become a module. -/
  | started (bytes : Nat) (moduleName : String)
  /-- A loop was opened at an offset, and so many loops are now open. -/
  | loopOpened (offset depth : Nat)
  /-- The loop opened at `openedAt` was closed at an offset, and so many loops
  are still open. -/
  | loopClosed (offset openedAt depth : Nat)
  /-- The whole source became a function. -/
  | lowered (tokens blocks maxDepth : Nat)
  /-- The checker has something to say about the module. -/
  | warned (text : String)
  deriving DecidableEq

namespace Event

/-- How much an event matters, as the log writes it. -/
def level : Event → String
  | started .. | lowered .. => "DEBUG"
  | loopOpened .. | loopClosed .. => "TRACE"
  | warned _ => "WARN"

/-- The words of an event. -/
def message : Event → String
  | started .. => "compiling"
  | loopOpened .. => "loop opened"
  | loopClosed .. => "loop closed"
  | lowered .. => "translation complete"
  | warned text => s!"IR verification warning: {text}"

/-- The named values of an event, as the log writes them. -/
def fields : Event → List (String × String)
  | started bytes moduleName => [("bytes", toString bytes), ("module", moduleName)]
  | loopOpened offset depth => [("offset", toString offset), ("depth", toString depth)]
  | loopClosed offset openedAt depth =>
    [("offset", toString offset), ("opened_at", toString openedAt), ("depth", toString depth)]
  | lowered tokens blocks maxDepth =>
    [("tokens", toString tokens), ("blocks", toString blocks), ("max_depth", toString maxDepth)]
  | warned _ => []

end Event

end TapeFlow
