import TapeFlow.Error
import TapeFlow.Graph.Instruction

/-!
# Open loops

While a program is read from left to right, the loops that are open form a
stack: an opening bracket puts a frame on it and a closing bracket takes the
last one off.  The stack also remembers how many loops there were and how deep
they went.
-/

namespace TapeFlow

/-- An open loop. -/
structure LoopFrame where
  /-- The first block of the body. -/
  body : BlockId
  /-- The block after the loop. -/
  after : BlockId
  /-- The offset of the opening bracket. -/
  openedAt : Nat
  deriving DecidableEq

/-- The open loops, the innermost last. -/
structure LoopStack where
  /-- The frames. -/
  frames : Array LoopFrame := #[]
  /-- The most frames there have been at once. -/
  maxDepth : Nat := 0
  /-- The number of loops opened so far. -/
  opened : Nat := 0
  deriving DecidableEq

namespace LoopStack

/-- The number of open loops. -/
def depth (s : LoopStack) : Nat := s.frames.size

/-- Whether no loop is open. -/
def isEmpty (s : LoopStack) : Bool := s.frames.isEmpty

/-- Open a loop. -/
def push (s : LoopStack) (frame : LoopFrame) : LoopStack :=
  let depth := s.frames.size + 1
  ⟨s.frames.push frame, max s.maxDepth depth, s.opened + 1⟩

/-- The innermost open loop. -/
def innermost? (s : LoopStack) : Option LoopFrame := s.frames.back?

/-- Take the innermost loop off. -/
def dropInnermost (s : LoopStack) : LoopStack := { s with frames := s.frames.pop }

/-- Close the innermost loop with the bracket at `offset`. -/
@[inline] def pop (s : LoopStack) (offset : Nat) : Except Error (LoopFrame × LoopStack) :=
  match s.innermost? with
  | some frame => .ok (frame, s.dropInnermost)
  | none => .error (.unexpectedClose offset)

/-- Make sure that no loop is open at the end of the source. -/
def finish (s : LoopStack) (endOffset : Nat) : Except Error Unit :=
  match s.innermost? with
  | some frame => .error (.unterminatedLoop endOffset frame.openedAt)
  | none => .ok ()

end LoopStack

end TapeFlow
