import TapeFlow.Lowering.Event
import TapeFlow.Lowering.Loops
import TapeFlow.Options
import TapeFlow.Source.Token
import TapeFlow.Tape.Layout

/-!
# From commands to blocks

One pass over the commands, left to right.  A command that is not a bracket
adds code to the current block.  A bracket of either kind ends the current
block with a test of the cell under the pointer, and both brackets of a loop
branch to the same two blocks: the body if the cell is not zero, and the code
after the loop if it is.

* an opening bracket makes the two blocks and goes on in the body;
* a closing bracket goes on in the block after the loop.

So a program with `n` loops has `1 + 2 * n` blocks, and no block only tests.
-/

namespace TapeFlow

/-- What one pass counted. -/
structure Tally where
  /-- The commands. -/
  tokens : Nat
  /-- The loops. -/
  loops : Nat
  /-- The depth of the deepest loop. -/
  maxDepth : Nat
  /-- The blocks. -/
  blocks : Nat
  /-- The instructions, those that set up the tape included. -/
  instructions : Nat
  deriving DecidableEq

/-- The state of a pass. -/
structure Pass where
  /-- The function under construction. -/
  builder : Builder
  /-- The open loops. -/
  loops : LoopStack
  /-- The number of commands done. -/
  tokens : Nat
  /-- What has been reported. -/
  events : Array Event
  deriving DecidableEq

/-- A step of a pass; what it did before it failed stays done. -/
abbrev Lower := EStateM Error Pass

namespace Pass

/-- A pass that has not seen any command. -/
def start (options : Options) : Pass := ⟨.new options.entryName .i32, {}, 0, #[]⟩

end Pass

namespace Lower

/-- Add code to the function under construction. -/
def build (x : Build α) : Lower α := fun ⟨builder, loops, tokens, events⟩ =>
  match x builder with
  | .ok a builder => .ok a ⟨builder, loops, tokens, events⟩
  | .error e builder => .error e ⟨builder, loops, tokens, events⟩

/-- Report an event that depends on the number of open loops. -/
def report (event : Nat → Event) : Lower Unit := fun ⟨builder, loops, tokens, events⟩ =>
  .ok () ⟨builder, loops, tokens, events.push (event loops.depth)⟩

/-- Open a loop. -/
def pushLoop (frame : LoopFrame) : Lower Unit := fun ⟨builder, loops, tokens, events⟩ =>
  .ok () ⟨builder, loops.push frame, tokens, events⟩

/-- Close the innermost loop. -/
def popLoop (offset : Nat) : Lower LoopFrame := fun pass =>
  match pass.loops.pop offset with
  | .ok (frame, loops) => .ok frame { pass with loops }
  | .error e => .error e pass

/-- Make sure that no loop is open. -/
def finishLoops (endOffset : Nat) : Lower Unit := fun pass =>
  match pass.loops.finish endOffset with
  | .ok () => .ok () pass
  | .error e => .error e pass

/-- Count a command. -/
def countToken : Lower Unit := fun ⟨builder, loops, tokens, events⟩ =>
  .ok () ⟨builder, loops, tokens + 1, events⟩

end Lower

namespace TapeLayout

/-- Move the data pointer: `step` adds or subtracts one. -/
def movePointer (layout : TapeLayout) (step : Ty → Reg → Reg → Build Reg) : Build Unit := do
  let index ← Build.load .i64 layout.slot
  let one ← Build.const .i64 1
  let moved ← step .i64 index one
  Build.store .i64 moved layout.slot

/-- Change the cell under the pointer: `step` adds or subtracts one. -/
def changeCell (layout : TapeLayout) (step : Ty → Reg → Reg → Build Reg) : Build Unit := do
  let (address, value) ← layout.loadCell
  let one ← Build.const .i8 1
  let changed ← step .i8 value one
  Build.store .i8 changed address

/-- Write the cell under the pointer. -/
def writeCell (layout : TapeLayout) (symbols : Symbols) : Build Unit := do
  let (_, value) ← layout.loadCell
  let _ ← Build.call symbols.writeByte [value] Capability.writeByte.signature.ret

/-- Read into the cell under the pointer. -/
def readCell (layout : TapeLayout) (symbols : Symbols) : Build Unit := do
  let byte ← Build.callValue symbols.readByte []
  let address ← layout.cellAddress
  Build.store .i8 byte address

/-- Make the blocks of a loop, branch to them, and go on in the body. -/
def openLoop (layout : TapeLayout) : Build (BlockId × BlockId) := do
  let cond ← layout.cellNonzero
  let body ← Build.appendBlock "loop_body"
  let after ← Build.appendBlock "loop_end"
  Build.terminate (.condBr cond body after)
  Build.position body
  return (body, after)

/-- Branch to the blocks of a loop, and go on after it. -/
def closeLoop (layout : TapeLayout) (frame : LoopFrame) : Build Unit := do
  let cond ← layout.cellNonzero
  Build.terminate (.condBr cond frame.body frame.after)
  Build.position frame.after

end TapeLayout

namespace Lower

/-- The code for one command. -/
def token (symbols : Symbols) (layout : TapeLayout) (t : Token) : Lower Unit :=
  match t.command with
  | .right => build (layout.movePointer Build.add)
  | .left => build (layout.movePointer Build.sub)
  | .increment => build (layout.changeCell Build.add)
  | .decrement => build (layout.changeCell Build.sub)
  | .output => build (layout.writeCell symbols)
  | .input => build (layout.readCell symbols)
  | .loopOpen => do
    let (body, after) ← build layout.openLoop
    pushLoop ⟨body, after, t.offset⟩
    report (.loopOpened t.offset)
  | .loopClose => do
    let frame ← popLoop t.offset
    build (layout.closeLoop frame)
    report (.loopClosed t.offset frame.openedAt)

/-- The code for a list of commands. -/
def tokens (symbols : Symbols) (layout : TapeLayout) : List Token → Lower Unit
  | [] => pure ()
  | t :: ts => do
    token symbols layout t
    countToken
    tokens symbols layout ts

/-- The start of the function: its first block, with the tape. -/
def prologue (options : Options) : Build TapeLayout := do
  let entry ← Build.appendBlock "entry"
  Build.position entry
  TapeLayout.setUp options.symbols options.cellCount

/-- The end of the function: it returns zero. -/
def epilogue : Build Unit := do
  let exitCode ← Build.const .i32 0
  Build.terminate (.ret (some exitCode))

/-- The whole pass over what a scanner still yields. -/
def program (options : Options) (scanner : Scanner) : Lower Unit := do
  let layout ← build (prologue options)
  tokens options.symbols layout scanner.tokens
  finishLoops scanner.sourceLength
  build epilogue

end Lower

namespace Pass

/-- The counts of a finished pass. -/
def tally (p : Pass) : Tally :=
  ⟨p.tokens, p.loops.opened, p.loops.maxDepth, p.builder.blocks.size,
    p.builder.finish.instructionCount⟩

end Pass

/-- Turn what a scanner still yields into a module with one function, and say
what was reported on the way.  Nothing is checked. -/
def lower (options : Options) (scanner : Scanner) :
    Except Error (Module × Tally) × List Event :=
  match Lower.program options scanner (.start options) with
  | .ok () pass =>
    let tally := pass.tally
    let event := Event.lowered tally.tokens tally.blocks tally.maxDepth
    let result : Module :=
      ⟨options.moduleName, options.symbols.declarations, [pass.builder.finish]⟩
    (.ok (result, tally), pass.events.toList ++ [event])
  | .error e pass => (.error e, pass.events.toList)

end TapeFlow
