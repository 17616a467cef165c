/-!
# The eight commands

A program is a string of bytes.  Eight of them are commands that move a data
pointer along a tape, change the cell under it, do input and output of one
byte, and loop; every other byte is a comment.

* `Command.ofByte?` classifies a byte, and `Command.toByte` writes it back;
* `Command.ofByte?_toByte` and `Command.toByte_of_ofByte?` say that the two are
  inverse on the eight command bytes.
-/

namespace TapeFlow

/-- What a single byte of a program can ask for. -/
inductive Command where
  /-- Move the data pointer one cell to the right. -/
  | right
  /-- Move the data pointer one cell to the left. -/
  | left
  /-- Add one to the cell under the pointer. -/
  | increment
  /-- Subtract one from the cell under the pointer. -/
  | decrement
  /-- Write the cell under the pointer. -/
  | output
  /-- Read one byte into the cell under the pointer. -/
  | input
  /-- Enter the loop if the cell under the pointer is not zero. -/
  | loopOpen
  /-- Repeat the loop if the cell under the pointer is not zero. -/
  | loopClose
  deriving DecidableEq, Inhabited

namespace Command

/-- The command a byte stands for, `none` for a comment byte. -/
def ofByte? : UInt8 → Option Command
  | 0x3e => some right
  | 0x3c => some left
  | 0x2b => some increment
  | 0x2d => some decrement
  | 0x2e => some output
  | 0x2c => some input
  | 0x5b => some loopOpen
  | 0x5d => some loopClose
  | _ => none

/-- The byte that stands for a command. -/
def toByte : Command → UInt8
  | right => 0x3e
  | left => 0x3c
  | increment => 0x2b
  | decrement => 0x2d
  | output => 0x2e
  | input => 0x2c
  | loopOpen => 0x5b
  | loopClose => 0x5d

/-- The commands that change a number: the pointer or a cell. -/
def isArithmetic : Command → Bool
  | right | left | increment | decrement => true
  | output | input | loopOpen | loopClose => false

@[simp] theorem ofByte?_toByte (c : Command) : ofByte? c.toByte = some c := by
  cases c <;> rfl

theorem toByte_of_ofByte? {b : UInt8} {c : Command} (h : ofByte? b = some c) : c.toByte = b := by
  unfold ofByte? at h
  split at h <;> cases h <;> rfl

end Command

end TapeFlow
