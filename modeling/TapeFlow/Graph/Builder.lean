import TapeFlow.Error
import TapeFlow.Graph.Module

/-!
# Building a function

A function is built block by block.  Code goes to the end of the block under a
cursor; the cursor is moved by hand, and giving a block its terminator takes
the cursor off it.  A block with a terminator is never changed again.

`Build` is a computation on a function under construction.  It keeps what it
did before it failed: a step that needs a register takes it first, so the
register is used up even when there is nowhere to put the instruction.
-/

namespace TapeFlow

/-- A function under construction. -/
structure Builder where
  /-- The function's name. -/
  name : String
  /-- The type of what it returns. -/
  ret : Ty
  /-- The blocks made so far. -/
  blocks : Array Block
  /-- The block that code is added to. -/
  cursor : Option BlockId
  /-- The next register to hand out. -/
  nextReg : UInt32
  /-- The number in the next label. -/
  nextLabel : UInt32
  deriving DecidableEq

/-- A computation that builds a function. -/
abbrev Build := EStateM Error Builder

namespace Builder

/-- A function with no blocks. -/
def new (name : String) (ret : Ty) : Builder := ⟨name, ret, #[], none, 0, 0⟩

/-- The function as it stands; it starts at its first block. -/
def finish (b : Builder) : Function := ⟨b.name, b.ret, b.blocks, ⟨0⟩⟩

/-- The position that code is added at, or why none can be added. -/
def insertionPoint (b : Builder) : Except Error Nat :=
  match b.cursor with
  | none => .error .noInsertionPoint
  | some id =>
    match b.blocks[id.toNat]? with
    | none => .error .noInsertionPoint
    | some block => if block.isSealed then .error (.blockSealed block.label) else .ok id.toNat

end Builder

namespace Build

/-- Make a block at the end and leave the cursor where it is.  Labels are a
stem and a running number; only a first block with the stem `entry` is called
by the stem alone. -/
def appendBlock (stem : String) : Build BlockId := fun b =>
  let id : BlockId := ⟨b.blocks.size.toUInt32⟩
  if b.blocks.isEmpty && stem == "entry" then
    .ok id { b with blocks := b.blocks.push (.empty id stem) }
  else
    .ok id { b with
      blocks := b.blocks.push (.empty id s!"{stem}_{b.nextLabel.toNat}")
      nextLabel := b.nextLabel + 1 }

/-- Move the cursor to the end of a block. -/
def position (id : BlockId) : Build Unit := fun b => .ok () { b with cursor := some id }

/-- Hand out a register that has not been handed out before. -/
def freshReg : Build Reg := fun b => .ok ⟨b.nextReg⟩ { b with nextReg := b.nextReg + 1 }

/-- Change the block under the cursor, if it can still be changed. -/
def change (f : Block → Block) : Build Unit := fun b =>
  match b.insertionPoint with
  | .ok i => .ok () { b with blocks := b.blocks.modify i f }
  | .error e => .error e b

/-- Add an instruction to the block under the cursor. -/
def emit (i : Instruction) : Build Unit :=
  change fun block => { block with instructions := block.instructions.push i }

/-- End the block under the cursor and take the cursor off it. -/
def terminate (t : Terminator) : Build Unit := do
  change fun block => { block with terminator := some t }
  modify fun b => { b with cursor := none }

/-- Add an instruction that defines a fresh register. -/
def define (i : Reg → Instruction) : Build Reg := do
  let dst ← freshReg
  emit (i dst)
  return dst

/-- A constant. -/
def const (ty : Ty) (value : Int64) : Build Reg := define fun dst => .const dst ty value

/-- Memory for `count` values. -/
def alloca (ty : Ty) (count : UInt64) : Build Reg := define fun dst => .alloca dst ty count

/-- The value at an address. -/
def load (ty : Ty) (ptr : Reg) : Build Reg := define fun dst => .load dst ty ptr

/-- Store a value at an address. -/
def store (ty : Ty) (value ptr : Reg) : Build Unit := emit (.store ty value ptr)

/-- The address of an element. -/
def gep (ty : Ty) (base index : Reg) : Build Reg := define fun dst => .gep dst ty base index

/-- A sum. -/
def add (ty : Ty) (lhs rhs : Reg) : Build Reg := define fun dst => .add dst ty lhs rhs

/-- A difference. -/
def sub (ty : Ty) (lhs rhs : Reg) : Build Reg := define fun dst => .sub dst ty lhs rhs

/-- Whether two values differ. -/
def icmpNe (ty : Ty) (lhs rhs : Reg) : Build Reg := define fun dst => .icmpNe dst ty lhs rhs

/-- A call whose result is kept. -/
def callValue (symbol : String) (args : List Reg) : Build Reg :=
  define fun dst => .call (some dst) symbol args

/-- A call whose result is kept unless it has none. -/
def call (symbol : String) (args : List Reg) (ret : Ty) : Build (Option Reg) :=
  if ret = .void then do
    emit (.call none symbol args)
    return none
  else
    some <$> callValue symbol args

end Build

end TapeFlow
