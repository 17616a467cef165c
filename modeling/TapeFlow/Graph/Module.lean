import TapeFlow.Graph.Instruction

/-!
# Blocks, functions and modules

A function is an array of blocks in which a block number is a position; nothing
forces the number a block carries to be the position it stands at, so the two
are told apart here and the checker compares them.
-/

namespace TapeFlow

/-- A run of instructions with one way in and a terminator at its end. -/
structure Block where
  /-- The number the block carries. -/
  id : BlockId
  /-- Its name in a listing. -/
  label : String
  /-- Its straight-line code. -/
  instructions : Array Instruction
  /-- Its end; missing while the block is being filled. -/
  terminator : Option Terminator
  deriving DecidableEq, Inhabited

namespace Block

/-- A block with nothing in it. -/
def empty (id : BlockId) (label : String) : Block := ⟨id, label, #[], none⟩

/-- Whether the block has its terminator. -/
def isSealed (b : Block) : Bool := b.terminator.isSome

/-- The blocks control can go to from here. -/
def successors (b : Block) : List BlockId :=
  match b.terminator with
  | some t => t.successors
  | none => []

end Block

/-- A function: its blocks and the one it starts at. -/
structure Function where
  /-- The function's name. -/
  name : String
  /-- The type of what it returns. -/
  ret : Ty
  /-- Its blocks, in the order they were made. -/
  blocks : Array Block
  /-- The block it starts at. -/
  entry : BlockId
  deriving DecidableEq, Inhabited

namespace Function

/-- The block at the position a number names. -/
def block? (f : Function) (id : BlockId) : Option Block := f.blocks[id.toNat]?

/-- The first block with a label. -/
def blockLabelled? (f : Function) (label : String) : Option Block :=
  f.blocks.find? fun b => b.label == label

/-- The block the function starts at. -/
def entryBlock? (f : Function) : Option Block := f.block? f.entry

/-- The numbers carried by the blocks that can go to `id`. -/
def predecessors (f : Function) (id : BlockId) : List BlockId :=
  (f.blocks.toList.filter fun b => b.successors.contains id).map Block.id

/-- All the straight-line code, block after block. -/
def instructions (f : Function) : List Instruction :=
  f.blocks.toList.flatMap fun b => b.instructions.toList

/-- The amount of straight-line code. -/
def instructionCount (f : Function) : Nat :=
  f.blocks.foldl (fun n b => n + b.instructions.size) 0

end Function

/-- A symbol that is defined elsewhere. -/
structure Declaration where
  /-- The symbol. -/
  name : String
  /-- The types of its parameters. -/
  params : List Ty
  /-- The type of its result. -/
  ret : Ty
  deriving DecidableEq, Inhabited

/-- Functions together with the symbols they call. -/
structure Module where
  /-- The module's name. -/
  name : String
  /-- The symbols defined elsewhere. -/
  declarations : List Declaration
  /-- The functions defined here. -/
  functions : List Function
  deriving DecidableEq, Inhabited

namespace Module

/-- The first function with a name. -/
def function? (m : Module) (name : String) : Option Function :=
  m.functions.find? fun f => f.name == name

/-- The first declaration of a symbol. -/
def declaration? (m : Module) (name : String) : Option Declaration :=
  m.declarations.find? fun d => d.name == name

end Module

end TapeFlow
