import TapeFlow.Capability
import TapeFlow.Graph.Builder

/-!
# The tape in memory

A program sees one tape of cells and a data pointer.  Both are memory: an
allocation of as many bytes as there are cells, and an allocation for one
64-bit index.  The code made here sets them up and reaches the cell under the
pointer; no code compares the index with the length of the tape.
-/

namespace TapeFlow

/-- The registers that hold the two addresses. -/
structure TapeLayout where
  /-- The address of the first cell. -/
  tape : Reg
  /-- The address of the data pointer. -/
  slot : Reg
  /-- The number of cells. -/
  cellCount : UInt64
  deriving DecidableEq

namespace TapeLayout

/-- Make a tape of zero cells with the data pointer on the first.  A length
that is no 64-bit signed number cannot be written down as a constant. -/
def setUp (symbols : Symbols) (cellCount : UInt64) : Build TapeLayout := do
  let tape ← Build.alloca .i8 cellCount
  let slot ← Build.alloca .i64 1
  let zeroByte ← Build.const .i8 0
  if 0x8000000000000000 ≤ cellCount.toNat then
    throw (.invalidOptions s!"cell_count {cellCount.toNat} does not fit in i64")
  let length ← Build.const .i64 cellCount.toInt64
  let _ ← Build.call symbols.fill [tape, zeroByte, length] Capability.fill.signature.ret
  let zeroIndex ← Build.const .i64 0
  Build.store .i64 zeroIndex slot
  return ⟨tape, slot, cellCount⟩

/-- The address of the cell under the pointer. -/
def cellAddress (layout : TapeLayout) : Build Reg := do
  let index ← Build.load .i64 layout.slot
  Build.gep .i8 layout.tape index

/-- The address and the value of the cell under the pointer. -/
def loadCell (layout : TapeLayout) : Build (Reg × Reg) := do
  let address ← layout.cellAddress
  let value ← Build.load .i8 address
  return (address, value)

/-- Whether the cell under the pointer is not zero. -/
def cellNonzero (layout : TapeLayout) : Build Reg := do
  let (_, value) ← layout.loadCell
  let zero ← Build.const .i8 0
  Build.icmpNe .i8 value zero

end TapeLayout

end TapeFlow
