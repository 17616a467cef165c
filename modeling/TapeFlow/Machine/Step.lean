import Std.Data.HashMap
import TapeFlow.Capability
import TapeFlow.Machine.Fault
import TapeFlow.Machine.Memory

/-!
# One instruction on the machine

A machine has registers, memory, input still to be read and output already
written.  `Exec.step` does one instruction.  It reads all its operands and makes
all its tests before it changes anything, so a step that faults leaves the
machine as it was.
-/

namespace TapeFlow

/-- What a register can hold. -/
inductive Value where
  /-- A word. -/
  | int (word : UInt64)
  /-- An offset into an allocation. -/
  | ptr (alloc : Nat) (offset : UInt64)
  deriving DecidableEq

/-- The state of a run. -/
structure Machine where
  /-- The registers that have a value. -/
  regs : Std.HashMap Reg Value := ∅
  /-- The memory. -/
  memory : Memory := {}
  /-- The input not yet read. -/
  input : List UInt8 := []
  /-- The output so far. -/
  output : Array UInt8 := #[]
  /-- The instructions and terminators begun so far.  A counter of 64 bits shows the
  same number below `2 ^ 64` steps, and no run gets that far in practice. -/
  steps : Nat := 0

/-- A computation on a machine that can fault. -/
abbrev Exec := EStateM Fault Machine

/-- No allocation is as large as this. -/
def addressSpace : Nat := 0x1000000000000

/-- The bytes of a value that can be loaded and stored. -/
def Ty.scalarSize? : Ty → Option UInt64
  | i1 => some i1.size
  | i8 => some i8.size
  | i32 => some i32.size
  | i64 => some i64.size
  | ptr | void => none

namespace Exec

/-- The value of a register. -/
def get (r : Reg) : Exec Value := fun m =>
  match m.regs[r]? with
  | some v => .ok v m
  | none => .error (.unset r) m

/-- The word in a register. -/
def int (r : Reg) : Exec UInt64 := do
  match ← get r with
  | .int word => return word
  | .ptr .. => throw (.notInteger r)

/-- The address in a register. -/
def ptr (r : Reg) : Exec (Nat × UInt64) := do
  match ← get r with
  | .ptr alloc offset => return (alloc, offset)
  | .int _ => throw (.notPointer r)

/-- Give a register a value. -/
def set (r : Reg) (v : Value) : Exec Unit := fun m => .ok () { m with regs := m.regs.insert r v }

/-- The bytes of a value that can be loaded and stored. -/
def scalarSize (ty : Ty) : Exec UInt64 :=
  match ty.scalarSize? with
  | some size => return size
  | none => throw (.unsupportedAccess ty)

/-- Make sure that a range of bytes is inside its allocation.  The end of the
range is computed without wrapping. -/
def inRange (alloc : Nat) (offset length : UInt64) : Exec Unit := fun m =>
  match m.memory.size? alloc with
  | none => .error (.dangling alloc) m
  | some size =>
    if offset.toNat + length.toNat ≤ size then .ok () m
    else .error (.outOfRange length.toNat offset.toNat alloc size) m

/-- Make an allocation and return its number. -/
def allocate (size : Nat) : Exec Nat := fun m =>
  .ok m.memory.allocations.size { m with memory := m.memory.allocate size }

/-- Read a range of bytes. -/
def read (alloc : Nat) (offset length : UInt64) : Exec (List UInt8) := do
  inRange alloc offset length
  fun m => .ok (m.memory.read alloc offset.toNat length.toNat) m

/-- Replace a range of bytes by what `bytes` makes of its length. -/
def write (alloc : Nat) (offset length : UInt64) (bytes : Nat → List UInt8) : Exec Unit := do
  inRange alloc offset length
  fun m => .ok () { m with memory := m.memory.write alloc offset.toNat (bytes length.toNat) }

/-- Read a byte of input; past its end every byte is zero. -/
def readInput : Exec UInt8 := fun m =>
  match m.input with
  | [] => .ok 0 m
  | b :: bs => .ok b { m with input := bs }

/-- Write a byte of output. -/
def writeOutput (b : UInt8) : Exec Unit := fun m => .ok () { m with output := m.output.push b }

/-- An argument of a call. -/
def argument (symbol : String) (args : List Reg) (index : Nat) : Exec Reg :=
  match args[index]? with
  | some r => return r
  | none => throw (.missingArgument symbol index)

/-- Do what a capability is for; `none` if it has no result. -/
def invoke (c : Capability) (symbol : String) (args : List Reg) : Exec (Option Value) :=
  match c with
  | .readByte => do
    let byte ← readInput
    return some (.int byte.toUInt64)
  | .writeByte => do
    let word ← int (← argument symbol args 0)
    writeOutput word.toUInt8
    return some (.int 0)
  | .fill => do
    let (alloc, offset) ← ptr (← argument symbol args 0)
    let word ← int (← argument symbol args 1)
    let length ← int (← argument symbol args 2)
    write alloc offset length fun n => List.replicate n word.toUInt8
    return none

/-- Do one instruction. -/
def step (symbols : Symbols) : Instruction → Exec Unit
  | .const dst ty value => set dst (.int (ty.truncate value.toUInt64))
  | .alloca dst ty count => do
    let size := ty.size.toNat * count.toNat
    if UInt64.size ≤ size then throw .sizeOverflow
    if addressSpace ≤ size then throw (.tooLarge size)
    let alloc ← allocate size
    set dst (.ptr alloc 0)
  | .load dst ty p => do
    let (alloc, offset) ← ptr p
    let size ← scalarSize ty
    let bytes ← read alloc offset size
    set dst (.int (ty.truncate (ofLittleEndian bytes)))
  | .store ty value p => do
    let word ← int value
    let (alloc, offset) ← ptr p
    let size ← scalarSize ty
    write alloc offset size fun n => littleEndian n word
  | .gep dst ty base index => do
    let (alloc, offset) ← ptr base
    let i ← int index
    set dst (.ptr alloc (offset + i * ty.size))
  | .add dst ty lhs rhs => do
    let a ← int lhs
    let b ← int rhs
    set dst (.int (ty.truncate (a + b)))
  | .sub dst ty lhs rhs => do
    let a ← int lhs
    let b ← int rhs
    set dst (.int (ty.truncate (a - b)))
  | .icmpNe dst ty lhs rhs => do
    let a ← int lhs
    let b ← int rhs
    set dst (.int (if ty.truncate a = ty.truncate b then 0 else 1))
  | .call dst symbol args =>
    match symbols.capability? symbol with
    | none => throw (.unknownSymbol symbol)
    | some c => do
      match dst, ← invoke c symbol args with
      | some r, some v => set r v
      | _, _ => return ()

end Exec

end TapeFlow
