import TapeFlow.Graph.Module

/-!
# Faults

Why a run can stop without returning.  `Fault.message` puts each into words.
-/

namespace TapeFlow

/-- Why a run stopped. -/
inductive Fault where
  /-- The module has nothing to run. -/
  | noFunctions
  /-- Control went to a number that names no block. -/
  | missingBlock (id : BlockId)
  /-- Control came to the end of a block without a terminator. -/
  | missingTerminator (label : String)
  /-- The steps that were allowed are used up. -/
  | stepLimit (limit : Nat)
  /-- The size of an allocation is no 64-bit number. -/
  | sizeOverflow
  /-- An allocation is larger than memory can be. -/
  | tooLarge (size : Nat)
  /-- A value of this type cannot be loaded or stored. -/
  | unsupportedAccess (ty : Ty)
  /-- The symbol stands for no capability. -/
  | unknownSymbol (symbol : String)
  /-- A call has too few arguments. -/
  | missingArgument (symbol : String) (index : Nat)
  /-- An address names no allocation. -/
  | dangling (alloc : Nat)
  /-- An access is not inside its allocation. -/
  | outOfRange (length offset alloc size : Nat)
  /-- A register was read that has no value. -/
  | unset (reg : Reg)
  /-- An integer was needed and the register holds an address. -/
  | notInteger (reg : Reg)
  /-- An address was needed and the register holds an integer. -/
  | notPointer (reg : Reg)
  deriving DecidableEq

/-- The words for a fault. -/
def Fault.message : Fault → String
  | noFunctions => "module has no functions"
  | missingBlock id => s!"branch to missing block #{id.toNat}"
  | missingTerminator label => s!"block {label} has no terminator"
  | stepLimit limit => s!"step limit {limit} exceeded"
  | sizeOverflow => "allocation size overflows"
  | tooLarge size => s!"cannot allocate {size} bytes"
  | unsupportedAccess ty => s!"memory access of type {ty.name} is not supported"
  | unknownSymbol symbol => s!"call to unknown symbol {symbol}"
  | missingArgument symbol index => s!"{symbol} is missing argument {index}"
  | dangling alloc => s!"dangling allocation #{alloc}"
  | outOfRange length offset alloc size =>
    s!"access of {length} bytes at offset {offset} outside allocation #{alloc} of {size} bytes"
  | unset reg => s!"read of unset register r{reg.index.toNat}"
  | notInteger reg => s!"register r{reg.index.toNat} holds a pointer, expected an integer"
  | notPointer reg => s!"register r{reg.index.toNat} holds an integer, expected a pointer"

end TapeFlow
