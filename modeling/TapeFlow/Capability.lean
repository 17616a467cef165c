import TapeFlow.Graph.Module

/-!
# Capabilities

Three things are done for a program by whatever it is linked with: reading a
byte, writing a byte and filling memory.  Code refers to them by symbols, and
the names of the symbols are free.  Nothing keeps two of the names apart; where
they coincide, a name stands for the first capability in the order read, write,
fill.
-/

namespace TapeFlow

/-- What a program needs done for it. -/
inductive Capability where
  /-- Read one byte of input. -/
  | readByte
  /-- Write one byte of output. -/
  | writeByte
  /-- Fill memory with a byte. -/
  | fill
  deriving DecidableEq

/-- The types of a symbol's parameters and result. -/
structure Signature where
  /-- The parameters. -/
  params : List Ty
  /-- The result. -/
  ret : Ty
  deriving DecidableEq

/-- The signature of each capability. -/
def Capability.signature : Capability → Signature
  | readByte => ⟨[], .i8⟩
  | writeByte => ⟨[.i8], .i32⟩
  | fill => ⟨[.ptr, .i8, .i64], .void⟩

/-- The symbols that stand for the capabilities. -/
structure Symbols where
  /-- Reading a byte. -/
  readByte : String := "read_byte"
  /-- Writing a byte. -/
  writeByte : String := "write_byte"
  /-- Filling memory. -/
  fill : String := "fill"
  deriving DecidableEq, Inhabited

namespace Symbols

/-- The symbol of a capability. -/
def nameOf (s : Symbols) : Capability → String
  | .readByte => s.readByte
  | .writeByte => s.writeByte
  | .fill => s.fill

/-- The capabilities in the order in which names are looked up. -/
def order : List Capability := [.readByte, .writeByte, .fill]

/-- The declarations a module needs to call all three. -/
def declarations (s : Symbols) : List Declaration :=
  order.map fun c => ⟨s.nameOf c, c.signature.params, c.signature.ret⟩

/-- The capability a name stands for. -/
def capability? (s : Symbols) (name : String) : Option Capability :=
  order.find? fun c => name == s.nameOf c

end Symbols

end TapeFlow
