import TapeFlow.Capability

/-!
# Options

What can be chosen when a program is compiled.
-/

namespace TapeFlow

/-- The version of the library. -/
def version : String := "0.1.0"

/-- The number of cells when nothing else is asked for. -/
def defaultCellCount : UInt64 := 30000

/-- What can be chosen when a program is compiled. -/
structure Options where
  /-- The number of cells on the tape. -/
  cellCount : UInt64 := defaultCellCount
  /-- The name of the module. -/
  moduleName : String := "bf_module"
  /-- The name of the function that is the program. -/
  entryName : String := "main"
  /-- The symbols of the capabilities. -/
  symbols : Symbols := {}
  /-- Whether the result is checked. -/
  verify : Bool := true
  deriving DecidableEq, Inhabited

end TapeFlow
