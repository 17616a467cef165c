import TapeFlow.Json.Shape
import TapeFlow.Options

/-!
# The JSON form of options and symbols

Both are records in which every field may be left out; it then has its default
value.
-/

namespace TapeFlow

namespace Symbols

/-- Symbols as JSON. -/
def toJson (s : Symbols) : Json :=
  .ofMembers [("read_byte", .ofString s.readByte), ("write_byte", .ofString s.writeByte),
    ("fill", .ofString s.fill)]

/-- Symbols from JSON. -/
def ofJson? (j : Json) : Option Symbols := do
  let default : Symbols := {}
  match ← j.sparse? ["read_byte", "write_byte", "fill"] with
  | [readByte, writeByte, fill] =>
    return {
      readByte := ← Json.fieldOr default.readByte Json.text? readByte
      writeByte := ← Json.fieldOr default.writeByte Json.text? writeByte
      fill := ← Json.fieldOr default.fill Json.text? fill }
  | _ => none

/-- Symbols from a JSON text. -/
def parse (text : String) : Except Error Symbols := Json.decode "symbols" ofJson? text

end Symbols

namespace Options

/-- Options as JSON. -/
def toJson (o : Options) : Json :=
  .ofMembers [("cell_count", .ofInt o.cellCount.toNat), ("module_name", .ofString o.moduleName),
    ("entry_name", .ofString o.entryName), ("symbols", o.symbols.toJson),
    ("verify", .bool o.verify)]

/-- Options from JSON. -/
def ofJson? (j : Json) : Option Options := do
  let default : Options := {}
  match ← j.sparse? ["cell_count", "module_name", "entry_name", "symbols", "verify"] with
  | [cellCount, moduleName, entryName, symbols, verify] =>
    return {
      cellCount := ← Json.fieldOr default.cellCount Json.uint64? cellCount
      moduleName := ← Json.fieldOr default.moduleName Json.text? moduleName
      entryName := ← Json.fieldOr default.entryName Json.text? entryName
      symbols := ← Json.fieldOr default.symbols Symbols.ofJson? symbols
      verify := ← Json.fieldOr default.verify Json.bool? verify }
  | _ => none

/-- Options from a JSON text. -/
def parse (text : String) : Except Error Options := Json.decode "options" ofJson? text

end Options

end TapeFlow
