import TapeFlow.Source.Token

/-!
# Lines and columns

An offset into a source is shown to a reader as a line and a column, both
counted from one.  A line ends after its newline byte, and columns count bytes.
-/

namespace TapeFlow

/-- A place in a source as a reader counts it. -/
structure Location where
  /-- The line, from one. -/
  line : Nat
  /-- The column, from one, in bytes. -/
  column : Nat
  deriving DecidableEq

namespace Location

/-- The place of the first byte. -/
def start : Location := ⟨1, 1⟩

/-- The place after a byte that stands at `l`. -/
def advance (l : Location) (b : UInt8) : Location :=
  if b = 0x0a then ⟨l.line + 1, 1⟩ else ⟨l.line, l.column + 1⟩

/-- The place of an offset.  An offset past the end is shown as the place just
after the last byte. -/
def ofOffset (source : Source) (offset : Nat) : Location :=
  (source.take offset).foldl advance start

end Location

end TapeFlow
