import TapeFlow.Graph.Module

/-!
# Rules a module can break

`Violation` lists the ways in which a module can be malformed, and
`Violation.message` puts each into words.
-/

namespace TapeFlow

/-- A way in which a module is malformed.  Blocks are named by their labels. -/
inductive Violation where
  /-- The function has no block at its start. -/
  | missingEntry (function : String)
  /-- The block has no terminator. -/
  | missingTerminator (block : String)
  /-- The block branches to a number that names no block. -/
  | unknownTarget (block : String) (target : BlockId)
  /-- The block carries a number that is not its position. -/
  | misnumbered (block : String) (id : BlockId) (index : Nat)
  /-- The block calls a symbol that is not declared. -/
  | undeclared (block symbol : String)
  /-- The block calls a symbol with a wrong number of arguments. -/
  | wrongArity (block symbol : String) (expected got : Nat)
  /-- The register is defined again. -/
  | redefined (reg : Reg)
  /-- The block reads a register that nothing in the function defines. -/
  | undefined (block : String) (reg : Reg)
  deriving DecidableEq

/-- The words for a violation. -/
def Violation.message : Violation → String
  | missingEntry function => s!"Function {function} has no entry block"
  | missingTerminator block => s!"Block {block} has no terminator"
  | unknownTarget block target => s!"Block {block} branches to unknown block #{target.toNat}"
  | misnumbered block id index => s!"Block {block} has id #{id.toNat} at index {index}"
  | undeclared block symbol => s!"Block {block} calls undeclared symbol {symbol}"
  | wrongArity block symbol expected got =>
    s!"Block {block} calls {symbol} with {got} arguments (expected {expected})"
  | redefined reg => s!"Register r{reg.index.toNat} is defined more than once"
  | undefined block reg => s!"Block {block} reads undefined register r{reg.index.toNat}"

end TapeFlow
