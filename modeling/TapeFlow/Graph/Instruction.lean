import TapeFlow.Graph.Ty

/-!
# Instructions and terminators

Three-address code over virtual registers.  A block is a list of instructions
with a terminator at the end; an instruction never transfers control.

For both kinds of code the registers they define and use are given here, and
the checker and the machine are both measured against these two lists.
-/

namespace TapeFlow

/-- A virtual register. -/
structure Reg where
  /-- The number that names it. -/
  index : UInt32
  deriving DecidableEq, Hashable, Inhabited

/-- The number of a block in its function. -/
structure BlockId where
  /-- The position it names. -/
  index : UInt32
  deriving DecidableEq, Inhabited

/-- The position a block number names. -/
def BlockId.toNat (id : BlockId) : Nat := id.index.toNat

/-- Straight-line code. -/
inductive Instruction where
  /-- `dst` is the constant `value`. -/
  | const (dst : Reg) (ty : Ty) (value : Int64)
  /-- `dst` is the address of fresh memory for `count` values. -/
  | alloca (dst : Reg) (ty : Ty) (count : UInt64)
  /-- `dst` is the value stored at `ptr`. -/
  | load (dst : Reg) (ty : Ty) (ptr : Reg)
  /-- Store `value` at `ptr`. -/
  | store (ty : Ty) (value ptr : Reg)
  /-- `dst` is the address `index` values past `base`. -/
  | gep (dst : Reg) (ty : Ty) (base index : Reg)
  /-- `dst` is the sum, wrapped to the type's width. -/
  | add (dst : Reg) (ty : Ty) (lhs rhs : Reg)
  /-- `dst` is the difference, wrapped to the type's width. -/
  | sub (dst : Reg) (ty : Ty) (lhs rhs : Reg)
  /-- `dst` says whether the operands differ at the type's width. -/
  | icmpNe (dst : Reg) (ty : Ty) (lhs rhs : Reg)
  /-- Call a symbol defined elsewhere; `dst` is its result, where one is kept. -/
  | call (dst : Option Reg) (symbol : String) (args : List Reg)
  deriving DecidableEq, Inhabited

namespace Instruction

/-- The register an instruction writes. -/
def defined? : Instruction → Option Reg
  | const dst .. | alloca dst .. | load dst .. | gep dst .. | add dst .. | sub dst ..
  | icmpNe dst .. => some dst
  | call dst .. => dst
  | store .. => none

/-- The registers an instruction reads, in order. -/
def used : Instruction → List Reg
  | const .. | alloca .. => []
  | load _ _ ptr => [ptr]
  | store _ value ptr => [value, ptr]
  | gep _ _ a b | add _ _ a b | sub _ _ a b | icmpNe _ _ a b => [a, b]
  | call _ _ args => args

/-- Additions and subtractions. -/
def isArithmetic : Instruction → Bool
  | add .. | sub .. => true
  | _ => false

/-- Calls. -/
def isCall : Instruction → Bool
  | call .. => true
  | _ => false

end Instruction

/-- The end of a block. -/
inductive Terminator where
  /-- Go on at a block. -/
  | br (target : BlockId)
  /-- Go on at `thenBlock` if `cond` is not zero, else at `elseBlock`. -/
  | condBr (cond : Reg) (thenBlock elseBlock : BlockId)
  /-- Leave the function, with a value or without. -/
  | ret (value : Option Reg)
  deriving DecidableEq, Inhabited

namespace Terminator

/-- The blocks control can go to, in the order they are written. -/
def successors : Terminator → List BlockId
  | br target => [target]
  | condBr _ thenBlock elseBlock => [thenBlock, elseBlock]
  | ret _ => []

/-- The registers a terminator reads. -/
def used : Terminator → List Reg
  | br _ => []
  | condBr cond .. => [cond]
  | ret value => value.toList

/-- Whether control stays in the function. -/
def isBranch : Terminator → Bool
  | br _ | condBr .. => true
  | ret _ => false

end Terminator

end TapeFlow
