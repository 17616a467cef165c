import Std.Data.HashSet
import TapeFlow.Check.Reachable
import TapeFlow.Check.Violation

/-!
# Checking a module

`Module.check` looks at every function and reports the rules it breaks, the
blocks that cannot be reached, and some counts.  A function with no block at
its start gets one violation and is not looked at further.

Registers are looked at across a whole function: a read is in order as soon as
some instruction of the function defines the register, wherever it stands.
Where a symbol is declared twice, the last declaration counts.
-/

namespace TapeFlow

/-- What the checker counted. -/
structure Counts where
  /-- The instructions. -/
  instructions : Nat := 0
  /-- The blocks. -/
  blocks : Nat := 0
  /-- The terminators that stay in the function. -/
  branches : Nat := 0
  /-- The calls. -/
  calls : Nat := 0
  /-- The additions and subtractions. -/
  arithmetic : Nat := 0
  deriving DecidableEq

/-- What the checker found. -/
structure Report where
  /-- The rules that are broken, in the order they were found. -/
  violations : List Violation := []
  /-- The labels of blocks that cannot be reached. -/
  unreachable : List String := []
  /-- The counts. -/
  counts : Counts := {}
  deriving DecidableEq

namespace Counts

/-- Counts taken together. -/
def append (a b : Counts) : Counts :=
  ⟨a.instructions + b.instructions, a.blocks + b.blocks, a.branches + b.branches,
    a.calls + b.calls, a.arithmetic + b.arithmetic⟩

instance : Append Counts := ⟨append⟩

end Counts

namespace Report

/-- A module is well formed if it breaks no rule. -/
def valid (r : Report) : Bool := r.violations.isEmpty

/-- What there is to say about a well-formed module. -/
def warnings (r : Report) : List String :=
  r.unreachable.map fun label => s!"Block {label} is unreachable from entry"

/-- Reports taken together. -/
def append (a b : Report) : Report :=
  ⟨a.violations ++ b.violations, a.unreachable ++ b.unreachable, a.counts ++ b.counts⟩

instance : Append Report := ⟨append⟩

end Report

/-- The number of parameters of a symbol; the last declaration counts. -/
def Module.arity? (m : Module) (symbol : String) : Option Nat :=
  (m.declarations.reverse.find? fun d => d.name == symbol).map fun d => d.params.length

namespace Function

/-- The registers the function defines, in order and with repetitions. -/
def definitions (f : Function) : List Reg := f.instructions.filterMap Instruction.defined?

/-- The members of a list that came up before, each as often as it came up
again. -/
def repeats (seen : Std.HashSet Reg) : List Reg → List Reg
  | [] => []
  | r :: rs => if seen.contains r then r :: repeats seen rs else repeats (seen.insert r) rs

end Function

namespace Block

/-- Whether the block carries the number of its position. -/
def checkNumber (b : Block) (index : Nat) : List Violation :=
  if b.id.toNat = index then [] else [.misnumbered b.label b.id index]

/-- Whether registers are defined. -/
def checkReads (b : Block) (defined : Std.HashSet Reg) (used : List Reg) : List Violation :=
  (used.filter fun r => !defined.contains r).map (.undefined b.label)

/-- Whether a call fits a declaration. -/
def checkCall (b : Block) (m : Module) : Instruction → List Violation
  | .call _ symbol args =>
    match m.arity? symbol with
    | none => [.undeclared b.label symbol]
    | some expected =>
      if expected = args.length then [] else [.wrongArity b.label symbol expected args.length]
  | _ => []

/-- Whether an instruction is in order. -/
def checkInstruction (b : Block) (m : Module) (defined : Std.HashSet Reg) (i : Instruction) :
    List Violation :=
  b.checkCall m i ++ b.checkReads defined i.used

/-- Whether the block ends as it should. -/
def checkEnd (b : Block) (f : Function) (defined : Std.HashSet Reg) : List Violation :=
  match b.terminator with
  | none => [.missingTerminator b.label]
  | some t =>
    (t.successors.filter fun id => (f.block? id).isNone).map (.unknownTarget b.label) ++
      b.checkReads defined t.used

/-- The rules a block breaks. -/
def check (b : Block) (m : Module) (f : Function) (defined : Std.HashSet Reg) (index : Nat) :
    List Violation :=
  b.checkNumber index ++ b.instructions.toList.flatMap (b.checkInstruction m defined) ++
    b.checkEnd f defined

/-- The counts of a block. -/
def counts (b : Block) : Counts where
  instructions := b.instructions.size
  blocks := 1
  branches := if b.terminator.any Terminator.isBranch then 1 else 0
  calls := b.instructions.countP Instruction.isCall
  arithmetic := b.instructions.countP Instruction.isArithmetic

end Block

/-- Look at one function of a module. -/
def Module.checkFunction (m : Module) (f : Function) : Report :=
  if f.entryBlock?.isNone then
    { violations := [.missingEntry f.name] }
  else
    let defined := Std.HashSet.ofList f.definitions
    { violations :=
        (Function.repeats ∅ f.definitions).map .redefined ++
          f.blocks.toList.zipIdx.flatMap fun (b, index) => b.check m f defined index
      unreachable := f.unreachable
      counts := (f.blocks.toList.map Block.counts).foldl (· ++ ·) {} }

/-- Look at every function of a module. -/
def Module.check (m : Module) : Report :=
  (m.functions.map m.checkFunction).foldl (· ++ ·) {}

end TapeFlow
