import TapeFlow.Error
import TapeFlow.Machine.Step

/-!
# Running a function

A run goes from step to step: an instruction or a terminator each time.
`Function.runFor` takes a given number of steps and says where the run then
stands, so it is total whether or not the function ever returns.

A step limit is the number of steps taken before the run is given up: a limited
run is an unlimited one cut off.  A run without a limit is given `fuel`, and has
no result if that does not suffice.
-/

namespace TapeFlow

/-- A place in a function: what is left of a block. -/
structure Position where
  /-- The label of the block. -/
  label : String
  /-- The instructions still to be done. -/
  rest : List Instruction
  /-- The end of the block. -/
  terminator : Option Terminator
  deriving DecidableEq

/-- The place before the first instruction of a block. -/
def Block.start (b : Block) : Position := ⟨b.label, b.instructions.toList, b.terminator⟩

/-- Where a step leads. -/
inductive Move where
  /-- To another place. -/
  | goto (position : Position)
  /-- Out of the function. -/
  | exit (code : UInt64)
  deriving DecidableEq

namespace Exec

/-- Go to the start of a block. -/
def enter (f : Function) (id : BlockId) : Exec Position :=
  match f.block? id with
  | some b => return b.start
  | none => throw (.missingBlock id)

/-- Do a terminator. -/
def leave (f : Function) : Terminator → Exec Move
  | .br target => .goto <$> enter f target
  | .condBr cond thenBlock elseBlock => do
    let word ← int cond
    .goto <$> enter f (if word = 0 then elseBlock else thenBlock)
  | .ret none => return .exit 0
  | .ret (some value) => .exit <$> int value

/-- Do the instruction or the terminator that comes next. -/
def tick (symbols : Symbols) (f : Function) (p : Position) : Exec Move := do
  modify fun m => { m with steps := m.steps + 1 }
  match p.rest with
  | i :: rest => do
    step symbols i
    return .goto { p with rest }
  | [] =>
    match p.terminator with
    | some t => leave f t
    | none => throw (.missingTerminator p.label)

end Exec

/-- Where a run stands. -/
inductive Status where
  /-- It can go on. -/
  | running (position : Position)
  /-- It has returned. -/
  | returned (code : UInt64)
  /-- It has faulted. -/
  | faulted (fault : Fault)
  deriving DecidableEq

namespace Function

/-- Take up to so many steps from a place. -/
def runFrom (f : Function) (symbols : Symbols) : Nat → Position → Machine → Status × Machine
  | 0, p, m => (.running p, m)
  | n + 1, p, m =>
    match Exec.tick symbols f p m with
    | .ok (.goto p) m => f.runFrom symbols n p m
    | .ok (.exit code) m => (.returned code, m)
    | .error fault m => (.faulted fault, m)

/-- Take up to so many steps from the start of the function. -/
def runFor (f : Function) (symbols : Symbols) (n : Nat) (m : Machine) : Status × Machine :=
  match Exec.enter f f.entry m with
  | .ok p m => f.runFrom symbols n p m
  | .error fault m => (.faulted fault, m)

end Function

/-- What a run that returned has to show. -/
structure Outcome where
  /-- The bytes written. -/
  output : Array UInt8
  /-- The value returned, zero if there is none. -/
  exitCode : UInt64
  /-- The instructions and terminators done, the same as in 64 bits if there are
  fewer than `2 ^ 64`. -/
  steps : Nat
  deriving DecidableEq

/-- Something that runs functions, one after the other. -/
structure Executor where
  /-- What symbols stand for. -/
  symbols : Symbols
  /-- The steps a run may take. -/
  stepLimit : Option Nat
  /-- The memory the last run left. -/
  memory : Memory := {}
  deriving DecidableEq

namespace Executor

/-- More steps than any run can take in practice, and still fewer than `2 ^ 64`. -/
def horizon : Nat := 0x4000000000000000

/-- Run a function from empty memory.  Without a step limit the run has no
result if it is not over after `fuel` steps. -/
def runFunction (e : Executor) (f : Function) (input : List UInt8) (fuel : Nat) :
    Option (Except Fault Outcome) × Executor :=
  let (status, m) := f.runFor e.symbols (e.stepLimit.getD fuel) { input }
  let result :=
    match status, e.stepLimit with
    | .returned code, _ => some (.ok ⟨m.output, code, m.steps⟩)
    | .faulted fault, _ => some (.error fault)
    | .running _, some limit => some (.error (.stepLimit limit))
    | .running _, none => none
  (result, { e with memory := m.memory })

/-- Run the first function of a module.  A module without functions is not run
at all, and the memory stays that of the run before. -/
def run (e : Executor) (m : Module) (input : List UInt8) (fuel : Nat) :
    Option (Except Fault Outcome) × Executor :=
  match m.functions with
  | f :: _ => e.runFunction f input fuel
  | [] => (some (.error .noFunctions), e)

end Executor

/-- A fault as an error. -/
def Fault.toError (fault : Fault) : Error := .execution fault.message

end TapeFlow
