import TapeFlow.Machine.Run

/-!
# Calls one after the other

An executor outlives its calls, and all that a call can leave to the next one is
memory.  A call that has a function to run starts from empty memory, so it leaves
nothing of what it found.  Running a module without functions touches nothing, and
then what is seen is the memory of an earlier call.

* `Executor.Call` — what can be asked of an executor; `Executor.after` — a history.
* `Executor.memory_after` — whose memory there is after a history.
* `Executor.after_eq_cleared_iff` — when a call has the effect that it would have on a
  new executor.
* `Executor.run_noFunctions_stale` — a call that leaves the memory of another.
-/

namespace TapeFlow

namespace Executor

/-- What can be asked of an executor. -/
inductive Call where
  /-- To run the first function of a module. -/
  | run (m : Module) (input : List UInt8) (fuel : Nat)
  /-- To run a function. -/
  | runFunction (f : Function) (input : List UInt8) (fuel : Nat)

namespace Call

/-- Make the call. -/
def on : Call → Executor → Option (Except Fault Outcome) × Executor
  | .run m input fuel, e => e.run m input fuel
  | .runFunction f input fuel, e => e.runFunction f input fuel

/-- The function that the call runs. -/
def function? : Call → Option Function
  | .run m _ _ => m.functions.head?
  | .runFunction f _ _ => some f

end Call

/-- The executor after some calls, whatever came of each. -/
def after (e : Executor) (calls : List Call) : Executor :=
  calls.foldl (fun e call => (call.on e).2) e

/-- A new executor with the same symbols and step limit. -/
def cleared (e : Executor) : Executor := ⟨e.symbols, e.stepLimit, {}⟩

theorem eq_cleared_iff {e : Executor} : e = e.cleared ↔ e.memory = {} := by
  obtain ⟨symbols, stepLimit, memory⟩ := e
  simp [cleared]

/-! ## One call -/

theorem runFunction_cleared (e : Executor) (f : Function) (input : List UInt8) (fuel : Nat) :
    e.cleared.runFunction f input fuel = e.runFunction f input fuel := rfl

variable {call : Call}

/-- A call with a function to run runs it, whichever call it is. -/
theorem Call.on_of_some {f : Function} (h : call.function? = some f) :
    ∃ input fuel, ∀ e, call.on e = e.runFunction f input fuel := by
  cases call with
  | run m input fuel =>
    obtain ⟨rest, hm⟩ := List.head?_eq_some_iff.1 h
    refine ⟨input, fuel, fun e => ?_⟩
    show e.run m input fuel = _
    unfold Executor.run
    rw [hm]
  | runFunction g input fuel =>
    cases h
    exact ⟨input, fuel, fun e => rfl⟩

/-- A call without one fails and changes nothing. -/
theorem Call.on_of_none (h : call.function? = none) (e : Executor) :
    call.on e = (some (.error .noFunctions), e) := by
  cases call with
  | run m input fuel =>
    have hm : m.functions = [] := List.head?_eq_none_iff.1 h
    show e.run m input fuel = _
    unfold Executor.run
    rw [hm]
  | runFunction g input fuel => cases h

/-- A call with a function to run does the same on a new executor. -/
theorem Call.on_cleared_of_some {f : Function} (h : call.function? = some f) (e : Executor) :
    call.on e.cleared = call.on e := by
  obtain ⟨input, fuel, hon⟩ := on_of_some h
  rw [hon, hon, runFunction_cleared]

@[simp] theorem Call.cleared_on (call : Call) (e : Executor) :
    (call.on e).2.cleared = e.cleared := by
  cases hf : call.function? with
  | none => rw [on_of_none hf]
  | some f =>
    obtain ⟨input, fuel, hon⟩ := on_of_some hf
    rw [hon]
    rfl

/-- What a call answers does not depend on the memory that it finds. -/
theorem Call.fst_on_cleared (call : Call) (e : Executor) :
    (call.on e.cleared).1 = (call.on e).1 := by
  cases hf : call.function? with
  | none => rw [on_of_none hf, on_of_none hf]
  | some f => rw [on_cleared_of_some hf]

/-! ## A history -/

@[simp] theorem after_cons (e : Executor) (call : Call) (calls : List Call) :
    e.after (call :: calls) = (call.on e).2.after calls := rfl

/-- Calls change neither the symbols nor the step limit. -/
@[simp] theorem cleared_after (e : Executor) (calls : List Call) :
    (e.after calls).cleared = e.cleared := by
  induction calls generalizing e with
  | nil => rfl
  | cons call calls ih => rw [after_cons, ih, Call.cleared_on]

/-- The last of the calls that have a function to run. -/
def lastStarted? (calls : List Call) : Option Call :=
  calls.reverse.find? fun call => call.function?.isSome

theorem lastStarted?_cons (call : Call) (calls : List Call) :
    lastStarted? (call :: calls) =
      (lastStarted? calls).or (if call.function?.isSome then some call else none) := by
  unfold lastStarted?
  rw [List.reverse_cons, List.find?_append, List.find?_singleton]

/-- The memory after a history is the one that its last call with a function to run leaves
on a new executor.  Without such a call, it is the memory that there was. -/
theorem memory_after (e : Executor) (calls : List Call) :
    (e.after calls).memory =
      ((lastStarted? calls).map fun call => (call.on e.cleared).2.memory).getD e.memory := by
  induction calls generalizing e with
  | nil => rfl
  | cons call calls ih =>
    rw [after_cons, ih, Call.cleared_on, lastStarted?_cons]
    cases lastStarted? calls with
    | some last => rfl
    | none =>
      cases hf : call.function? with
      | none =>
        rw [Call.on_of_none hf]
        rfl
      | some f =>
        rw [← Call.on_cleared_of_some hf e]
        rfl

/-- After any history a call answers what it answers on a new executor.  It leaves what it
leaves there exactly if it has a function to run, or if no memory was left by the last call
before it that had one. -/
theorem after_eq_cleared_iff (symbols : Symbols) (stepLimit : Option Nat) (before : List Call)
    (call : Call) :
    let new : Executor := ⟨symbols, stepLimit, {}⟩
    (call.on (new.after before)).1 = (call.on new).1 ∧
      ((call.on (new.after before)).2 = (call.on new).2 ↔
        call.function?.isSome = true ∨
          ∀ last, lastStarted? before = some last → (last.on new).2.memory = {}) := by
  intro new
  have hcleared : (new.after before).cleared = new := cleared_after new before
  have hmemory : (new.after before).memory = {} ↔
      ∀ last, lastStarted? before = some last → (last.on new).2.memory = {} := by
    rw [memory_after]
    cases lastStarted? before with
    | none => simp [new]
    | some last => simp [new, cleared]
  constructor
  · rw [← Call.fst_on_cleared call (new.after before), hcleared]
  · rw [← hmemory]
    cases hf : call.function? with
    | none =>
      rw [Call.on_of_none hf, Call.on_of_none hf, ← eq_cleared_iff, hcleared]
      simp
    | some f =>
      rw [← Call.on_cleared_of_some hf (new.after before), hcleared]
      simp

end Executor

/-- A module with a function that allocates one byte. -/
def Module.oneByte : Module :=
  ⟨"one", [], [⟨"main", .void,
    #[⟨⟨0⟩, "entry", #[.alloca ⟨0⟩ .i8 1], some (.ret none)⟩], ⟨0⟩⟩]⟩

/-- After a run that left a byte, running a module without functions still shows that byte,
where a new executor shows no memory at all. -/
theorem Executor.run_noFunctions_stale :
    let new : Executor := ⟨{}, none, {}⟩
    let empty : Executor.Call := .run ⟨"none", [], []⟩ [] 0
    (empty.on (new.after [.run Module.oneByte [] 2])).2.memory = ⟨#[#[0xcd]]⟩ ∧
      (empty.on new).2.memory = {} :=
  ⟨rfl, rfl⟩

end TapeFlow
