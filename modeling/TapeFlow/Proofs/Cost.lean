import TapeFlow.Proofs.Preservation

/-!
# What a program costs

The steps of a compiled program are known beforehand up to the commands that it comes to.
Setting up the tape and returning take nine steps together, and each command takes four or
six, however often it has been done before and wherever it stands.

* `Command.sum_cost` — what a list of commands costs, by how often each comes up in it.
* `Runnable.steps_of_halted` — what a run costs that halts.
* `Runnable.run_of_halted` — it returns when it has that many steps, and not before.
* `compile_cost` — what follows for the results of an executor.
-/

namespace TapeFlow

/-- A list of commands costs as much as its commands do, each as often as it comes up. -/
theorem Command.sum_cost (cs : List Command) :
    (cs.map Command.cost).sum =
      4 * (cs.count .right + cs.count .left) + 6 * (cs.count .increment + cs.count .decrement) +
        4 * (cs.count .output + cs.count .input) +
        6 * (cs.count .loopOpen + cs.count .loopClose) := by
  induction cs with
  | nil => rfl
  | cons c cs ih =>
    rw [List.map_cons, List.sum_cons, ih]
    cases c <;> simp [cost] <;> omega

namespace Runnable

variable {options : Options} {cs : List Command} {e : Draft} {jumps : Array Nat}
  {input : List UInt8} {n : Nat} {t : Tape}

/-- A run that halts takes nine steps besides those of its commands. -/
theorem steps_of_halted
    (ht : Interpreter.runFrom cs jumps n 0 (.zeroed options.cellCount.toNat input) = .halted t) :
    steps options cs jumps input n = 9 + ((Interpreter.trace cs jumps n 0
      (.zeroed options.cellCount.toNat input)).map Command.cost).sum := by
  simp only [steps, Interpreter.steps, ht]
  omega

/-- The function of a program that halts returns once it is given all the steps that it
takes, and not before. -/
theorem run_of_halted (h : Runnable options cs e jumps)
    (ht : Interpreter.runFrom cs jumps n 0 (.zeroed options.cellCount.toNat input) = .halted t)
    {name : String} {declarations : List Declaration} {memory : Memory} (fuel : Nat) :
    (Executor.run ⟨options.symbols, none, memory⟩ ⟨name, declarations, [e.finished.finish]⟩ input
        fuel).1 =
      if steps options cs jumps input n ≤ fuel then
        some (.ok ⟨t.output, 0, steps options cs jumps input n⟩)
      else none := by
  obtain ⟨m, hrun, hm, hcount⟩ := h.returned_of_halted ht
  by_cases hfuel : steps options cs jumps input n ≤ fuel
  · rw [if_pos hfuel, Executor.run_of_runFor (Function.runFor_of_stopped hrun nofun hfuel),
      hm.output, hcount]
  · rw [if_neg hfuel, Executor.run_eq_none_iff]
    refine Function.runFor_running_of_lt hrun nofun ?_
    rw [hcount]
    exact Nat.not_le.1 hfuel

end Runnable

/-- A program that halts has a known cost.  Its module returns with the program's output
once it is given as many steps, and is still running with any fewer. -/
theorem compile_cost (options : Options) (source : Source) (input : List UInt8) (memory : Memory)
    (hbal : Balanced source.commands) (hsmall : source.commands.length < 2 ^ 29)
    (hnames : options.symbols.Distinct) (hcells : options.cellCount.toNat < 2 ^ 48) {n : Nat}
    {t : Tape} (ht : Interpreter.run source options.cellCount.toNat input n = some (.halted t)) :
    let executed := Interpreter.executed source options.cellCount.toNat input n
    let steps := 9 + 4 * (executed.count .right + executed.count .left) +
      6 * (executed.count .increment + executed.count .decrement) +
      4 * (executed.count .output + executed.count .input) +
      6 * (executed.count .loopOpen + executed.count .loopClose)
    ∃ compiled, (compile options source).1 = .ok compiled ∧ ∀ fuel,
      (Executor.run ⟨options.symbols, none, memory⟩ compiled.result input fuel).1 =
        if steps ≤ fuel then some (.ok ⟨t.output, 0, steps⟩) else none := by
  intro executed steps
  obtain ⟨compiled, e, jumps, hcompile, hresult, h⟩ :=
    exists_runnable options hbal hsmall hnames hcells
  rw [Interpreter.run_of_table h.table, Option.some.injEq] at ht
  have hsteps : Runnable.steps options source.commands jumps input n = steps := by
    rw [Runnable.steps_of_halted ht, ← Interpreter.executed_eq h.table, Command.sum_cost]
    simp only [steps, executed, Nat.add_assoc]
  refine ⟨compiled, hcompile, fun fuel => ?_⟩
  rw [hresult, h.run_of_halted ht, hsteps]

/-- The program `,[.-]` with a two to read goes round its loop twice.  It comes to eight
commands, and takes fifty-one steps. -/
theorem compile_cost_countdown :
    Balanced (Source.commands [0x2c, 0x5b, 0x2e, 0x2d, 0x5d]) ∧
      Interpreter.executed [0x2c, 0x5b, 0x2e, 0x2d, 0x5d] 1 [2] 9 =
        [.input, .loopOpen, .output, .decrement, .loopClose, .output, .decrement, .loopClose] ∧
      ∃ compiled, (compile { cellCount := 1 } [0x2c, 0x5b, 0x2e, 0x2d, 0x5d]).1 = .ok compiled ∧
        ∀ fuel, (Executor.run ⟨{}, none, {}⟩ compiled.result [2] fuel).1 =
          if 51 ≤ fuel then some (.ok ⟨#[2, 1], 0, 51⟩) else none := by
  have hprogram : Interpreter.run [0x2c, 0x5b, 0x2e, 0x2d, 0x5d] 1 [2] 9 =
      some (.halted ⟨#[0], 0, [], #[2, 1]⟩) := by decide
  exact ⟨by decide, by decide,
    compile_cost { cellCount := 1 } [0x2c, 0x5b, 0x2e, 0x2d, 0x5d] [2] {} (by decide) (by decide)
      (by decide) (by decide) hprogram⟩

end TapeFlow
