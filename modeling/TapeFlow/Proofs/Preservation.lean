import TapeFlow.Proofs.Outcome
import TapeFlow.Proofs.Simulation

/-!
# The generated function does what the program does

A run of the function that a source is lowered to ends as the program does on its
tape: it returns if the program halts, it faults if the program finds no cell
under its pointer, and it goes on for ever if the program does.

* `Runnable.agrees_runFor` — from the start of the function on, the two runs stay
  together, a command for as many steps as it costs.
* `Runnable.returned_of_halted`, `Runnable.exists_faulted` — where the program ends,
  the function ends in the same way.
* `Runnable.agrees_of_stopped` — the function ends nowhere else.
* `lower_preserves_runs` — what follows for the results of an executor.
-/

namespace TapeFlow

namespace Runnable

variable {options : Options} {cs : List Command} {e : Draft} {jumps : Array Nat}

/-- The function begins by setting up the tape, and then stands at the first
command. -/
theorem simulates_start (h : Runnable options cs e jumps) (input : List UInt8) :
    ∃ p m, Simulates options cs 0 (.zeroed options.cellCount.toNat input) p m ∧
      ∀ n, e.finished.finish.runFor options.symbols (7 + n) { input } =
          e.finished.finish.runFrom options.symbols n p m := by
  obtain ⟨m, hcode, hm⟩ := Machine.holds_setUp h.distinct h.cells input
  have hentry : e.finished.finish.block? e.finished.finish.entry =
      some ((((Block.empty (.ofNat 0) "entry").extend
        (TapeLayout.setUpCode options.symbols options.cellCount)).extend
        (Draft.segment options.symbols (tapeLayout options) 5 cs)).finish (Draft.ending {} 5 cs)) :=
    Draft.getElem?_finished_current (Draft.fits_start options) h.completes.run rfl
  have henter : Exec.enter e.finished.finish e.finished.finish.entry { input } =
      .ok ⟨"entry", TapeLayout.setUpCode options.symbols options.cellCount ++
        Draft.segment options.symbols (tapeLayout options) 5 cs, some (Draft.ending {} 5 cs)⟩
        { input } := by
    rw [Exec.enter, hentry]
    simp [Block.start, Block.extend, Block.finish, Block.empty, pure, EStateM.pure]
  refine ⟨⟨"entry", Draft.segment options.symbols (tapeLayout options) 5 cs,
    some (Draft.ending {} 5 cs)⟩, m,
    ⟨[], cs, rfl, rfl, ⟨Draft.start options, rfl, rfl, rfl⟩, hm⟩, fun n => ?_⟩
  rw [Function.runFor, henter]
  exact Function.runFrom_code_of_ok hcode n

/-- The steps of the function for a run of up to so many commands on a fresh tape, the
seven that set up the tape included. -/
def steps (options : Options) (cs : List Command) (jumps : Array Nat) (input : List UInt8)
    (n : Nat) : Nat :=
  7 + Interpreter.steps cs jumps n 0 (.zeroed options.cellCount.toNat input)

/-- From the start on, the two runs stay together. -/
theorem agrees_runFor (h : Runnable options cs e jumps) (input : List UInt8) (n : Nat) :
    Agrees options cs (steps options cs jumps input n)
      (Interpreter.runFrom cs jumps n 0 (.zeroed options.cellCount.toNat input))
      (e.finished.finish.runFor options.symbols (steps options cs jumps input n) { input }) := by
  obtain ⟨p, m, hsim, hrun⟩ := h.simulates_start input
  have hcount : m.steps = 7 := (Function.runFor_steps (hrun 0)).2.2 p rfl
  have hagree := h.run hsim n
  rw [hcount] at hagree
  rw [steps, hrun]
  exact hagree

/-! ## How the runs end -/

variable {input : List UInt8} {n : Nat} {t : Tape} {m : Machine}

/-- If the program halts, the function returns zero, after as many steps as the program
costs. -/
theorem returned_of_halted (h : Runnable options cs e jumps)
    (ht : Interpreter.runFrom cs jumps n 0 (.zeroed options.cellCount.toNat input) = .halted t) :
    ∃ m, e.finished.finish.runFor options.symbols (steps options cs jumps input n) { input } =
        (.returned 0, m) ∧ m.Holds t ∧ m.steps = steps options cs jumps input n := by
  have hagree := h.agrees_runFor input n
  rw [ht] at hagree
  generalize e.finished.finish.runFor options.symbols (steps options cs jumps input n) { input } =
    result at hagree
  cases hagree with
  | halted holds counted => exact ⟨_, rfl, holds, counted⟩

theorem exists_returned (h : Runnable options cs e jumps)
    (ht : Interpreter.runFrom cs jumps n 0 (.zeroed options.cellCount.toNat input) = .halted t) :
    ∃ k m, e.finished.finish.runFor options.symbols k { input } = (.returned 0, m) ∧ m.Holds t := by
  obtain ⟨m, hrun, hm, -⟩ := h.returned_of_halted ht
  exact ⟨_, m, hrun, hm⟩

/-- If the program finds no cell, the function faults there. -/
theorem exists_faulted (h : Runnable options cs e jumps)
    (ht : Interpreter.runFrom cs jumps n 0 (.zeroed options.cellCount.toNat input) = .faulted t) :
    ∃ k m, e.finished.finish.runFor options.symbols k { input } =
        (.faulted (.outOfRange 1 t.pointer.toNat 0 t.cells.size), m) ∧
      m.memory.allocations = t.allocations := by
  have hagree := h.agrees_runFor input n
  rw [ht] at hagree
  generalize hrun : e.finished.finish.runFor options.symbols (steps options cs jumps input n)
    { input } = result at hagree
  cases hagree with
  | faulted memory => exact ⟨_, _, hrun, memory⟩

/-- A function that is over after `n` steps is so because the program is over
after at most `n` commands. -/
theorem agrees_of_stopped (h : Runnable options cs e jumps) {status : Status}
    (hrun : e.finished.finish.runFor options.symbols n { input } = (status, m))
    (hstop : ∀ q, status ≠ .running q) : ∃ taken,
    Agrees options cs taken
      (Interpreter.runFrom cs jumps n 0 (.zeroed options.cellCount.toNat input)) (status, m) := by
  have hagree := h.agrees_runFor input n
  generalize hprogress : Interpreter.runFrom cs jumps n 0 (.zeroed options.cellCount.toNat input) =
    progress at hagree ⊢
  generalize hrun' : e.finished.finish.runFor options.symbols (steps options cs jumps input n)
    { input } = result at hagree
  cases hagree with
  | running here =>
    -- so many commands take as many steps at least, and by then the function is over
    have hle : n ≤ steps options cs jumps input n :=
      Nat.le_add_left_of_le (Interpreter.le_steps hprogress)
    rw [Function.runFor_of_stopped hrun hstop hle] at hrun'
    cases hrun'
    exact absurd rfl (hstop _)
  | halted holds counted =>
    obtain ⟨rfl, rfl⟩ := Function.runFor_unique hrun hstop hrun' nofun
    exact ⟨_, .halted holds counted⟩
  | faulted memory =>
    obtain ⟨rfl, rfl⟩ := Function.runFor_unique hrun hstop hrun' nofun
    exact ⟨0, .faulted memory⟩

theorem exists_halted (h : Runnable options cs e jumps) {code : UInt64}
    (hrun : e.finished.finish.runFor options.symbols n { input } = (.returned code, m)) :
    ∃ t, Interpreter.runFrom cs jumps n 0 (.zeroed options.cellCount.toNat input) = .halted t := by
  obtain ⟨taken, hagree⟩ := h.agrees_of_stopped hrun nofun
  generalize Interpreter.runFrom cs jumps n 0 (.zeroed options.cellCount.toNat input) = progress
    at hagree
  cases hagree with
  | halted holds counted => exact ⟨_, rfl⟩

theorem exists_no_cell (h : Runnable options cs e jumps) {fault : Fault}
    (hrun : e.finished.finish.runFor options.symbols n { input } = (.faulted fault, m)) :
    ∃ t, Interpreter.runFrom cs jumps n 0 (.zeroed options.cellCount.toNat input) = .faulted t := by
  obtain ⟨taken, hagree⟩ := h.agrees_of_stopped hrun nofun
  generalize Interpreter.runFrom cs jumps n 0 (.zeroed options.cellCount.toNat input) = progress
    at hagree
  cases hagree with
  | faulted memory => exact ⟨_, rfl⟩

/-- The one run goes on for ever exactly if the other does. -/
theorem forever_iff (h : Runnable options cs e jumps) :
    (∀ fuel, ∃ p m, e.finished.finish.runFor options.symbols fuel { input } = (.running p, m)) ↔
      ∀ n, ∃ position t, Interpreter.runFrom cs jumps n 0
        (.zeroed options.cellCount.toNat input) = .running position t := by
  constructor
  · intro hrunning n
    cases ht : Interpreter.runFrom cs jumps n 0 (.zeroed options.cellCount.toNat input) with
    | running position t => exact ⟨position, t, rfl⟩
    | halted t =>
      obtain ⟨k, m, hrun, -⟩ := h.exists_returned ht
      obtain ⟨p, m', hp⟩ := hrunning k
      cases hrun.symm.trans hp
    | faulted t =>
      obtain ⟨k, m, hrun, -⟩ := h.exists_faulted ht
      obtain ⟨p, m', hp⟩ := hrunning k
      cases hrun.symm.trans hp
  · intro hrunning fuel
    obtain ⟨position, t, ht⟩ := hrunning fuel
    cases hrun : e.finished.finish.runFor options.symbols fuel { input } with
    | mk status m =>
      cases status with
      | running p => exact ⟨p, m, rfl⟩
      | returned code =>
        obtain ⟨u, hu⟩ := h.exists_halted hrun
        cases ht.symm.trans hu
      | faulted fault =>
        obtain ⟨u, hu⟩ := h.exists_no_cell hrun
        cases ht.symm.trans hu

end Runnable

/-- A program whose brackets match is compiled, under distinct names, to a module whose one
function can be run in its place. -/
theorem exists_runnable (options : Options) {source : Source} (hbal : Balanced source.commands)
    (hsmall : source.commands.length < 2 ^ 29) (hnames : options.symbols.Distinct)
    (hcells : options.cellCount.toNat < 2 ^ 48) :
    ∃ (compiled : Compiled) (e : Draft) (jumps : Array Nat),
      (compile options source).1 = .ok compiled ∧ compiled.result =
        ⟨options.moduleName, options.symbols.declarations, [e.finished.finish]⟩ ∧
      Runnable options source.commands e jumps := by
  have hfits : options.cellCount.toNat < 2 ^ 63 := Nat.lt_trans hcells (by decide)
  obtain ⟨e, tally, he, hlower⟩ := lower_eq_finished hfits hbal hsmall
  obtain ⟨result, tally', hcompile, hvalid⟩ := compile_of_balanced hfits hsmall hbal
  obtain ⟨jumps, hjumps⟩ := Jumps.exists_ofProgram? hbal
  obtain ⟨compiled, hok⟩ : ∃ compiled, (compile options source).1 = .ok compiled := by
    cases hverify : options.verify with
    | false => exact ⟨_, hcompile.trans (verify_off hverify result tally')⟩
    | true => exact ⟨_, hcompile.trans (verify_of_valid hverify (hvalid hnames) tally')⟩
  have hresult := (lower_of_compile hok).1.symm.trans hlower
  exact ⟨compiled, e, jumps, hok, congrArg Prod.fst (Except.ok.inj hresult),
    he, hnames, hcells, hjumps⟩

/-- For every program whose brackets match, on a tape that can be allocated, the
module it is lowered to can be run in place of the program.

* A run returns exactly if the program halts.  It then returns zero, with the
  program's output, and leaves the program's cells and pointer in memory.
* A run faults exactly if the program finds no cell under its pointer.  The fault
  is an access outside the first allocation, and memory has the cells and the
  pointer as they then are.
* A run goes on for ever exactly if the program does. -/
theorem lower_preserves_runs (options : Options) (source : Source) (input : List UInt8)
    (memory : Memory) (hbal : Balanced source.commands) (hsmall : source.commands.length < 2 ^ 29)
    (hnames : options.symbols.Distinct) (hcells : options.cellCount.toNat < 2 ^ 48) :
    ∃ m tally, (lower options (.ofSource source)).1 = .ok (m, tally) ∧
      let run := Executor.run ⟨options.symbols, none, memory⟩ m input
      let program := Interpreter.run source options.cellCount.toNat input
      ((∃ fuel outcome, (run fuel).1 = some (.ok outcome)) ↔ ∃ n t, program n = some (.halted t)) ∧
      (∀ fuel outcome n t, (run fuel).1 = some (.ok outcome) → program n = some (.halted t) →
        outcome.output = t.output ∧ outcome.exitCode = 0 ∧
          (run fuel).2.memory.allocations = #[t.cells, (littleEndian 8 t.pointer).toArray]) ∧
      ((∃ fuel fault, (run fuel).1 = some (.error fault)) ↔ ∃ n t, program n = some (.faulted t)) ∧
      (∀ fuel fault n t, (run fuel).1 = some (.error fault) → program n = some (.faulted t) →
        fault = .outOfRange 1 t.pointer.toNat 0 t.cells.size ∧
          (run fuel).2.memory.allocations = #[t.cells, (littleEndian 8 t.pointer).toArray]) ∧
      ((∀ fuel, (run fuel).1 = none) ↔ ∀ n, ∃ position t, program n = some (.running position t)) := by
  obtain ⟨e, tally, he, hlower⟩ := lower_eq_finished (Nat.lt_trans hcells (by decide)) hbal hsmall
  obtain ⟨jumps, hjumps⟩ := Jumps.exists_ofProgram? hbal
  have h : Runnable options source.commands e jumps := ⟨he, hnames, hcells, hjumps⟩
  have hprogram : ∀ n, Interpreter.run source options.cellCount.toNat input n =
      some (Interpreter.runFrom source.commands jumps n 0 (.zeroed options.cellCount.toNat input)) := by
    intro n
    rw [Interpreter.run, hjumps, Option.map_some]
  refine ⟨_, tally, hlower, ?_⟩
  simp only [hprogram, Option.some.injEq]
  refine ⟨⟨?_, ?_⟩, ?_, ⟨?_, ?_⟩, ?_, ?_⟩
  · rintro ⟨fuel, outcome, hok⟩
    obtain ⟨m, hrun, -⟩ := Executor.exists_of_run_ok hok
    exact ⟨fuel, h.exists_halted hrun⟩
  · rintro ⟨n, t, ht⟩
    obtain ⟨k, m, hrun, -⟩ := h.exists_returned ht
    exact ⟨k, _, by rw [Executor.run_of_runFor hrun]⟩
  · intro fuel outcome n t hok ht
    obtain ⟨m, hrun, hout, hmem⟩ := Executor.exists_of_run_ok hok
    obtain ⟨k, m', hrun', hm⟩ := h.exists_returned ht
    obtain ⟨hcode, rfl⟩ := Function.runFor_unique hrun nofun hrun' nofun
    exact ⟨hout.trans hm.output, Status.returned.inj hcode, hmem ▸ hm.memory⟩
  · rintro ⟨fuel, fault, herr⟩
    obtain ⟨m, hrun, -⟩ := Executor.exists_of_run_error herr
    exact ⟨fuel, h.exists_no_cell hrun⟩
  · rintro ⟨n, t, ht⟩
    obtain ⟨k, m, hrun, -⟩ := h.exists_faulted ht
    exact ⟨k, _, by rw [Executor.run_of_runFor hrun]⟩
  · intro fuel fault n t herr ht
    obtain ⟨m, hrun, hmem⟩ := Executor.exists_of_run_error herr
    obtain ⟨k, m', hrun', hm⟩ := h.exists_faulted ht
    obtain ⟨hfault, rfl⟩ := Function.runFor_unique hrun nofun hrun' nofun
    exact ⟨Status.faulted.inj hfault, hmem ▸ hm⟩
  · simp only [Executor.run_eq_none_iff]
    exact h.forever_iff

/-- The program `,[.-]` on one cell, with a two to read, writes two and one; its
function does so too, and leaves a zero cell and a zero pointer. -/
theorem lower_preserves_runs_countdown :
    Balanced (Source.commands [0x2c, 0x5b, 0x2e, 0x2d, 0x5d]) ∧
      (Source.commands [0x2c, 0x5b, 0x2e, 0x2d, 0x5d]).length < 2 ^ 29 ∧
      ({} : Options).symbols.Distinct ∧
      ∃ m tally, (lower { cellCount := 1 } (.ofSource [0x2c, 0x5b, 0x2e, 0x2d, 0x5d])).1 =
          .ok (m, tally) ∧
        ∃ fuel outcome, (Executor.run ⟨{}, none, {}⟩ m [2] fuel).1 = some (.ok outcome) ∧
          outcome.output = #[2, 1] ∧ outcome.exitCode = 0 ∧
          (Executor.run ⟨{}, none, {}⟩ m [2] fuel).2.memory.allocations =
            #[#[0], #[0, 0, 0, 0, 0, 0, 0, 0]] := by
  refine ⟨by decide, by decide, by decide, ?_⟩
  obtain ⟨m, tally, hlower, hreturns, hresult, -⟩ :=
    lower_preserves_runs { cellCount := 1 } [0x2c, 0x5b, 0x2e, 0x2d, 0x5d] [2] {} (by decide)
      (by decide) (by decide) (by decide)
  have hprogram : Interpreter.run [0x2c, 0x5b, 0x2e, 0x2d, 0x5d] 1 [2] 9 =
      some (.halted ⟨#[0], 0, [], #[2, 1]⟩) := by decide
  obtain ⟨fuel, outcome, hok⟩ := hreturns.2 ⟨9, _, hprogram⟩
  exact ⟨m, tally, hlower, fuel, outcome, hok, hresult fuel outcome 9 _ hok hprogram⟩

end TapeFlow
