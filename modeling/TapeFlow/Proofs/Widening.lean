import TapeFlow.Proofs.Cost

/-!
# Longer tapes

A program that never finds its pointer off the tape does not see how long the tape is.  On
a longer one it does the same, and the cells that were added stay zero.

* `Tape.widen` — the same tape with zero cells added behind it.
* `Tape.perform?_widen`, `Interpreter.step_widen` — one command does the same on both tapes.
* `Interpreter.runFrom_widen` — so does a run, for the same steps.
* `compile_widen` — what follows for the results of an executor.
-/

namespace TapeFlow

/-- Add zero cells behind the tape. -/
def Tape.widen (extra : Nat) (t : Tape) : Tape :=
  { t with cells := t.cells ++ Array.replicate extra 0 }

/-- The same for the tape of a run. -/
def Progress.widen (extra : Nat) : Progress → Progress
  | .running position t => .running position (t.widen extra)
  | .halted t => .halted (t.widen extra)
  | .faulted t => .faulted (t.widen extra)

/-! ## Commands -/

namespace Tape

variable {t u : Tape} {extra : Nat}

theorem widen_zeroed (extra cellCount : Nat) (input : List UInt8) :
    (zeroed cellCount input).widen extra = zeroed (cellCount + extra) input := by
  rw [widen, zeroed, zeroed, Array.replicate_append_replicate]

theorem cell?_widen {b : UInt8} (h : t.cell? = some b) : (t.widen extra).cell? = some b := by
  obtain ⟨hlt, -⟩ := Array.getElem?_eq_some_iff.1 h
  exact (Array.getElem?_append_left hlt).trans h

theorem setCell_widen {b : UInt8} (h : t.cell? = some b) (x : UInt8) :
    (t.widen extra).setCell x = (t.setCell x).widen extra := by
  obtain ⟨hlt, -⟩ := Array.getElem?_eq_some_iff.1 h
  simp only [setCell, widen, Array.setIfInBounds_append_left hlt]

/-- A command that finds its cell finds it on the longer tape, and does the same there. -/
theorem perform?_widen {c : Command} (h : t.perform? c = some u) :
    (t.widen extra).perform? c = some (u.widen extra) := by
  cases c with
  | right | left =>
    cases h
    rfl
  | increment | decrement =>
    obtain ⟨b, hb, rfl⟩ := Option.map_eq_some_iff.1 h
    rw [perform?, cell?_widen hb, Option.map_some, setCell_widen hb]
  | input =>
    obtain ⟨b, hb, rfl⟩ := Option.map_eq_some_iff.1 h
    rw [perform?, cell?_widen hb, Option.map_some, setCell_widen hb]
    rfl
  | output =>
    obtain ⟨b, hb, rfl⟩ := Option.map_eq_some_iff.1 h
    rw [perform?, cell?_widen hb, Option.map_some]
    rfl
  | loopOpen | loopClose =>
    obtain ⟨b, hb, rfl⟩ := Option.map_eq_some_iff.1 h
    rw [perform?, cell?_widen hb, Option.map_some]

end Tape

/-! ## Runs -/

namespace Interpreter

variable {program : List Command} {jumps : Array Nat} {n position : Nat} {t u : Tape}

/-- A bracket looks at its cell only, so it leads to the same place. -/
theorem next_widen {c : Command} (h : t.perform? c = some u) (extra : Nat) :
    next jumps position (u.widen extra) c = next jumps position u c := by
  cases c with
  | loopOpen | loopClose =>
    obtain ⟨b, hb, rfl⟩ := Option.map_eq_some_iff.1 h
    simp only [next, hb, Tape.cell?_widen hb]
  | _ => rfl

theorem step_widen (h : ∀ u, step program jumps position t ≠ .faulted u) (extra : Nat) :
    step program jumps position (t.widen extra) =
      (step program jumps position t).widen extra := by
  rcases step_cases program jumps position t with
    ⟨hend, hstep⟩ | ⟨c, hc, ⟨-, hstep⟩ | ⟨u, hperform, hstep⟩⟩
  · simp only [step, hend, Progress.widen]
  · exact absurd hstep (h t)
  · rw [hstep]
    simp only [step, hc, Tape.perform?_widen hperform, next_widen hperform, Progress.widen]

/-- A run that finds all its cells is the same on a longer tape, and takes as many steps. -/
theorem runFrom_widen (h : ∀ u, runFrom program jumps n position t ≠ .faulted u) (extra : Nat) :
    runFrom program jumps n position (t.widen extra) =
        (runFrom program jumps n position t).widen extra ∧
      steps program jumps n position (t.widen extra) = steps program jumps n position t := by
  induction n generalizing position t with
  | zero => exact ⟨rfl, rfl⟩
  | succ n ih =>
    rw [runFrom] at h
    have hfound : ∀ u, step program jumps position t ≠ .faulted u := by
      intro u hu
      rw [hu] at h
      exact h u rfl
    rw [steps_succ, steps_succ, runFrom, runFrom, step_widen hfound extra]
    cases hstep : step program jumps position t with
    | running position' t' =>
      rw [hstep] at h
      obtain ⟨hrun, hsteps⟩ := ih h
      exact ⟨hrun, congrArg _ hsteps⟩
    | halted t' => exact ⟨rfl, rfl⟩
    | faulted t' => exact absurd hstep (hfound t')

end Interpreter

/-! ## What an executor makes of it -/

/-- If the function for a tape returns, the function for a longer tape returns after as many
steps, with the same output, and leaves the same memory up to the zero cells added. -/
theorem Runnable.returned_widen {options options' : Options} {cs : List Command} {e e' : Draft}
    {jumps : Array Nat} (h : Runnable options cs e jumps) (h' : Runnable options' cs e' jumps)
    {extra : Nat} (hcells : options'.cellCount.toNat = options.cellCount.toNat + extra)
    {input : List UInt8} {n : Nat} {code : UInt64} {m : Machine}
    (hrun : e.finished.finish.runFor options.symbols n { input } = (.returned code, m)) :
    ∃ (t : Tape) (m' : Machine),
      e'.finished.finish.runFor options'.symbols n { input } = (.returned code, m') ∧
      m'.output = m.output ∧ m'.steps = m.steps ∧ m.memory.allocations = t.allocations ∧
      m'.memory.allocations = (t.widen extra).allocations := by
  obtain ⟨t, ht⟩ := h.exists_halted hrun
  obtain ⟨m₁, hrun₁, hm₁, hsteps₁⟩ := h.returned_of_halted ht
  obtain ⟨hcode, rfl⟩ := Function.runFor_unique hrun nofun hrun₁ nofun
  obtain rfl := Status.returned.inj hcode
  -- on the longer tape the program halts after the same commands
  obtain ⟨hhalts, hcost⟩ := Interpreter.runFrom_widen (by rw [ht]; exact nofun) extra
  rw [ht, Tape.widen_zeroed, ← hcells] at hhalts
  rw [Tape.widen_zeroed, ← hcells] at hcost
  obtain ⟨m', hrun', hm', hsteps'⟩ := h'.returned_of_halted hhalts
  have hsame : steps options' cs jumps input n = m.steps := by
    rw [hsteps₁, steps, steps, hcost]
  have hle : steps options' cs jumps input n ≤ n := hsame ▸ (Function.runFor_steps hrun).1
  exact ⟨t, m', Function.runFor_of_stopped hrun' nofun hle, hm'.output.trans hm₁.output.symm,
    hsteps'.trans hsame, hm₁.memory, hm'.memory⟩

/-- A program that returns does the same on a longer tape: it has the same output and exit
code after the same number of steps, leaves the same data pointer, and leaves its cells with
zeros behind them. -/
theorem compile_widen (options : Options) (source : Source) (input : List UInt8) (memory : Memory)
    (limit : Option Nat) (hbal : Balanced source.commands)
    (hsmall : source.commands.length < 2 ^ 29) (hnames : options.symbols.Distinct)
    {fewer more : UInt64} (hle : fewer ≤ more) (hcells : more.toNat < 2 ^ 48) :
    ∃ narrow wide, (compile { options with cellCount := fewer } source).1 = .ok narrow ∧
      (compile { options with cellCount := more } source).1 = .ok wide ∧
      let run (compiled : Compiled) :=
        Executor.run ⟨options.symbols, limit, memory⟩ compiled.result input
      ∀ fuel outcome, (run narrow fuel).1 = some (.ok outcome) →
        (run wide fuel).1 = some (.ok outcome) ∧
        ∃ tape slot, (run narrow fuel).2.memory.allocations = #[tape, slot] ∧
          (run wide fuel).2.memory.allocations =
            #[tape ++ Array.replicate (more.toNat - fewer.toNat) 0, slot] := by
  have hle' : fewer.toNat ≤ more.toNat := UInt64.le_iff_toNat_le.1 hle
  obtain ⟨narrow, e, jumps, hnarrow, hresult, h⟩ :=
    exists_runnable { options with cellCount := fewer } hbal hsmall hnames
      (Nat.lt_of_le_of_lt hle' hcells)
  obtain ⟨wide, e', jumps', hwide, hresult', h'⟩ :=
    exists_runnable { options with cellCount := more } hbal hsmall hnames hcells
  obtain rfl : jumps = jumps' := Option.some.inj (h.table.symm.trans h'.table)
  refine ⟨narrow, wide, hnarrow, hwide, ?_⟩
  intro run fuel outcome hok
  simp only [run, hresult, hresult', Executor.memory_run, Executor.run_eq_ok_iff] at hok ⊢
  obtain ⟨m, hrun, houtcome⟩ := hok
  obtain ⟨t, m', hrun', houtput, hsteps, hmem, hmem'⟩ :=
    h.returned_widen h' (Nat.add_sub_cancel' hle').symm hrun
  refine ⟨⟨m', hrun', ?_⟩, t.cells, (littleEndian 8 t.pointer).toArray, ?_, ?_⟩
  · rw [houtput, hsteps]
    exact houtcome
  · rw [hrun]
    exact hmem
  · rw [hrun']
    exact hmem'

/-- The program `+<>.` leaves its one cell to the left and comes back.  With three cells it
does the same, and two zeros stand behind what was its tape. -/
theorem compile_widen_excursion :
    Balanced (Source.commands [0x2b, 0x3c, 0x3e, 0x2e]) ∧
      ∃ narrow wide, (compile { cellCount := 1 } [0x2b, 0x3c, 0x3e, 0x2e]).1 = .ok narrow ∧
        (compile { cellCount := 3 } [0x2b, 0x3c, 0x3e, 0x2e]).1 = .ok wide ∧
        let run (compiled : Compiled) := Executor.run ⟨{}, none, {}⟩ compiled.result [] 27
        (run narrow).1 = some (.ok ⟨#[1], 0, 27⟩) ∧ (run wide).1 = some (.ok ⟨#[1], 0, 27⟩) ∧
        ∃ tape slot, (run narrow).2.memory.allocations = #[tape, slot] ∧
          (run wide).2.memory.allocations = #[tape ++ #[0, 0], slot] := by
  have hbal : Balanced (Source.commands [0x2b, 0x3c, 0x3e, 0x2e]) := by decide
  obtain ⟨narrow, wide, hnarrow, hwide, hsame⟩ :=
    compile_widen {} [0x2b, 0x3c, 0x3e, 0x2e] [] {} none hbal (by decide) (by decide)
      (show (1 : UInt64) ≤ 3 by decide) (by decide)
  obtain ⟨compiled, e, jumps, hcompile, hresult, h⟩ :=
    exists_runnable { cellCount := 1 } hbal (by decide) (by decide) (by decide)
  obtain rfl : narrow = compiled := Except.ok.inj (hnarrow.symm.trans hcompile)
  obtain rfl : #[0, 0, 0, 0] = jumps := Option.some.inj (Eq.trans (by decide) h.table)
  have hok : (Executor.run ⟨{}, none, {}⟩ narrow.result [] 27).1 = some (.ok ⟨#[1], 0, 27⟩) := by
    rw [hresult]
    exact h.run_of_halted (n := 5) (t := ⟨#[1], 0, [], #[1]⟩) (by decide) 27
  exact ⟨hbal, narrow, wide, hnarrow, hwide, hok, hsame 27 _ hok⟩

end TapeFlow
