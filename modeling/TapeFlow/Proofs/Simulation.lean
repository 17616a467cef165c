import Mathlib.Algebra.GroupWithZero.Nat
import TapeFlow.Proofs.StepLimit
import TapeFlow.Proofs.TapeCode

/-!
# The blocks of a program follow its commands

A run of the interpreter and a run of the generated function go side by side.
The function stands where the code of a command begins whenever the interpreter
stands at that command, and the machine then holds the interpreter's tape.

* `Nesting.exists_target` — a bracket that jumps in the program branches, in the
  function, to the block that is current at the position it jumps to.
* `Command.cost`, `Interpreter.steps` — the steps of the machine for one command, and for
  a run.
* `Simulates` — the two runs stand at the same place with the same tape.
* `Runnable.step` — one command of the interpreter is as many steps of the machine as it
  costs, and the two stand at the same place again, or both are over.
* `Runnable.run` — the same for any number of commands.
-/

namespace TapeFlow

/-! ## Where brackets lead -/

/-- A bracket leads to the position behind some bracket, in the program as in
the function.  Which one depends on the cell. -/
theorem Nesting.exists_target {cs pre post : List Command} {c : Command} {s : Nesting}
    {jumps : Array Nat} (hbal : Balanced cs) (hjumps : Jumps.ofProgram? cs = some jumps)
    (hcs : cs = pre ++ c :: post) (hc : c.isBracket = true) (hs : ({} : Nesting).run pre = some s)
    (t : Tape) :
    ∃ pre' c' post' s', cs = pre' ++ c' :: post' ∧ c'.isBracket = true ∧
      ({} : Nesting).run (pre' ++ [c']) = some s' ∧
      Interpreter.next jumps pre.length t c = (pre' ++ [c']).length ∧
      s'.current = if t.cell? = some 0 then afterBlock (s.loopOf c) else bodyBlock (s.loopOf c) := by
  obtain ⟨final, hfinal⟩ := exists_run (s := {}) hbal.nested
  have hempty : final.stack.length = 0 := by
    have hlen := length_stack_run hfinal
    have hclosed := hbal.closed
    simp only [List.length_nil] at hlen
    omega
  rw [hcs, run_append_of_eq hs, run_cons] at hfinal
  obtain ⟨u, hu, hrest⟩ := Option.bind_eq_some_iff.1 hfinal
  have hhere : ({} : Nesting).run (pre ++ [c]) = some u := by
    rw [run_append_of_eq hs, run_cons, hu]
    rfl
  obtain ⟨hc', -⟩ | ⟨rfl, rfl⟩ | ⟨rfl, loop, rest, hstack, rfl⟩ := step_cases hu
  · rw [hc] at hc'; cases hc'
  · -- an opening bracket: the loop is entered, or passed over as a whole
    obtain ⟨mid, rest, rfl, hmid⟩ := exists_close hrest (by simp [hempty])
    rw [hcs] at hjumps
    have htable := (Jumps.ofProgram?_loop hmid hjumps).1
    by_cases hcell : t.cell? = some 0
    · obtain ⟨v, hv, hcurrent, -⟩ := run_loop s hmid
      refine ⟨pre ++ .loopOpen :: mid, .loopClose, rest, v, by simp [hcs], rfl, ?_, ?_, ?_⟩
      · rw [List.append_assoc, run_append_of_eq hs]
        exact hv
      · simp [Interpreter.next, hcell, htable]
        omega
      · rw [if_pos hcell]
        exact hcurrent
    · exact ⟨pre, .loopOpen, _, _, hcs, rfl, hhere, by simp [Interpreter.next, hcell],
        by rw [if_neg hcell]; rfl⟩
  · -- a closing bracket: the loop is left, or begun again
    obtain ⟨before, mid, v, rfl, hmid, hv, hopened, -⟩ := exists_open_of_stack hs hstack
    have hloop : s.loopOf .loopClose = loop := by rw [loopOf, hstack, List.headD_cons]
    rw [hcs, List.append_assoc] at hjumps
    have htable := (Jumps.ofProgram?_loop hmid hjumps).2
    by_cases hcell : t.cell? = some 0
    · exact ⟨_, .loopClose, post, _, hcs, rfl, hhere, by simp [Interpreter.next, hcell]; omega,
        by rw [if_pos hcell, hloop]⟩
    · refine ⟨before, .loopOpen, mid ++ .loopClose :: post,
        ⟨v.opened + 1, bodyBlock v.opened, v.opened :: v.stack⟩, by simp [hcs], rfl, ?_, ?_, ?_⟩
      · rw [run_append_of_eq hv]
        rfl
      · rw [show (before ++ Command.loopOpen :: mid).length = before.length + mid.length + 1 by
          simp; omega]
        simp [Interpreter.next, hcell, htable]
      · rw [if_neg hcell, hloop, hopened]

/-! ## Places -/

/-- The place is where the code of the commands `post` begins, after the commands
`pre`. -/
def Draft.Reaches (options : Options) (pre post : List Command) (p : Position) : Prop :=
  ∃ d : Draft, (Draft.start options).run options.symbols (tapeLayout options) pre = some d ∧
    p.rest = segment options.symbols (tapeLayout options) d.regs post ∧
    p.terminator = some (ending d.nesting d.regs post)

namespace Draft

variable {e d : Draft} {options : Options} {cs pre post : List Command} {c : Command}

/-- Every register that a command uses has a number of its own, and none is one
of the two that hold the tape. -/
theorem Completes.regs_bound (h : e.Completes options cs) (hcs : cs = pre ++ post)
    (hd : (Draft.start options).run options.symbols (tapeLayout options) pre = some d) :
    2 ≤ d.regs ∧ d.regs + 5 ≤ 2 ^ 32 := by
  have hregs := regs_run hd
  have hstart : (Draft.start options).regs = 5 := rfl
  have hlen := congrArg List.length hcs
  have hsmall := h.small
  rw [List.length_append] at hlen
  omega

/-- The start of the block that a bracket leads to. -/
theorem Completes.reaches_block (h : e.Completes options cs) (hcs : cs = pre ++ c :: post)
    (hc : c.isBracket = true) {s : Nesting} (hs : ({} : Nesting).run (pre ++ [c]) = some s) :
    ∃ b, e.finished.finish.block? (.ofNat s.current) = some b ∧
      Reaches options (pre ++ [c]) post b.start := by
  have hrun := h.run
  have hstart : (Draft.start options).nesting.run (pre ++ [c]) = some s := hs
  obtain ⟨d', hd', rfl⟩ := exists_run options.symbols (tapeLayout options) hstart
  rw [hcs, show pre ++ c :: post = (pre ++ [c]) ++ post by simp, run_append_of_eq hd'] at hrun
  have hfits := (fits_start options).run hd'
  -- the block was empty when the bracket was read, so all its code comes later
  obtain ⟨block, hblock, hempty⟩ :
      ∃ block, d'.builder.blocks[d'.nesting.current]? = some block ∧ block.instructions = #[] := by
    obtain ⟨s₀, hs₀, -⟩ := Option.bind_eq_some_iff.1 ((Nesting.run_append ..).symm.trans hstart)
    obtain ⟨d, hd, -⟩ := exists_run options.symbols (tapeLayout options) hs₀
    rw [run_append_of_eq hd, run_cons] at hd'
    obtain ⟨d'', hstep, hnil⟩ := Option.bind_eq_some_iff.1 hd'
    cases hnil
    exact exists_empty_of_bracket ((fits_start options).run hd) hstep hc
  have hfinal := getElem?_finished_current hfits hrun hblock
  have hlt : d'.nesting.current < 2 ^ 32 := by
    have hle := hfits.valid.le _ List.mem_cons_self
    have hopened := Nesting.opened_run hs
    have hsmall := h.small
    have hcount := List.count_le_length (a := Command.loopOpen) (l := pre ++ [c])
    have hlen := congrArg List.length hcs
    simp at hopened hcount hlen
    omega
  rw [← BlockId.toNat_ofNat hlt] at hfinal
  exact ⟨_, hfinal, d', hd', by simp [Block.start, Block.finish, Block.extend, hempty], rfl⟩

end Draft

/-! ## What commands cost -/

/-- The steps that the code of a command takes, with the branch after it if the command is
a bracket. -/
def Command.cost : Command → Nat
  | .right | .left | .output | .input => 4
  | .increment | .decrement | .loopOpen | .loopClose => 6

theorem Command.length_code (layout : TapeLayout) (symbols : Symbols) (r : Nat) (c : Command) :
    (c.code layout symbols r).length + (if c.isBracket = true then 1 else 0) = c.cost := by
  cases c <;> rfl

namespace Interpreter

/-- The steps for the command at a position.  Past the last command, it takes two to
return. -/
def cost (program : List Command) (position : Nat) : Nat :=
  match program[position]? with
  | some c => c.cost
  | none => 2

/-- The steps for a run of up to so many commands. -/
def steps (program : List Command) (jumps : Array Nat) (n position : Nat) (t : Tape) : Nat :=
  ((trace program jumps n position t).map Command.cost).sum +
    match runFrom program jumps n position t with
    | .halted _ => 2
    | _ => 0

variable {program : List Command} {jumps : Array Nat}

theorem cost_pos (program : List Command) (position : Nat) : 0 < cost program position := by
  unfold cost
  cases program[position]? with
  | none => decide
  | some c => cases c <;> decide

theorem steps_succ (n position : Nat) (t : Tape) :
    steps program jumps (n + 1) position t = cost program position +
      match step program jumps position t with
      | .running position t => steps program jumps n position t
      | _ => 0 := by
  rw [steps, trace_succ, runFrom, cost]
  rcases step_cases program jumps position t with
    ⟨hend, hstep⟩ | ⟨c, hc, ⟨-, hstep⟩ | ⟨u, -, hstep⟩⟩
  · rw [hend, hstep]
    rfl
  · rw [hc, hstep]
    simp
  · rw [hc, hstep]
    simp [steps, Nat.add_assoc]

/-- A run that goes on has taken a step at least for each command. -/
theorem le_steps {n position position' : Nat} {t u : Tape}
    (h : runFrom program jumps n position t = .running position' u) :
    n ≤ steps program jumps n position t := by
  induction n generalizing position t with
  | zero => exact Nat.zero_le _
  | succ n ih =>
    have hcost := cost_pos program position
    rw [steps_succ]
    rw [runFrom] at h
    cases hstep : step program jumps position t with
    | running position t =>
      rw [hstep] at h
      have hrest := ih h
      simp only
      omega
    | halted t => rw [hstep] at h; cases h
    | faulted t => rw [hstep] at h; cases h

end Interpreter

/-! ## The two runs side by side -/

/-- The interpreter's position and tape, and the place and machine of a run of
the function, belong together. -/
def Simulates (options : Options) (cs : List Command) (position : Nat) (t : Tape) (p : Position)
    (m : Machine) : Prop :=
  ∃ pre post, cs = pre ++ post ∧ position = pre.length ∧ Draft.Reaches options pre post p ∧ m.Holds t

/-- The interpreter and a run of the function have come equally far.  When they are through,
the machine has counted the steps that were `taken`. -/
inductive Agrees (options : Options) (cs : List Command) (taken : Nat) :
    Progress → Status × Machine → Prop where
  /-- Both go on. -/
  | running {position : Nat} {t : Tape} {p : Position} {m : Machine}
    (here : Simulates options cs position t p m) :
    Agrees options cs taken (.running position t) (.running p, m)
  /-- The function has returned zero. -/
  | halted {t : Tape} {m : Machine} (holds : m.Holds t) (counted : m.steps = taken) :
    Agrees options cs taken (.halted t) (.returned 0, m)
  /-- The function has faulted at the cell under the pointer. -/
  | faulted {t : Tape} {m : Machine} (memory : m.memory.allocations = t.allocations) :
    Agrees options cs taken (.faulted t)
      (.faulted (.outOfRange 1 t.pointer.toNat 0 t.cells.size), m)

/-- A program that both can run: the draft is finished, the symbols stand for
what they should, and there is a jump table and memory for the tape. -/
structure Runnable (options : Options) (cs : List Command) (e : Draft) (jumps : Array Nat) :
    Prop where
  /-- The draft has read the program. -/
  completes : e.Completes options cs
  /-- No two capabilities share a name. -/
  distinct : options.symbols.Distinct
  /-- The tape can be allocated. -/
  cells : options.cellCount.toNat < addressSpace
  /-- The jump table is that of the program. -/
  table : Jumps.ofProgram? cs = some jumps

namespace Runnable

variable {options : Options} {cs pre post : List Command} {c : Command} {e : Draft}
  {jumps : Array Nat} {t u : Tape} {p : Position} {m : Machine} {position taken : Nat}

/-- Past the last command the function returns. -/
theorem step_end (h : Runnable options cs e jumps) (hp : Draft.Reaches options cs [] p)
    (hm : m.Holds t) :
    Agrees options cs (m.steps + 2) (.halted t)
      (e.finished.finish.runFrom options.symbols 2 p m) := by
  obtain ⟨label, rest, terminator⟩ := p
  obtain ⟨d, hd, rfl, rfl⟩ := hp
  obtain ⟨hlow, hhigh⟩ := h.completes.regs_bound (List.append_nil cs).symm hd
  have hzero : Ty.i32.truncate (0 : Int64).toUInt64 = 0 := rfl
  have hcode : Exec.code options.symbols (Draft.segment options.symbols (tapeLayout options) d.regs [])
      m = .ok () (m.tick.set (.ofNat d.regs) (.int 0)) :=
    Exec.code_cons (Exec.step_const options.symbols _ hzero)
  have hrun : e.finished.finish.runFrom options.symbols 2
      ⟨label, Draft.segment options.symbols (tapeLayout options) d.regs [],
        some (Draft.ending d.nesting d.regs [])⟩ m =
      (.returned 0, (m.tick.set (.ofNat d.regs) (.int 0)).tick) :=
    (Function.runFrom_code_of_ok hcode 1).trans (Function.runFrom_ret (Machine.regs_set_self ..) 0)
  rw [hrun]
  exact .halted (hm.tick.set hlow (by omega) _).tick rfl

/-- A command that finds no cell stops both. -/
theorem step_faulted (h : Runnable options cs e jumps) (hcs : cs = pre ++ c :: post)
    (hp : Draft.Reaches options pre (c :: post) p) (hm : m.Holds t) (ht : t.perform? c = none) :
    Agrees options cs taken (.faulted t)
      (e.finished.finish.runFrom options.symbols c.cost p m) := by
  obtain ⟨label, rest, terminator⟩ := p
  obtain ⟨d, hd, rfl, rfl⟩ := hp
  obtain ⟨hlow, hhigh⟩ := h.completes.regs_bound hcs hd
  have hregs := c.regs_le
  obtain ⟨m', hcode, hmem⟩ := hm.code_of_none options h.distinct ht hlow (by omega)
  rw [← c.length_code (tapeLayout options) options.symbols d.regs, Draft.segment,
    Function.runFrom_code_of_error hcode]
  exact .faulted hmem

/-- A command that is no bracket leads to the next command in the same block. -/
theorem step_straight (h : Runnable options cs e jumps) (hcs : cs = pre ++ c :: post)
    (hc : c.isBracket = false) (hp : Draft.Reaches options pre (c :: post) p) (hm : m.Holds t)
    (ht : t.perform? c = some u) :
    Agrees options cs taken (.running (Interpreter.next jumps pre.length u c) u)
      (e.finished.finish.runFrom options.symbols c.cost p m) := by
  obtain ⟨label, rest, terminator⟩ := p
  obtain ⟨d, hd, rfl, rfl⟩ := hp
  obtain ⟨hlow, hhigh⟩ := h.completes.regs_bound hcs hd
  have hregs := c.regs_le
  obtain ⟨m', hcode, hm', -⟩ := hm.code_of_some options h.distinct ht hlow (by omega)
  rw [← c.length_code (tapeLayout options) options.symbols d.regs]
  simp only [Draft.segment, Draft.ending, hc, Bool.false_eq_true, if_false]
  rw [Function.runFrom_code_of_ok hcode 0]
  have hrun : (Draft.start options).run options.symbols (tapeLayout options) (pre ++ [c]) =
      some ⟨d.afterCommand options.symbols (tapeLayout options) c d.nesting.current, d.nesting,
        d.regs + c.regs⟩ := by
    rw [Draft.run_append_of_eq hd, Draft.run_cons,
      Draft.step_of_nesting (Nesting.step_straight d.nesting hc)]
    rfl
  refine .running ⟨pre ++ [c], post, by simp [hcs], ?_, ⟨_, hrun, rfl, rfl⟩, hm'⟩
  cases c, hc using Command.straight_cases <;> simp [Interpreter.next]

/-- A bracket leads to the block for the position it jumps to. -/
theorem step_bracket (h : Runnable options cs e jumps) (hcs : cs = pre ++ c :: post)
    (hc : c.isBracket = true) (hp : Draft.Reaches options pre (c :: post) p) (hm : m.Holds t)
    (ht : t.perform? c = some u) :
    Agrees options cs taken (.running (Interpreter.next jumps pre.length u c) u)
      (e.finished.finish.runFrom options.symbols c.cost p m) := by
  obtain ⟨label, rest, terminator⟩ := p
  obtain ⟨d, hd, rfl, rfl⟩ := hp
  obtain ⟨hlow, hhigh⟩ := h.completes.regs_bound hcs hd
  have hregs := c.regs_le
  obtain ⟨m', hcode, hm', hcond⟩ := hm.code_of_some options h.distinct ht hlow (by omega)
  obtain ⟨pre', c', post', s', hcs', hc', hs', hnext, hcurrent⟩ :=
    Nesting.exists_target h.completes.balanced h.table hcs hc (Draft.nesting_run hd) u
  obtain ⟨b, hb, hreach⟩ := h.completes.reaches_block hcs' hc' hs'
  have hword : (if (if u.cell? = some 0 then (0 : UInt64) else 1) = 0 then
      BlockId.ofNat (Nesting.afterBlock (d.nesting.loopOf c)) else
      .ofNat (Nesting.bodyBlock (d.nesting.loopOf c))) = .ofNat s'.current := by
    rw [hcurrent]
    split <;> rfl
  rw [← c.length_code (tapeLayout options) options.symbols d.regs]
  simp only [Draft.segment, Draft.ending, hc, if_true, loopBranch]
  rw [hnext, Function.runFrom_code_of_ok hcode 1,
    Function.runFrom_condBr (hcond hc) (by rw [hword]; exact hb) 0]
  exact .running ⟨pre' ++ [c'], post', by simp [hcs'], rfl, hreach, hm'.tick⟩

/-- One command of the interpreter is as many steps of the machine as it costs. -/
theorem step (h : Runnable options cs e jumps) (hsim : Simulates options cs position t p m) :
    Agrees options cs (m.steps + Interpreter.cost cs position)
      (Interpreter.step cs jumps position t)
      (e.finished.finish.runFrom options.symbols (Interpreter.cost cs position) p m) := by
  obtain ⟨pre, post, hcs, rfl, hp, hm⟩ := hsim
  cases post with
  | nil =>
    rw [List.append_nil] at hcs
    subst hcs
    rw [Interpreter.step, Interpreter.cost, List.getElem?_eq_none (Nat.le_refl _)]
    exact h.step_end hp hm
  | cons c post =>
    have hget : cs[pre.length]? = some c := by simp [hcs]
    cases ht : t.perform? c with
    | none =>
      simp only [Interpreter.step, Interpreter.cost, hget, ht]
      exact h.step_faulted hcs hp hm ht
    | some u =>
      simp only [Interpreter.step, Interpreter.cost, hget, ht]
      cases hc : c.isBracket with
      | false => exact h.step_straight hcs hc hp hm ht
      | true => exact h.step_bracket hcs hc hp hm ht

/-- The two runs stay together for any number of commands. -/
theorem run (h : Runnable options cs e jumps) (hsim : Simulates options cs position t p m)
    (n : Nat) :
    Agrees options cs (m.steps + Interpreter.steps cs jumps n position t)
      (Interpreter.runFrom cs jumps n position t)
      (e.finished.finish.runFrom options.symbols (Interpreter.steps cs jumps n position t) p m) := by
  induction n generalizing position t p m with
  | zero => exact .running hsim
  | succ n ih =>
    have hagree := h.step hsim
    rw [Interpreter.runFrom, Interpreter.steps_succ]
    generalize Interpreter.step cs jumps position t = progress at hagree
    generalize hrun : e.finished.finish.runFrom options.symbols (Interpreter.cost cs position) p m =
      result at hagree
    cases hagree with
    | running here =>
      -- a run that goes on has used up its steps, so the counts add up
      obtain ⟨k, -, hcount, -, hk⟩ := Function.exists_steps_of_runFrom hrun
      have hrest := ih here
      rw [hcount, hk _ rfl, Nat.add_assoc] at hrest
      simp only
      rw [Function.runFrom_add hrun]
      exact hrest
    | halted holds counted =>
      simp only [Nat.add_zero]
      rw [hrun]
      exact .halted holds counted
    | faulted memory =>
      simp only [Nat.add_zero]
      rw [hrun]
      exact .faulted memory

end Runnable

end TapeFlow
