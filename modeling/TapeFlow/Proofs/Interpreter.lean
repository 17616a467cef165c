import TapeFlow.Proofs.Nesting

/-!
# Running a program on its tape

The meaning of a program without blocks and registers: a counter that walks over
the commands, a tape of wrapping cells, and a data pointer that may leave the
tape as long as nothing is done there.  Brackets jump through a table that is
made beforehand.

* `Jumps.ofProgram?` — the table; it exists exactly if the brackets match.
* `Jumps.ofProgram?_loop` — the entries of the two brackets of a loop name each
  other.
* `Tape.perform?` — what one command does to the tape.
* `Interpreter.step`, `Interpreter.run` — one command with its jump, and a run
  of up to so many commands.
* `Interpreter.trace`, `Interpreter.executed` — the commands that a run comes to, in
  order.
-/

namespace TapeFlow

/-! ## The jump table -/

/-- A jump table in the making. -/
structure Jumps where
  /-- The position of the next command. -/
  next : Nat
  /-- The positions to jump to; zero where there is no bracket or no entry yet. -/
  table : Array Nat
  /-- The positions of the brackets still open, the innermost first. -/
  stack : List Nat

namespace Jumps

/-- Enter one command.  A closing bracket and the bracket it closes name each
other. -/
def step (j : Jumps) : Command → Option Jumps
  | .loopOpen => some ⟨j.next + 1, j.table, j.next :: j.stack⟩
  | .loopClose =>
    match j.stack with
    | [] => none
    | start :: rest =>
      some ⟨j.next + 1, (j.table.setIfInBounds start j.next).setIfInBounds j.next start, rest⟩
  | _ => some ⟨j.next + 1, j.table, j.stack⟩

/-- Enter a program. -/
def run (j : Jumps) : List Command → Option Jumps
  | [] => some j
  | c :: cs => (j.step c).bind fun k => k.run cs

/-- The table of a program, if its brackets match. -/
def ofProgram? (program : List Command) : Option (Array Nat) :=
  match run ⟨0, Array.replicate program.length 0, []⟩ program with
  | some ⟨_, table, []⟩ => some table
  | _ => none

theorem run_cons (j : Jumps) (c : Command) (cs : List Command) :
    j.run (c :: cs) = (j.step c).bind fun k => k.run cs := rfl

theorem run_append (j : Jumps) (as bs : List Command) :
    j.run (as ++ bs) = (j.run as).bind fun k => k.run bs := by
  induction as generalizing j with
  | nil => rfl
  | cons c as ih =>
    rw [List.cons_append, run_cons, run_cons, Option.bind_assoc]
    exact congrArg _ (funext fun k => ih k)

theorem step_straight (j : Jumps) {c : Command} (hc : c.isBracket = false) :
    j.step c = some ⟨j.next + 1, j.table, j.stack⟩ := by
  cases c, hc using Command.straight_cases <;> rfl

theorem step_close {j : Jumps} {start : Nat} {rest : List Nat} (h : j.stack = start :: rest) :
    j.step .loopClose = some ⟨j.next + 1,
      (j.table.setIfInBounds start j.next).setIfInBounds j.next start, rest⟩ := by
  rw [step, h]

/-- What entering one command can do. -/
theorem step_cases {j k : Jumps} {c : Command} (h : j.step c = some k) :
    (c.isBracket = false ∧ k = ⟨j.next + 1, j.table, j.stack⟩) ∨
      (c = .loopOpen ∧ k = ⟨j.next + 1, j.table, j.next :: j.stack⟩) ∨
      (c = .loopClose ∧ ∃ start rest, j.stack = start :: rest ∧ k = ⟨j.next + 1,
        (j.table.setIfInBounds start j.next).setIfInBounds j.next start, rest⟩) := by
  cases hb : c.isBracket with
  | false =>
    rw [step_straight j hb] at h
    exact .inl ⟨rfl, (Option.some.inj h).symm⟩
  | true =>
    obtain rfl | rfl := Command.eq_of_isBracket hb
    · exact .inr (.inl ⟨rfl, (Option.some.inj h).symm⟩)
    · refine .inr (.inr ⟨rfl, ?_⟩)
      cases hs : j.stack with
      | nil => rw [step, hs] at h; cases h
      | cons start rest =>
        rw [step_close hs] at h
        exact ⟨start, rest, rfl, (Option.some.inj h).symm⟩

/-- The open positions lie behind and are all different. -/
structure Valid (j : Jumps) : Prop where
  /-- They lie behind. -/
  lt : ∀ p ∈ j.stack, p < j.next
  /-- None comes up twice. -/
  nodup : j.stack.Nodup

theorem Valid.step {j k : Jumps} {c : Command} (hj : j.Valid) (h : j.step c = some k) :
    k.Valid := by
  have hlt : ∀ p ∈ j.stack, p < j.next + 1 := fun p hp => Nat.lt_succ_of_lt (hj.lt p hp)
  obtain ⟨-, rfl⟩ | ⟨-, rfl⟩ | ⟨-, start, rest, hs, rfl⟩ := step_cases h
  · exact ⟨hlt, hj.nodup⟩
  · refine ⟨fun p hp => ?_, List.nodup_cons.2 ⟨fun hp => ?_, hj.nodup⟩⟩
    · rcases List.mem_cons.1 hp with rfl | hp
      · exact Nat.lt_succ_self _
      · exact hlt p hp
    · exact Nat.lt_irrefl _ (hj.lt _ hp)
  · have hnodup := hj.nodup
    rw [hs] at hnodup hlt
    exact ⟨fun p hp => hlt p (List.mem_cons_of_mem _ hp), (List.nodup_cons.1 hnodup).2⟩

theorem Valid.run {j k : Jumps} {cs : List Command} (hj : j.Valid) (h : j.run cs = some k) :
    k.Valid :=
  kept_by_run (fun _ => rfl) run_cons Valid.step hj h

theorem next_run {j k : Jumps} {cs : List Command} (h : j.run cs = some k) :
    k.next = j.next + cs.length ∧ k.table.size = j.table.size := by
  induction cs generalizing j with
  | nil => cases h; exact ⟨rfl, rfl⟩
  | cons c cs ih =>
    rw [run_cons] at h
    obtain ⟨l, hl, hr⟩ := Option.bind_eq_some_iff.1 h
    obtain ⟨hn, hsize⟩ := ih hr
    obtain ⟨-, rfl⟩ | ⟨-, rfl⟩ | ⟨-, start, rest, -, rfl⟩ := step_cases hl
    all_goals
      refine ⟨by simp at hn ⊢; omega, ?_⟩
      simpa using hsize

/-- An entry whose position is behind and not open is final. -/
theorem table_run {j k : Jumps} {cs : List Command} (h : j.run cs = some k) {p : Nat}
    (hp : p < j.next) (hs : p ∉ j.stack) : k.table[p]? = j.table[p]? := by
  induction cs generalizing j with
  | nil => cases h; rfl
  | cons c cs ih =>
    rw [run_cons] at h
    obtain ⟨l, hl, hr⟩ := Option.bind_eq_some_iff.1 h
    have hlt : p < j.next + 1 := Nat.lt_succ_of_lt hp
    have hfinal := ih hr
    obtain ⟨-, rfl⟩ | ⟨-, rfl⟩ | ⟨-, start, rest, hst, rfl⟩ := step_cases hl
    · exact hfinal hlt hs
    · refine hfinal hlt fun hm => ?_
      rcases List.mem_cons.1 hm with rfl | hm
      · exact Nat.lt_irrefl _ hp
      · exact hs hm
    · rw [hst, List.mem_cons, not_or] at hs
      rw [hfinal hlt hs.2,
        Array.getElem?_setIfInBounds_ne (Nat.ne_of_gt hp),
        Array.getElem?_setIfInBounds_ne (Ne.symm hs.1)]

/-- Balanced code can be entered at any point and leaves the open positions as
they were. -/
theorem run_balanced (j : Jumps) {cs : List Command} (h : Balanced cs) :
    ∃ k, j.run cs = some k ∧ k.stack = j.stack := by
  revert j
  refine h.induction (motive := fun cs => ∀ j : Jumps, ∃ k, j.run cs = some k ∧
    k.stack = j.stack) ?nil ?straight ?loop
  case nil => exact fun j => ⟨j, rfl, rfl⟩
  case straight =>
    intro c cs hc ih j
    rw [run_cons, step_straight j hc, Option.bind_some]
    exact ih ⟨j.next + 1, j.table, j.stack⟩
  case loop =>
    intro mid rest ihm ihr j
    obtain ⟨k, hk, hks⟩ := ihm ⟨j.next + 1, j.table, j.next :: j.stack⟩
    have hopen : j.run (.loopOpen :: mid) = some k := hk
    rw [run_append, hopen, Option.bind_some, run_cons, step_close hks, Option.bind_some]
    exact ihr ⟨k.next + 1, _, j.stack⟩

/-- A program with matching brackets has a table. -/
theorem exists_ofProgram? {program : List Command} (h : Balanced program) :
    ∃ table, ofProgram? program = some table := by
  obtain ⟨⟨next, table, stack⟩, hrun, rfl⟩ :=
    run_balanced ⟨0, Array.replicate program.length 0, []⟩ h
  exact ⟨table, by rw [ofProgram?, hrun]⟩

/-- The brackets of a loop name each other in the table. -/
theorem ofProgram?_loop {pre mid post : List Command} (hmid : Balanced mid) {table : Array Nat}
    (h : ofProgram? (pre ++ .loopOpen :: (mid ++ .loopClose :: post)) = some table) :
    table[pre.length]? = some (pre.length + mid.length + 1) ∧
      table[pre.length + mid.length + 1]? = some pre.length := by
  rw [ofProgram?] at h
  split at h
  case h_2 => cases h
  rename_i next table' hrun
  cases h
  rw [run_append] at hrun
  obtain ⟨j, hj, hrun⟩ := Option.bind_eq_some_iff.1 hrun
  obtain ⟨hnext, hsize⟩ := next_run hj
  have hvalid : j.Valid := Valid.run ⟨by simp, List.nodup_nil⟩ hj
  -- up to the closing bracket, the position of the opening one stays on top
  obtain ⟨k, hk, hstack⟩ := run_balanced ⟨j.next + 1, j.table, j.next :: j.stack⟩ hmid
  obtain ⟨hnext', hsize'⟩ := next_run hk
  have hkvalid : k.Valid := by
    refine Valid.run (Valid.step hvalid (c := .loopOpen) rfl) hk
  have hrun' : (k.step .loopClose).bind (fun l => l.run post) = some ⟨next, table, []⟩ := by
    rw [run_cons] at hrun
    change Jumps.run ⟨j.next + 1, j.table, j.next :: j.stack⟩ (mid ++ .loopClose :: post) = _ at hrun
    rwa [run_append, hk, Option.bind_some, run_cons] at hrun
  rw [step_close hstack, Option.bind_some] at hrun'
  simp at hnext hsize hnext' hsize'
  -- the two entries are final, because both positions are behind and closed
  have hnot : j.next ∉ j.stack := fun hm => Nat.lt_irrefl _ (hvalid.lt _ hm)
  have hnot' : k.next ∉ j.stack := fun hm => by
    have := hvalid.lt _ hm
    omega
  have hopen := table_run hrun' (p := j.next) (by simp only; omega) hnot
  have hclose := table_run hrun' (p := k.next) (by simp only; omega) hnot'
  have hjn : j.next = pre.length := by omega
  have hkn : k.next = pre.length + mid.length + 1 := by omega
  rw [hjn, hkn] at hopen hclose
  refine ⟨?_, ?_⟩
  · rw [hopen, Array.getElem?_setIfInBounds_ne (by omega), Array.getElem?_setIfInBounds_self_of_lt]
    omega
  · rw [hclose, Array.getElem?_setIfInBounds_self_of_lt]
    simp
    omega

end Jumps

/-! ## The tape -/

/-- A tape and what else a program can see or change. -/
structure Tape where
  /-- The cells. -/
  cells : Array UInt8
  /-- The data pointer.  It need not name a cell. -/
  pointer : UInt64 := 0
  /-- The input not yet read. -/
  input : List UInt8
  /-- The output so far. -/
  output : Array UInt8 := #[]
  deriving DecidableEq

namespace Tape

/-- A tape of zero cells. -/
def zeroed (cellCount : Nat) (input : List UInt8) : Tape :=
  { cells := Array.replicate cellCount 0, input }

/-- The cell under the pointer, if there is one. -/
def cell? (t : Tape) : Option UInt8 := t.cells[t.pointer.toNat]?

/-- Change the cell under the pointer. -/
def setCell (t : Tape) (b : UInt8) : Tape :=
  { t with cells := t.cells.setIfInBounds t.pointer.toNat b }

/-- Do what one command asks for, the jump of a bracket apart.  Everything but
a move needs a cell under the pointer. -/
def perform? (t : Tape) : Command → Option Tape
  | .right => some { t with pointer := t.pointer + 1 }
  | .left => some { t with pointer := t.pointer - 1 }
  | .increment => t.cell?.map fun b => t.setCell (b + 1)
  | .decrement => t.cell?.map fun b => t.setCell (b - 1)
  | .output => t.cell?.map fun b => { t with output := t.output.push b }
  -- past the end of the input every byte is zero
  | .input => t.cell?.map fun _ => { t.setCell (t.input.headD 0) with input := t.input.tail }
  | .loopOpen | .loopClose => t.cell?.map fun _ => t

end Tape

/-! ## Runs -/

/-- How far a run has come. -/
inductive Progress where
  /-- It goes on at a position. -/
  | running (position : Nat) (tape : Tape)
  /-- It has passed the last command. -/
  | halted (tape : Tape)
  /-- A command found no cell under the pointer. -/
  | faulted (tape : Tape)
  deriving DecidableEq

namespace Interpreter

/-- The position after a command was done at a position. -/
def next (jumps : Array Nat) (position : Nat) (t : Tape) : Command → Nat
  | .loopOpen => (if t.cell? = some 0 then jumps.getD position 0 else position) + 1
  | .loopClose => (if t.cell? = some 0 then position else jumps.getD position 0) + 1
  | _ => position + 1

/-- Do the command at a position. -/
def step (program : List Command) (jumps : Array Nat) (position : Nat) (t : Tape) : Progress :=
  match program[position]? with
  | none => .halted t
  | some c =>
    match t.perform? c with
    | none => .faulted t
    | some u => .running (next jumps position u c) u

/-- Do up to so many commands from a position on. -/
def runFrom (program : List Command) (jumps : Array Nat) : Nat → Nat → Tape → Progress
  | 0, position, t => .running position t
  | n + 1, position, t =>
    match step program jumps position t with
    | .running position t => runFrom program jumps n position t
    | stopped => stopped

/-- What the command at a position can come to. -/
theorem step_cases (program : List Command) (jumps : Array Nat) (position : Nat) (t : Tape) :
    (program[position]? = none ∧ step program jumps position t = .halted t) ∨
      ∃ c, program[position]? = some c ∧
        ((t.perform? c = none ∧ step program jumps position t = .faulted t) ∨
          ∃ u, t.perform? c = some u ∧
            step program jumps position t = .running (next jumps position u c) u) := by
  unfold step
  cases program[position]? with
  | none => exact .inl ⟨rfl, rfl⟩
  | some c =>
    refine .inr ⟨c, rfl, ?_⟩
    cases ht : t.perform? c with
    | none => exact .inl ⟨rfl, by simp only [ht]⟩
    | some u => exact .inr ⟨u, rfl, by simp only [ht]⟩

/-- Do up to so many commands of a source on a fresh tape; `none` if its
brackets do not match. -/
def run (source : Source) (cellCount : Nat) (input : List UInt8) (n : Nat) : Option Progress :=
  (Jumps.ofProgram? source.commands).map fun jumps =>
    runFrom source.commands jumps n 0 (.zeroed cellCount input)

theorem run_of_table {source : Source} {jumps : Array Nat}
    (h : Jumps.ofProgram? source.commands = some jumps) (cellCount : Nat) (input : List UInt8)
    (n : Nat) : run source cellCount input n =
      some (runFrom source.commands jumps n 0 (.zeroed cellCount input)) :=
  congrArg (Option.map fun jumps => runFrom source.commands jumps n 0 (.zeroed cellCount input)) h

end Interpreter

/-! ## The commands of a run -/

/-- The command that a run has come to. -/
def Progress.command? (program : List Command) : Progress → Option Command
  | .running position _ => program[position]?
  | _ => none

namespace Interpreter

/-- The commands that a run of up to so many commands comes to. -/
def trace (program : List Command) (jumps : Array Nat) (n position : Nat) (t : Tape) :
    List Command :=
  (List.range n).filterMap fun k => (runFrom program jumps k position t).command? program

/-- The commands that a run of a source on a fresh tape comes to. -/
def executed (source : Source) (cellCount : Nat) (input : List UInt8) (n : Nat) : List Command :=
  (List.range n).filterMap fun k =>
    (run source cellCount input k).bind fun progress => progress.command? source.commands

/-- First comes the command at the position, and then, if that is not the end, those that
the run comes to afterwards. -/
theorem trace_succ (program : List Command) (jumps : Array Nat) (n position : Nat) (t : Tape) :
    trace program jumps (n + 1) position t = program[position]?.toList ++
      match step program jumps position t with
      | .running position t => trace program jumps n position t
      | _ => [] := by
  have hafter : (List.range n).filterMap (fun k =>
      (runFrom program jumps (k + 1) position t).command? program) =
      match step program jumps position t with
      | .running position t => trace program jumps n position t
      | _ => [] := by
    simp only [runFrom]
    cases step program jumps position t with
    | running position t => rfl
    | halted t => exact List.filterMap_eq_nil_iff.2 fun _ _ => rfl
    | faulted t => exact List.filterMap_eq_nil_iff.2 fun _ _ => rfl
  rw [← hafter, trace, List.range_succ_eq_map, List.filterMap_cons, List.filterMap_map]
  simp only [runFrom, Progress.command?, Function.comp_def]
  cases program[position]? <;> rfl

theorem executed_eq {source : Source} {jumps : Array Nat}
    (h : Jumps.ofProgram? source.commands = some jumps) (cellCount : Nat) (input : List UInt8)
    (n : Nat) : executed source cellCount input n =
      trace source.commands jumps n 0 (.zeroed cellCount input) := by
  simp only [executed, trace, run_of_table h, Option.bind_some]

end Interpreter

end TapeFlow
