import TapeFlow.Proofs.Footprint

/-!
# Step limits

An executor with a step limit runs a function for as many steps and gives it up if it is
not over then.  A loop that does not know how long it will go on has to do it otherwise: it
counts each step before doing it and compares the count with the limit.  Both are the same,
and so a limit cuts a run off and does not change it in any other way.

* `Exec.count`, `Exec.countedTick` — a step that is counted and compared before it is done.
* `Function.countedFrom`, `Executor.countedRun` — the loop of such steps.
* `Function.countedFrom_some` — the loop is over after one round more than the limit, and
  has then come as far as the limit allows.
* `Function.runFor_steps` — what the machine counts is how far a run has come.
* `Executor.runFunction_truncates` — what follows for the results of an executor.
-/

namespace TapeFlow

/-! ## Steps that are counted -/

namespace Exec

/-- Do the instruction or the terminator that comes next, once it is counted. -/
def proceed (symbols : Symbols) (f : Function) (p : Position) : Exec Move :=
  match p.rest with
  | i :: rest => do
    step symbols i
    return .goto { p with rest }
  | [] =>
    match p.terminator with
    | some t => leave f t
    | none => throw (.missingTerminator p.label)

/-- Count a step.  The one that goes past the limit is counted too, but that is the end. -/
def count (limit : Option Nat) : Exec Unit := do
  modify Machine.tick
  fun m =>
    match limit with
    | some limit => if limit < m.steps then .error (.stepLimit limit) m else .ok () m
    | none => .ok () m

/-- Count a step, and do it if that is still allowed. -/
def countedTick (symbols : Symbols) (limit : Option Nat) (f : Function) (p : Position) :
    Exec Move := do
  count limit
  proceed symbols f p

variable {symbols : Symbols} {f : Function} {p : Position} {m : Machine} {limit : Nat}

theorem tick_eq_proceed : tick symbols f p m = proceed symbols f p m.tick :=
  bind_of_ok rfl

theorem countedTick_none : countedTick symbols none f p m = tick symbols f p m :=
  bind_of_ok rfl

theorem countedTick_of_lt (h : m.steps < limit) :
    countedTick symbols (some limit) f p m = tick symbols f p m := by
  have hcount : count (some limit) m = .ok () m.tick := by
    show (if limit < m.steps + 1 then _ else _) = _
    exact if_neg (Nat.not_lt.2 h)
  rw [countedTick, bind_of_ok hcount, tick_eq_proceed]

theorem countedTick_of_le (h : limit ≤ m.steps) :
    countedTick symbols (some limit) f p m = .error (.stepLimit limit) m.tick := by
  have hcount : count (some limit) m = .error (.stepLimit limit) m.tick := by
    show (if limit < m.steps + 1 then _ else _) = _
    exact if_pos (Nat.lt_succ_of_le h)
  exact bind_of_error hcount

/-- Nothing but counting changes the count. -/
theorem steps_proceed (symbols : Symbols) (f : Function) (p : Position) (m : Machine) :
    match proceed symbols f p m with
    | .ok _ m' => m'.steps = m.steps
    | .error _ m' => m'.steps = m.steps := by
  unfold proceed
  cases p.rest with
  | cons i rest =>
    have hself := Machine.AgreeOn.refl i.used m
    rcases leaves_step symbols i m with ⟨e, -, hok⟩ | ⟨fault, herror⟩
    · simp only [bind_of_ok (hok m hself)]
      rfl
    · simp only [bind_of_error (herror m hself)]
  | nil =>
    cases p.terminator with
    | none => rfl
    | some t =>
      rcases (looks_leave (m := m) f t).here with ⟨move, hok, -⟩ | ⟨fault, herror, -⟩
      · simp only [hok]
      · simp only [herror]

/-- What a step can come to.  It is counted once in any case. -/
theorem tick_counted (symbols : Symbols) (f : Function) (p : Position) (m : Machine) :
    (∃ q m', tick symbols f p m = .ok (.goto q) m' ∧ m'.steps = m.steps + 1) ∨
      (∃ code m', tick symbols f p m = .ok (.exit code) m' ∧ m'.steps = m.steps + 1) ∨
      ∃ fault m', tick symbols f p m = .error fault m' ∧ m'.steps = m.steps + 1 := by
  have hsteps := steps_proceed symbols f p m.tick
  rw [← tick_eq_proceed] at hsteps
  cases htick : tick symbols f p m with
  | ok move m' =>
    rw [htick] at hsteps
    cases move with
    | goto q => exact .inl ⟨q, m', rfl, hsteps⟩
    | exit code => exact .inr (.inl ⟨code, m', rfl, hsteps⟩)
  | error fault m' =>
    rw [htick] at hsteps
    exact .inr (.inr ⟨fault, m', rfl, hsteps⟩)

end Exec

/-! ## The loop -/

/-- A run that is not over is given up. -/
def Status.giveUp (limit : Nat) : Status × Machine → Status × Machine
  | (.running _, m) => (.faulted (.stepLimit limit), m.tick)
  | stopped => stopped

/-- The result of a run, if it is over. -/
def Status.result? (m : Machine) : Status → Option (Except Fault Outcome)
  | .running _ => none
  | .returned code => some (.ok ⟨m.output, code, m.steps⟩)
  | .faulted fault => some (.error fault)

namespace Function

/-- Go up to so many times round a loop that counts a step and then does it. -/
def countedFrom (f : Function) (symbols : Symbols) (limit : Option Nat) :
    Nat → Position → Machine → Status × Machine
  | 0, p, m => (.running p, m)
  | n + 1, p, m =>
    match Exec.countedTick symbols limit f p m with
    | .ok (.goto p) m => f.countedFrom symbols limit n p m
    | .ok (.exit code) m => (.returned code, m)
    | .error fault m => (.faulted fault, m)

/-- The same from the start of the function. -/
def countedFor (f : Function) (symbols : Symbols) (limit : Option Nat) (n : Nat) (m : Machine) :
    Status × Machine :=
  match Exec.enter f f.entry m with
  | .ok p m => f.countedFrom symbols limit n p m
  | .error fault m => (.faulted fault, m)

variable (f : Function) (symbols : Symbols)

/-- Without a limit, counting is all that the loop does besides. -/
theorem countedFrom_none (n : Nat) (p : Position) (m : Machine) :
    f.countedFrom symbols none n p m = f.runFrom symbols n p m := by
  induction n generalizing p m with
  | zero => rfl
  | succ n ih =>
    rw [countedFrom, runFrom, Exec.countedTick_none]
    cases Exec.tick symbols f p m with
    | ok move m' =>
      cases move with
      | goto q => exact ih q m'
      | exit code => rfl
    | error fault m' => rfl

theorem countedFor_none (n : Nat) (m : Machine) :
    f.countedFor symbols none n m = f.runFor symbols n m := by
  rw [countedFor, runFor]
  cases Exec.enter f f.entry m with
  | ok p m' => exact countedFrom_none f symbols n p m'
  | error fault m' => rfl

/-- With `k` steps left, the loop is over after one round more.  It has then come as far as
a run of `k` steps. -/
theorem countedFrom_some {limit k : Nat} {m : Machine} (h : m.steps + k = limit) (n : Nat)
    (p : Position) : f.countedFrom symbols (some limit) (k + 1 + n) p m =
      Status.giveUp limit (f.runFrom symbols k p m) := by
  induction k generalizing p m with
  | zero =>
    have hlast : Exec.countedTick symbols (some limit) f p m = _ :=
      Exec.countedTick_of_le (Nat.le_of_eq h.symm)
    rw [Nat.add_comm, countedFrom, hlast]
    rfl
  | succ k ih =>
    have hstep : Exec.countedTick symbols (some limit) f p m = Exec.tick symbols f p m :=
      Exec.countedTick_of_lt (by omega)
    rw [Nat.add_right_comm, countedFrom, hstep]
    rcases Exec.tick_counted symbols f p m with
      ⟨q, m', htick, hsteps⟩ | ⟨code, m', htick, -⟩ | ⟨fault, m', htick, -⟩
    · rw [runFrom_goto htick, htick]
      exact ih (by omega) q
    · rw [runFrom_exit htick, htick]
      rfl
    · rw [runFrom_error htick, htick]
      rfl

theorem countedFor_some {limit n : Nat} (hn : limit < n) (input : List UInt8) :
    f.countedFor symbols (some limit) n { input } =
      Status.giveUp limit (f.runFor symbols limit { input }) := by
  obtain ⟨d, rfl⟩ := Nat.exists_eq_add_of_le hn
  rw [countedFor, runFor, Exec.enter]
  cases f.block? f.entry with
  | some b => exact countedFrom_some f symbols (Nat.zero_add limit) d b.start
  | none => rfl

/-! ## How far a run has come -/

variable {f symbols} {n : Nat} {m m' : Machine} {status : Status}

/-- What the machine has counted is how far the run has come: a run of so many steps ends
where this one does, and a run that goes on has used up its steps. -/
theorem exists_steps_of_runFrom {p : Position} (h : f.runFrom symbols n p m = (status, m')) :
    ∃ k ≤ n, m'.steps = m.steps + k ∧ f.runFrom symbols k p m = (status, m') ∧
      ∀ q, status = .running q → k = n := by
  induction n generalizing p m with
  | zero =>
    cases h
    exact ⟨0, Nat.le_refl 0, rfl, rfl, fun _ _ => rfl⟩
  | succ n ih =>
    rcases Exec.tick_counted symbols f p m with
      ⟨q, m₁, htick, hsteps⟩ | ⟨code, m₁, htick, hsteps⟩ | ⟨fault, m₁, htick, hsteps⟩
    · rw [runFrom_goto htick] at h
      obtain ⟨k, hk, hcount, hrun, hrunning⟩ := ih h
      refine ⟨k + 1, by omega, by omega, ?_, fun q' hq' => ?_⟩
      · rw [runFrom_goto htick, hrun]
      · rw [hrunning q' hq']
    · rw [runFrom_exit htick] at h
      cases h
      exact ⟨1, by omega, hsteps, runFrom_exit htick, nofun⟩
    · rw [runFrom_error htick] at h
      cases h
      exact ⟨1, by omega, hsteps, runFrom_error htick, nofun⟩

theorem runFor_steps {input : List UInt8} (h : f.runFor symbols n { input } = (status, m)) :
    m.steps ≤ n ∧ f.runFor symbols m.steps { input } = (status, m) ∧
      ∀ q, status = .running q → m.steps = n := by
  rw [runFor, Exec.enter] at h ⊢
  cases hentry : f.block? f.entry with
  | some b =>
    rw [hentry] at h
    obtain ⟨k, hk, hcount, hrun, hrunning⟩ := exists_steps_of_runFrom h
    obtain rfl : m.steps = k := hcount.trans (Nat.zero_add k)
    exact ⟨hk, hrun, hrunning⟩
  | none =>
    rw [hentry] at h
    cases h
    exact ⟨Nat.zero_le n, rfl, fun q hq => Status.noConfusion hq⟩

/-- A run is not over before it has taken all its steps. -/
theorem runFor_running_of_lt {input : List UInt8} {k : Nat}
    (h : f.runFor symbols n { input } = (status, m)) (hstop : ∀ q, status ≠ .running q)
    (hk : k < m.steps) : ∃ p m', f.runFor symbols k { input } = (.running p, m') := by
  obtain ⟨status', m', hrun⟩ : ∃ status' m', f.runFor symbols k { input } = (status', m') :=
    ⟨_, _, rfl⟩
  have hle := (runFor_steps hrun).1
  cases status' with
  | running p => exact ⟨p, m', hrun⟩
  | returned code =>
    obtain ⟨-, rfl⟩ := runFor_unique h hstop hrun nofun
    exact absurd hle (Nat.not_le.2 hk)
  | faulted fault =>
    obtain ⟨-, rfl⟩ := runFor_unique h hstop hrun nofun
    exact absurd hle (Nat.not_le.2 hk)

end Function

/-! ## What an executor makes of it -/

namespace Executor

/-- Run a function by the loop that counts, for up to so many rounds. -/
def countedRun (e : Executor) (f : Function) (input : List UInt8) (rounds : Nat) :
    Option (Except Fault Outcome) × Executor :=
  let (status, m) := f.countedFor e.symbols e.stepLimit rounds { input }
  (status.result? m, { e with memory := m.memory })

variable {symbols : Symbols} {memory : Memory} {f : Function} {input : List UInt8} {n limit : Nat}
  {status : Status} {m : Machine}

theorem runFunction_free (h : f.runFor symbols n { input } = (status, m)) :
    runFunction ⟨symbols, none, memory⟩ f input n =
      (status.result? m, ⟨symbols, none, m.memory⟩) := by
  simp only [runFunction, Option.getD_none, h]
  cases status <;> rfl

theorem runFunction_limited (h : f.runFor symbols limit { input } = (status, m)) (fuel : Nat) :
    runFunction ⟨symbols, some limit, memory⟩ f input fuel =
      ((Status.giveUp limit (status, m)).1.result? m, ⟨symbols, some limit, m.memory⟩) := by
  simp only [runFunction, Option.getD_some, h]
  cases status <;> rfl

/-- Without a limit, the loop does what the executor does. -/
theorem countedRun_free (symbols : Symbols) (memory : Memory) (f : Function)
    (input : List UInt8) (n : Nat) : countedRun ⟨symbols, none, memory⟩ f input n =
      runFunction ⟨symbols, none, memory⟩ f input n := by
  obtain ⟨status, m, hrun⟩ : ∃ status m, f.runFor symbols n { input } = (status, m) := ⟨_, _, rfl⟩
  rw [runFunction_free hrun]
  simp only [countedRun, Function.countedFor_none, hrun]

/-- With a limit, the loop is over after one round more, with the executor's result. -/
theorem countedRun_limited (symbols : Symbols) (memory : Memory) (f : Function)
    (input : List UInt8) (h : limit < n) (fuel : Nat) :
    countedRun ⟨symbols, some limit, memory⟩ f input n =
        runFunction ⟨symbols, some limit, memory⟩ f input fuel ∧
      (countedRun ⟨symbols, some limit, memory⟩ f input n).1.isSome = true := by
  obtain ⟨status, m, hrun⟩ : ∃ status m, f.runFor symbols limit { input } = (status, m) :=
    ⟨_, _, rfl⟩
  rw [runFunction_limited hrun]
  simp only [countedRun, Function.countedFor_some f symbols h, hrun]
  cases status <;> exact ⟨rfl, rfl⟩

/-- A run that is over within the limit has the result that it has without one. -/
theorem runFunction_of_steps_le {result : Except Fault Outcome}
    (h : (runFunction ⟨symbols, none, memory⟩ f input n).1 = some result)
    (hsteps : (f.runFor symbols n { input }).2.steps ≤ limit) (fuel : Nat) :
    (runFunction ⟨symbols, some limit, memory⟩ f input fuel).1 = some result ∧
      (runFunction ⟨symbols, some limit, memory⟩ f input fuel).2.memory =
        (runFunction ⟨symbols, none, memory⟩ f input n).2.memory := by
  obtain ⟨status, m, hrun⟩ : ∃ status m, f.runFor symbols n { input } = (status, m) := ⟨_, _, rfl⟩
  rw [hrun] at hsteps
  rw [runFunction_free hrun] at h ⊢
  have hstop : ∀ p, status ≠ .running p := by
    rintro p rfl
    cases h
  have hlimit := Function.runFor_of_stopped (Function.runFor_steps hrun).2.1 hstop hsteps
  rw [runFunction_limited hlimit]
  cases status with
  | running p => exact absurd rfl (hstop p)
  | returned code => exact ⟨h, rfl⟩
  | faulted fault => exact ⟨h, rfl⟩

/-- A run that is not over within the limit is given up where it stands. -/
theorem runFunction_of_lt_steps
    (h : ∀ n result, (runFunction ⟨symbols, none, memory⟩ f input n).1 = some result →
      limit < (f.runFor symbols n { input }).2.steps) :
    (f.runFor symbols limit { input }).2.steps = limit ∧ ∀ fuel,
      (runFunction ⟨symbols, some limit, memory⟩ f input fuel).1 = some (.error (.stepLimit limit)) ∧
      (runFunction ⟨symbols, some limit, memory⟩ f input fuel).2.memory =
        (runFunction ⟨symbols, none, memory⟩ f input limit).2.memory := by
  obtain ⟨status, m, hrun⟩ : ∃ status m, f.runFor symbols limit { input } = (status, m) :=
    ⟨_, _, rfl⟩
  obtain ⟨hle, -, hsteps⟩ := Function.runFor_steps hrun
  have hlimit := h limit
  rw [runFunction_free hrun, hrun] at hlimit
  rw [runFunction_free hrun, hrun]
  cases status with
  | running p =>
    refine ⟨hsteps p rfl, fun fuel => ?_⟩
    rw [runFunction_limited hrun]
    exact ⟨rfl, rfl⟩
  | returned code => exact absurd (hlimit _ rfl) (Nat.not_lt.2 hle)
  | faulted fault => exact absurd (hlimit _ rfl) (Nat.not_lt.2 hle)

/-- A step limit cuts a run off and does not change it in any other way.

* A run with a limit always comes to an end.  It ends as the loop does that counts each step
  and compares the count with the limit before the step is done, which takes no more than
  one round past the limit; and without a limit that loop is the run that is not limited.
* If the run without a limit ends, and has counted no more steps than the limit, then the
  limited run has the same result and leaves the same memory.
* In every other case the limited run reports that the limit was exceeded, by its number,
  and leaves the memory that the run without a limit has after as many steps. -/
theorem runFunction_truncates (symbols : Symbols) (memory : Memory) (f : Function)
    (input : List UInt8) (limit : Nat) :
    let free : Executor := ⟨symbols, none, memory⟩
    let limited : Executor := ⟨symbols, some limit, memory⟩
    let counted (n : Nat) : Nat := (f.runFor symbols n { input }).2.steps
    ((∀ n, free.countedRun f input n = free.runFunction f input n) ∧
      ∀ n fuel, limit < n → limited.countedRun f input n = limited.runFunction f input fuel ∧
        (limited.countedRun f input n).1.isSome = true) ∧
    (∀ n result, (free.runFunction f input n).1 = some result → counted n ≤ limit → ∀ fuel,
      (limited.runFunction f input fuel).1 = some result ∧
        (limited.runFunction f input fuel).2.memory = (free.runFunction f input n).2.memory) ∧
    ((∀ n result, (free.runFunction f input n).1 = some result → limit < counted n) →
      counted limit = limit ∧ ∀ fuel,
        (limited.runFunction f input fuel).1 = some (.error (.stepLimit limit)) ∧
          (limited.runFunction f input fuel).2.memory =
            (free.runFunction f input limit).2.memory) ∧
    (Fault.stepLimit limit).message = s!"step limit {limit} exceeded" := by
  intro free limited counted
  refine ⟨⟨?_, ?_⟩, ?_, ?_, rfl⟩
  · exact countedRun_free symbols memory f input
  · exact fun n fuel hn => countedRun_limited symbols memory f input hn fuel
  · exact fun n result h hsteps fuel => runFunction_of_steps_le h hsteps fuel
  · exact runFunction_of_lt_steps

end Executor

end TapeFlow
