import TapeFlow.Machine.Run
import TapeFlow.Proofs.Computation
import TapeFlow.Proofs.Memory

/-!
# Steps and runs of the machine

One equation for each kind of step the code of a program takes, and how runs are
put together from steps.

* `Exec.step_load`, `Exec.step_store`, … — what an instruction does, given what
  the registers it reads hold.
* `Exec.code` — a list of instructions in a row; `Function.runFrom_code` says
  that a run goes through it.
* `Function.runFrom_add`, `Function.runFrom_of_stopped` — a run that is not over
  goes on from where it stands, and one that is over stays as it is.
-/

namespace TapeFlow

namespace Machine

/-- Give a register a value. -/
def set (m : Machine) (r : Reg) (v : Value) : Machine := { m with regs := m.regs.insert r v }

/-- Count a step. -/
def tick (m : Machine) : Machine := { m with steps := m.steps + 1 }

section Fields

variable (m : Machine) (r : Reg) (v : Value)

@[simp] theorem regs_tick : m.tick.regs = m.regs := rfl
@[simp] theorem input_tick : m.tick.input = m.input := rfl

theorem regs_set (q : Reg) : (m.set r v).regs[q]? = if r = q then some v else m.regs[q]? := by
  simp [set, Std.HashMap.getElem?_insert]

@[simp] theorem regs_set_self : (m.set r v).regs[r]? = some v := by simp [regs_set]

theorem regs_set_of_ne {q : Reg} (h : r ≠ q) : (m.set r v).regs[q]? = m.regs[q]? := by
  rw [regs_set, if_neg h]

end Fields

end Machine

/-! ## Instructions -/

namespace Exec

variable {m : Machine} {r p q : Reg} {a b offset : UInt64} {alloc : Nat}

theorem get_of_some {v : Value} (h : m.regs[r]? = some v) : get r m = .ok v m := by
  simp [get, h]

theorem int_of_some (h : m.regs[r]? = some (.int a)) : int r m = .ok a m :=
  (bind_of_ok (get_of_some h)).trans rfl

theorem ptr_of_some (h : m.regs[r]? = some (.ptr alloc offset)) :
    ptr r m = .ok (alloc, offset) m :=
  (bind_of_ok (get_of_some h)).trans rfl

theorem inRange_of_le {bytes : Allocation} {length : UInt64}
    (h : m.memory.allocations[alloc]? = some bytes)
    (hle : offset.toNat + length.toNat ≤ bytes.size) : inRange alloc offset length m = .ok () m := by
  simp [inRange, Memory.size?, h, hle]

theorem inRange_of_lt {bytes : Allocation} {length : UInt64}
    (h : m.memory.allocations[alloc]? = some bytes)
    (hlt : bytes.size < offset.toNat + length.toNat) :
    inRange alloc offset length m =
      .error (.outOfRange length.toNat offset.toNat alloc bytes.size) m := by
  simp [inRange, Memory.size?, h, Nat.not_le.2 hlt]

theorem write_of_le {bytes : Allocation} {length : UInt64} (content : Nat → List UInt8)
    (h : m.memory.allocations[alloc]? = some bytes)
    (hle : offset.toNat + length.toNat ≤ bytes.size) :
    write alloc offset length content m =
      .ok () { m with memory := m.memory.write alloc offset.toNat (content length.toNat) } :=
  (bind_of_ok (inRange_of_le h hle)).trans rfl

variable (symbols : Symbols) (dst : Reg)

theorem step_const {ty : Ty} {value : Int64} (h : ty.truncate value.toUInt64 = a) :
    step symbols (.const dst ty value) m = .ok () (m.set dst (.int a)) := by
  rw [← h]
  rfl

theorem step_alloca {ty : Ty} {count : UInt64} {size : Nat}
    (hsize : ty.size.toNat * count.toNat = size) (h : size < addressSpace) :
    step symbols (.alloca dst ty count) m = .ok ()
      (({ m with memory := m.memory.allocate size } : Machine).set dst
        (.ptr m.memory.allocations.size 0)) := by
  subst hsize
  have h64 : ¬ UInt64.size ≤ ty.size.toNat * count.toNat := by
    unfold addressSpace at h
    unfold UInt64.size
    omega
  simp only [step, if_neg h64, if_neg (Nat.not_le.2 h)]
  rfl

theorem step_load {ty : Ty} {size : UInt64} {bytes : Allocation} (hty : ty.scalarSize? = some size)
    (hp : m.regs[p]? = some (.ptr alloc offset)) (h : m.memory.allocations[alloc]? = some bytes)
    (hle : offset.toNat + size.toNat ≤ bytes.size) :
    step symbols (.load dst ty p) m = .ok ()
      (m.set dst (.int (ty.truncate (ofLittleEndian (bytes.read offset.toNat size.toNat))))) := by
  have hsize : scalarSize ty m = .ok size m := by rw [scalarSize, hty]; rfl
  have hread : read alloc offset size m = .ok (bytes.read offset.toNat size.toNat) m := by
    refine (bind_of_ok (inRange_of_le h hle)).trans ?_
    simp [Memory.read, h]
  exact (bind_of_ok (ptr_of_some hp)).trans ((bind_of_ok hsize).trans (bind_of_ok hread))

theorem step_load_outOfRange {ty : Ty} {size : UInt64} {bytes : Allocation}
    (hty : ty.scalarSize? = some size) (hp : m.regs[p]? = some (.ptr alloc offset))
    (h : m.memory.allocations[alloc]? = some bytes)
    (hlt : bytes.size < offset.toNat + size.toNat) :
    step symbols (.load dst ty p) m =
      .error (.outOfRange size.toNat offset.toNat alloc bytes.size) m := by
  have hsize : scalarSize ty m = .ok size m := by rw [scalarSize, hty]; rfl
  exact (bind_of_ok (ptr_of_some hp)).trans ((bind_of_ok hsize).trans
    (bind_of_error (bind_of_error (inRange_of_lt h hlt))))

theorem step_store {ty : Ty} {size : UInt64} {bytes : Allocation} (hty : ty.scalarSize? = some size)
    (hq : m.regs[q]? = some (.int a)) (hp : m.regs[p]? = some (.ptr alloc offset))
    (h : m.memory.allocations[alloc]? = some bytes)
    (hle : offset.toNat + size.toNat ≤ bytes.size) :
    step symbols (.store ty q p) m = .ok ()
      { m with memory := m.memory.write alloc offset.toNat (littleEndian size.toNat a) } := by
  have hsize : scalarSize ty m = .ok size m := by rw [scalarSize, hty]; rfl
  exact (bind_of_ok (int_of_some hq)).trans ((bind_of_ok (ptr_of_some hp)).trans
    ((bind_of_ok hsize).trans (write_of_le _ h hle)))

theorem step_store_outOfRange {ty : Ty} {size : UInt64} {bytes : Allocation}
    (hty : ty.scalarSize? = some size) (hq : m.regs[q]? = some (.int a))
    (hp : m.regs[p]? = some (.ptr alloc offset)) (h : m.memory.allocations[alloc]? = some bytes)
    (hlt : bytes.size < offset.toNat + size.toNat) :
    step symbols (.store ty q p) m =
      .error (.outOfRange size.toNat offset.toNat alloc bytes.size) m := by
  have hsize : scalarSize ty m = .ok size m := by rw [scalarSize, hty]; rfl
  exact (bind_of_ok (int_of_some hq)).trans ((bind_of_ok (ptr_of_some hp)).trans
    ((bind_of_ok hsize).trans (bind_of_error (inRange_of_lt h hlt))))

theorem step_gep {ty : Ty} (hp : m.regs[p]? = some (.ptr alloc offset))
    (hq : m.regs[q]? = some (.int a)) :
    step symbols (.gep dst ty p q) m =
      .ok () (m.set dst (.ptr alloc (offset + a * ty.size))) := by
  exact (bind_of_ok (ptr_of_some hp)).trans (bind_of_ok (int_of_some hq))

/-- The instruction computes a function of two words, cut down to its type. -/
def Computes (op : Reg → Ty → Reg → Reg → Instruction) (g : UInt64 → UInt64 → UInt64) : Prop :=
  ∀ {m : Machine} {dst p q : Reg} {ty : Ty} {a b : UInt64}, m.regs[p]? = some (.int a) →
    m.regs[q]? = some (.int b) →
      step symbols (op dst ty p q) m = .ok () (m.set dst (.int (ty.truncate (g a b))))

theorem computes_add : Computes symbols .add (· + ·) := by
  intro m dst p q ty a b hp hq
  rw [step, bind_of_ok (int_of_some hp), bind_of_ok (int_of_some hq)]
  rfl

theorem computes_sub : Computes symbols .sub (· - ·) := by
  intro m dst p q ty a b hp hq
  rw [step, bind_of_ok (int_of_some hp), bind_of_ok (int_of_some hq)]
  rfl

theorem step_icmpNe {ty : Ty} (hp : m.regs[p]? = some (.int a)) (hq : m.regs[q]? = some (.int b)) :
    step symbols (.icmpNe dst ty p q) m = .ok ()
      (m.set dst (.int (if ty.truncate a = ty.truncate b then 0 else 1))) := by
  rw [step, bind_of_ok (int_of_some hp), bind_of_ok (int_of_some hq)]
  rfl

/-! ## Calls -/

variable {symbols dst} {symbol : String}

theorem readInput_eq (m : Machine) :
    readInput m = .ok (m.input.headD 0) { m with input := m.input.tail } := by
  obtain ⟨regs, memory, input, output, steps⟩ := m
  cases input <;> rfl

theorem step_call_readByte (h : symbols.capability? symbol = some .readByte) :
    step symbols (.call (some dst) symbol []) m = .ok ()
      (({ m with input := m.input.tail } : Machine).set dst
        (.int (m.input.headD 0).toUInt64)) := by
  have hinvoke : invoke .readByte symbol [] m =
      .ok (some (.int (m.input.headD 0).toUInt64)) { m with input := m.input.tail } :=
    bind_of_ok (readInput_eq m)
  simp only [step, h]
  exact bind_of_ok hinvoke

theorem step_call_writeByte (h : symbols.capability? symbol = some .writeByte)
    (hp : m.regs[p]? = some (.int a)) :
    step symbols (.call (some dst) symbol [p]) m = .ok ()
      (({ m with output := m.output.push a.toUInt8 } : Machine).set dst (.int 0)) := by
  have hinvoke : invoke .writeByte symbol [p] m =
      .ok (some (.int 0)) { m with output := m.output.push a.toUInt8 } :=
    bind_of_ok (int_of_some hp)
  simp only [step, h]
  exact bind_of_ok hinvoke

theorem step_call_fill {bytes : Allocation} (h : symbols.capability? symbol = some .fill)
    (hp : m.regs[p]? = some (.ptr alloc offset)) (hq : m.regs[q]? = some (.int a))
    (hr : m.regs[r]? = some (.int b)) (hbytes : m.memory.allocations[alloc]? = some bytes)
    (hle : offset.toNat + b.toNat ≤ bytes.size) :
    step symbols (.call none symbol [p, q, r]) m = .ok ()
      { m with memory :=
          m.memory.write alloc offset.toNat (List.replicate b.toNat a.toUInt8) } := by
  have hinvoke : invoke .fill symbol [p, q, r] m = .ok none { m with
      memory := m.memory.write alloc offset.toNat (List.replicate b.toNat a.toUInt8) } :=
    (bind_of_ok (ptr_of_some hp)).trans ((bind_of_ok (int_of_some hq)).trans
      ((bind_of_ok (int_of_some hr)).trans (bind_of_ok (write_of_le _ hbytes hle))))
  simp only [step, h]
  exact bind_of_ok hinvoke

/-! ## Code without branches -/

/-- Do a list of instructions, counting each. -/
def code (symbols : Symbols) : List Instruction → Exec Unit
  | [] => pure ()
  | i :: rest => do
    modify Machine.tick
    step symbols i
    code symbols rest

variable {i : Instruction} {before rest : List Instruction} {m' : Machine} {fault : Fault}

theorem code_nil : code symbols [] m = .ok () m := rfl

theorem code_cons (h : step symbols i m.tick = .ok () m') :
    code symbols (i :: rest) m = code symbols rest m' :=
  bind_of_ok h

theorem code_cons_error (h : step symbols i m.tick = .error fault m') :
    code symbols (i :: rest) m = .error fault m' :=
  (bind_of_ok rfl).trans (bind_of_error h)

end Exec

/-! ## Runs -/

namespace Function

variable {f : Function} {symbols : Symbols} {m m' : Machine} {p q : Position} {n : Nat}

theorem runFrom_goto (h : Exec.tick symbols f p m = .ok (.goto q) m') :
    f.runFrom symbols (n + 1) p m = f.runFrom symbols n q m' := by
  rw [runFrom, h]

theorem runFrom_exit {code : UInt64} (h : Exec.tick symbols f p m = .ok (.exit code) m') :
    f.runFrom symbols (n + 1) p m = (.returned code, m') := by
  rw [runFrom, h]

theorem runFrom_error {fault : Fault} (h : Exec.tick symbols f p m = .error fault m') :
    f.runFrom symbols (n + 1) p m = (.faulted fault, m') := by
  rw [runFrom, h]

/-- A run goes through code without branches, or stops where it faults. -/
theorem runFrom_code (f : Function) (symbols : Symbols) (before rest : List Instruction)
    (label : String) (t : Option Terminator) (n : Nat) (m : Machine) :
    f.runFrom symbols (before.length + n) ⟨label, before ++ rest, t⟩ m =
      match Exec.code symbols before m with
      | .ok () m' => f.runFrom symbols n ⟨label, rest, t⟩ m'
      | .error fault m' => (.faulted fault, m') := by
  induction before generalizing m with
  | nil => rw [List.length_nil, Nat.zero_add, List.nil_append, Exec.code_nil]
  | cons i before ih =>
    rw [List.length_cons, Nat.succ_add, List.cons_append]
    cases hi : Exec.step symbols i m.tick with
    | ok _ m₁ =>
      have htick : Exec.tick symbols f ⟨label, i :: (before ++ rest), t⟩ m =
          .ok (.goto ⟨label, before ++ rest, t⟩) m₁ := bind_of_ok hi
      rw [runFrom_goto htick, Exec.code_cons hi, ih]
    | error fault m₁ =>
      have htick : Exec.tick symbols f ⟨label, i :: (before ++ rest), t⟩ m = .error fault m₁ :=
        (bind_of_ok rfl).trans (bind_of_error hi)
      rw [runFrom_error htick, Exec.code_cons_error hi]

theorem runFrom_code_of_ok {before rest : List Instruction} {label : String}
    {t : Option Terminator} (h : Exec.code symbols before m = .ok () m') (n : Nat) :
    f.runFrom symbols (before.length + n) ⟨label, before ++ rest, t⟩ m =
      f.runFrom symbols n ⟨label, rest, t⟩ m' := by
  rw [runFrom_code, h]

theorem runFrom_code_of_error {before rest : List Instruction} {label : String}
    {t : Option Terminator} {fault : Fault} (h : Exec.code symbols before m = .error fault m')
    (n : Nat) :
    f.runFrom symbols (before.length + n) ⟨label, before ++ rest, t⟩ m = (.faulted fault, m') := by
  rw [runFrom_code, h]

/-- At the end of a block, a test picks the block the run goes on in. -/
theorem runFrom_condBr {label : String} {cond : Reg} {thenBlock elseBlock : BlockId}
    {word : UInt64} {b : Block} (hcond : m.regs[cond]? = some (.int word))
    (hb : f.block? (if word = 0 then elseBlock else thenBlock) = some b) (n : Nat) :
    f.runFrom symbols (n + 1) ⟨label, [], some (.condBr cond thenBlock elseBlock)⟩ m =
      f.runFrom symbols n b.start m.tick := by
  have henter : Exec.enter f (if word = 0 then elseBlock else thenBlock) m.tick =
      .ok b.start m.tick := by
    rw [Exec.enter, hb]
    rfl
  have hint : Exec.int cond m.tick = .ok word m.tick := Exec.int_of_some hcond
  exact runFrom_goto ((bind_of_ok hint).trans (map_of_ok Move.goto henter))

theorem runFrom_ret {label : String} {value : Reg} {word : UInt64}
    (hvalue : m.regs[value]? = some (.int word)) (n : Nat) :
    f.runFrom symbols (n + 1) ⟨label, [], some (.ret (some value))⟩ m = (.returned word, m.tick) := by
  have hint : Exec.int value m.tick = .ok word m.tick := Exec.int_of_some hvalue
  exact runFrom_exit (map_of_ok Move.exit hint)

/-! ## Longer runs -/

/-- A run that is not over goes on from where it stands. -/
theorem runFrom_add (h : f.runFrom symbols n p m = (.running q, m')) (k : Nat) :
    f.runFrom symbols (n + k) p m = f.runFrom symbols k q m' := by
  induction n generalizing p m with
  | zero => cases h; rw [Nat.zero_add]
  | succ n ih =>
    rw [Nat.succ_add]
    rw [runFrom] at h ⊢
    split at h
    · exact ih h
    · cases h
    · cases h

/-- A run that is over stays as it is. -/
theorem runFrom_of_stopped {status : Status} (h : f.runFrom symbols n p m = (status, m'))
    (hs : ∀ q, status ≠ .running q) {k : Nat} (hk : n ≤ k) :
    f.runFrom symbols k p m = (status, m') := by
  induction n generalizing p m k with
  | zero => cases h; exact absurd rfl (hs p)
  | succ n ih =>
    obtain ⟨k, rfl⟩ := Nat.exists_eq_add_of_le' (Nat.lt_of_lt_of_le (Nat.succ_pos n) hk)
    rw [runFrom] at h ⊢
    split at h
    · exact ih h (Nat.le_of_succ_le_succ hk)
    · exact h
    · exact h

theorem runFor_of_stopped {status : Status} (h : f.runFor symbols n m = (status, m'))
    (hs : ∀ q, status ≠ .running q) {k : Nat} (hk : n ≤ k) :
    f.runFor symbols k m = (status, m') := by
  rw [runFor] at h ⊢
  split at h
  · exact runFrom_of_stopped h hs hk
  · exact h

/-- However many steps are allowed, a run can be over in one way only. -/
theorem runFor_unique {status status' : Status} {k : Nat} {m'' : Machine}
    (h : f.runFor symbols n m = (status, m')) (hs : ∀ q, status ≠ .running q)
    (h' : f.runFor symbols k m = (status', m'')) (hs' : ∀ q, status' ≠ .running q) :
    status = status' ∧ m' = m'' := by
  have hmax := runFor_of_stopped h hs (Nat.le_max_left n k)
  rw [runFor_of_stopped h' hs' (Nat.le_max_right n k)] at hmax
  cases hmax
  exact ⟨rfl, rfl⟩

end Function

namespace Executor

variable {f : Function} {fs : List Function} {symbols : Symbols} {input : List UInt8}
  {fuel : Nat} {m : Machine} {memory : Memory} {name : String} {declarations : List Declaration}

/-- The result of a run without a step limit is read off its status. -/
theorem run_of_runFor {status : Status} (h : f.runFor symbols fuel { input } = (status, m)) :
    run ⟨symbols, none, memory⟩ ⟨name, declarations, f :: fs⟩ input fuel =
      (match status with
        | .returned code => some (.ok ⟨m.output, code, m.steps⟩)
        | .faulted fault => some (.error fault)
        | .running _ => none, ⟨symbols, none, m.memory⟩) := by
  simp only [run, runFunction, Option.getD_none, h]
  cases status <;> rfl

/-- There is no result exactly while the run goes on. -/
theorem run_eq_none_iff :
    (run ⟨symbols, none, memory⟩ ⟨name, declarations, f :: fs⟩ input fuel).1 = none ↔
      ∃ p m, f.runFor symbols fuel { input } = (.running p, m) := by
  obtain ⟨status, m, hrun⟩ : ∃ status m, f.runFor symbols fuel { input } = (status, m) := ⟨_, _, rfl⟩
  have hstop : (∀ p, status ≠ .running p) →
      ¬ ∃ p m, f.runFor symbols fuel { input } = (.running p, m) := by
    rintro hne ⟨p, m', hp⟩
    exact hne p (Prod.mk.inj (hrun.symm.trans hp)).1
  rw [run_of_runFor hrun]
  cases status with
  | running p => exact iff_of_true rfl ⟨p, m, hrun⟩
  | returned code => exact iff_of_false nofun (hstop nofun)
  | faulted fault => exact iff_of_false nofun (hstop nofun)

/-- With a limit or without, a run returns exactly if its function does so in the steps that
it has. -/
theorem run_eq_ok_iff {limit : Option Nat} {outcome : Outcome} :
    (run ⟨symbols, limit, memory⟩ ⟨name, declarations, f :: fs⟩ input fuel).1 =
        some (.ok outcome) ↔
      ∃ m, f.runFor symbols (limit.getD fuel) { input } = (.returned outcome.exitCode, m) ∧
        outcome = ⟨m.output, outcome.exitCode, m.steps⟩ := by
  obtain ⟨status, m, hrun⟩ : ∃ status m, f.runFor symbols (limit.getD fuel) { input } =
    (status, m) := ⟨_, _, rfl⟩
  simp only [run, runFunction, hrun]
  constructor
  · intro hok
    cases status with
    | returned code =>
      cases hok
      exact ⟨m, rfl, rfl⟩
    | faulted fault => cases hok
    | running p => cases limit <;> cases hok
  · rintro ⟨m', heq, houtcome⟩
    cases heq
    rw [houtcome]

theorem memory_run (limit : Option Nat) :
    (run ⟨symbols, limit, memory⟩ ⟨name, declarations, f :: fs⟩ input fuel).2.memory =
      (f.runFor symbols (limit.getD fuel) { input }).2.memory := rfl

theorem exists_of_run_ok {outcome : Outcome}
    (h : (run ⟨symbols, none, memory⟩ ⟨name, declarations, f :: fs⟩ input fuel).1 =
      some (.ok outcome)) :
    ∃ m, f.runFor symbols fuel { input } = (.returned outcome.exitCode, m) ∧
      outcome.output = m.output ∧
      (run ⟨symbols, none, memory⟩ ⟨name, declarations, f :: fs⟩ input fuel).2.memory = m.memory := by
  obtain ⟨m, hrun, houtcome⟩ := run_eq_ok_iff.1 h
  refine ⟨m, hrun, congrArg Outcome.output houtcome, ?_⟩
  rw [memory_run, hrun]

theorem exists_of_run_error {fault : Fault}
    (h : (run ⟨symbols, none, memory⟩ ⟨name, declarations, f :: fs⟩ input fuel).1 =
      some (.error fault)) :
    ∃ m, f.runFor symbols fuel { input } = (.faulted fault, m) ∧
      (run ⟨symbols, none, memory⟩ ⟨name, declarations, f :: fs⟩ input fuel).2.memory = m.memory := by
  obtain ⟨status, m, hrun⟩ : ∃ status m, f.runFor symbols fuel { input } = (status, m) := ⟨_, _, rfl⟩
  rw [run_of_runFor hrun] at h ⊢
  cases status with
  | returned code => cases h
  | faulted fault => cases h; exact ⟨m, hrun, rfl⟩
  | running p => cases h

end Executor

end TapeFlow
