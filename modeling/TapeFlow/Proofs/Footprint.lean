import TapeFlow.Proofs.MemorySafety

/-!
# What an instruction changes, and what it goes by

`Instruction.defined?` and `Instruction.used` are tables, written apart from the machine
that does the instructions.  Here the machine is held to them.  An instruction goes by the
registers that it is said to use, so machines that agree on those cannot be told apart by
it; it writes at most the register that it is said to define; and what else it changes is
confined to what it addresses.  An instruction that faults has changed nothing.

* `Effect` — what an instruction leaves behind, without the registers that it leaves alone;
  `Machine.apply` puts it into a machine.
* `Effect.Confined` — the effect is one that the instruction may have.
* `Exec.Leaves` — on all machines that agree, a computation has the same effect or the same
  fault; `Exec.leaves_perform` and `Exec.leaves_step` for an action and an instruction.
* `Exec.step_framed` — what follows for one machine, and for two.
-/

namespace TapeFlow

/-! ## Effects -/

/-- What an instruction leaves behind. -/
structure Effect where
  /-- The register that is given a value, with the value. -/
  written : Option (Reg × Value)
  /-- The memory. -/
  memory : Memory
  /-- The input still to be read. -/
  input : List UInt8
  /-- The output. -/
  output : Array UInt8

/-- The machine after an effect.  Registers that are not written stay as they are. -/
def Machine.apply (m : Machine) (e : Effect) : Machine :=
  { m with
    regs := match e.written with
      | some (r, v) => m.regs.insert r v
      | none => m.regs
    memory := e.memory
    input := e.input
    output := e.output }

theorem Machine.regs_apply_of_ne (m : Machine) {e : Effect} {q : Reg}
    (h : ∀ r v, e.written = some (r, v) → r ≠ q) : (m.apply e).regs[q]? = m.regs[q]? := by
  unfold apply
  cases hw : e.written with
  | none => rfl
  | some rv => exact regs_set_of_ne m rv.1 rv.2 (h rv.1 rv.2 hw)

/-- The memory that an instruction may leave. -/
inductive Instruction.MayLeave (symbols : Symbols) (m : Machine) (i : Instruction) :
    Memory → Prop where
  /-- As it was. -/
  | same : MayLeave symbols m i m.memory
  /-- With one more allocation at the end, as an `alloca` makes it. -/
  | grown {dst : Reg} {ty : Ty} {count : UInt64} (allocates : i = .alloca dst ty count) :
    MayLeave symbols m i (m.memory.allocate (ty.size.toNat * count.toNat))
  /-- With other bytes where a store or a fill goes to, all of which are there. -/
  | written {span : Span} {new : Memory} (targets : i.Targets symbols m span)
    (inside : span.Inside m.memory) (rest : m.memory.SameOutside span new) :
    MayLeave symbols m i new

/-- The effect is one that the instruction may have on this machine. -/
structure Effect.Confined (e : Effect) (symbols : Symbols) (i : Instruction) (m : Machine) :
    Prop where
  /-- A register that is written is the one that the instruction defines. -/
  register : ∀ r v, e.written = some (r, v) → i.defined? = some r
  /-- Memory changes only where the instruction goes to. -/
  memory : i.MayLeave symbols m e.memory
  /-- A byte of input is read by a call that reads, and by nothing else. -/
  input : e.input = if i.capability? symbols = some .readByte then m.input.tail else m.input
  /-- A byte of output is added by a call that writes, and by nothing else. -/
  output : if i.capability? symbols = some .writeByte then ∃ b, e.output = m.output.push b
    else e.output = m.output

/-- An effect on registers and memory only. -/
theorem Effect.confined_of_silent {symbols : Symbols} {i : Instruction} {m : Machine}
    {written : Option (Reg × Value)} {memory : Memory}
    (hread : i.capability? symbols ≠ some .readByte)
    (hwrite : i.capability? symbols ≠ some .writeByte)
    (hregister : ∀ r v, written = some (r, v) → i.defined? = some r)
    (hmemory : i.MayLeave symbols m memory) :
    Effect.Confined ⟨written, memory, m.input, m.output⟩ symbols i m := by
  refine ⟨hregister, hmemory, ?_, ?_⟩
  · rw [if_neg hread]
  · rw [if_neg hwrite]

/-- What is stored or filled is neither read from the input nor written to the output. -/
theorem Instruction.Targets.silent {symbols : Symbols} {m : Machine} {i : Instruction}
    {span : Span} (h : i.Targets symbols m span) :
    i.capability? symbols ≠ some .readByte ∧ i.capability? symbols ≠ some .writeByte := by
  cases h with
  | store address scalar => exact ⟨nofun, nofun⟩
  | fill fills first address third extent =>
    simp only [capability?, fills]
    exact ⟨nofun, nofun⟩

/-! ## Machines that agree -/

namespace Exec

variable {symbols : Symbols} {i : Instruction} {m : Machine} {rs : List Reg} {action : Action}

/-- On all machines that agree with this one on some registers, the computation has the
same effect, which is `good`, or it ends in the same fault and has changed nothing. -/
def Leaves (rs : List Reg) (m : Machine) (x : Exec Unit) (good : Effect → Prop) : Prop :=
  (∃ e, good e ∧ ∀ n, m.AgreeOn rs n → x n = .ok () (n.apply e)) ∨
    ∃ fault, ∀ n, m.AgreeOn rs n → x n = .error fault n

/-- First look, then act. -/
theorem Looks.leaves {α : Type} {x : Exec α} {next : α → Exec Unit} {good : α → Prop}
    {good' : Effect → Prop} (h : Looks rs m x good)
    (hnext : ∀ a, good a → Leaves rs m (next a) good') : Leaves rs m (x >>= next) good' := by
  rcases h with ⟨a, ha, hx⟩ | ⟨fault, -, hx⟩
  · rcases hnext a ha with ⟨e, he, hrest⟩ | ⟨fault, hrest⟩
    · exact .inl ⟨e, he, fun n hn => (bind_of_ok (hx n hn)).trans (hrest n hn)⟩
    · exact .inr ⟨fault, fun n hn => (bind_of_ok (hx n hn)).trans (hrest n hn)⟩
  · exact .inr ⟨fault, fun n hn => bind_of_error (hx n hn)⟩

/-- Whether bytes are there is the same on all machines that agree. -/
theorem inRange_agree (rs : List Reg) (m : Machine) (span : Span) :
    (span.Inside m.memory ∧ ∀ n, m.AgreeOn rs n →
        inRange span.alloc span.offset span.length n = .ok () n) ∨
      ∃ fault, ∀ n, m.AgreeOn rs n →
        inRange span.alloc span.offset span.length n = .error fault n := by
  cases hsize : m.memory.size? span.alloc with
  | none => exact .inr ⟨.dangling span.alloc, fun n hn => by rw [inRange, hn.memory, hsize]⟩
  | some size =>
    by_cases hle : span.offset.toNat + span.length.toNat ≤ size
    · refine .inl ⟨⟨size, hsize, hle⟩, fun n hn => ?_⟩
      rw [inRange, hn.memory, hsize]
      exact if_pos hle
    · refine .inr ⟨.outOfRange span.length.toNat span.offset.toNat span.alloc size, fun n hn => ?_⟩
      rw [inRange, hn.memory, hsize]
      exact if_neg hle

/-- An effect that is computed from memory, input and output is the same on all machines
that agree. -/
theorem leaves_of_ok {x : Exec Unit} {good : Effect → Prop}
    (e : Memory → List UInt8 → Array UInt8 → Effect) (hgood : good (e m.memory m.input m.output))
    (hx : ∀ n, m.AgreeOn rs n → x n = .ok () (n.apply (e n.memory n.input n.output))) :
    Leaves rs m x good :=
  .inl ⟨_, hgood, fun n hn => by rw [hx n hn, hn.memory, hn.input, hn.output]⟩

/-- What is left when a value has been kept, if there is a register for it. -/
theorem keep_eq (dst : Option Reg) (v : Value) (n : Machine) :
    keep dst v n = .ok () (n.apply ⟨dst.map (·, v), n.memory, n.input, n.output⟩) := by
  cases dst <;> rfl

/-- A value that is kept goes to the register that there is for it. -/
theorem defined?_of_keep {dst : Option Reg} {v : Value} (h : i.defined? = dst) :
    ∀ r w, dst.map (·, v) = some (r, w) → i.defined? = some r := by
  intro r w hw
  obtain ⟨r', rfl, hr⟩ := Option.map_eq_some_iff.1 hw
  cases hr
  exact h

/-- An action that an instruction was decoded to leaves what the instruction may leave. -/
theorem leaves_perform (h : Decoded symbols m i action) :
    Leaves rs m (perform action) fun e => e.Confined symbols i m := by
  have horigin := h.origin
  cases action with
  | put dst value =>
    obtain ⟨hdst, hcap, -⟩ := horigin
    refine leaves_of_ok (fun memory input output => ⟨some (dst, value), memory, input, output⟩)
      (Effect.confined_of_silent (by simp [hcap]) (by simp [hcap]) ?_ .same) fun n _ => rfl
    rintro _ _ ⟨⟩
    exact hdst
  | allocate dst size =>
    obtain ⟨ty, count, rfl, rfl⟩ := horigin
    refine leaves_of_ok (fun memory input output => ⟨some (dst, .ptr memory.allocations.size 0),
      memory.allocate (ty.size.toNat * count.toNat), input, output⟩)
      (Effect.confined_of_silent nofun nofun ?_ (.grown rfl)) fun n _ => rfl
    rintro _ _ ⟨⟩
    rfl
  | load dst ty span =>
    obtain ⟨p, rfl, -, -⟩ := horigin
    rcases inRange_agree rs m span with ⟨-, hok⟩ | ⟨fault, herror⟩
    · refine leaves_of_ok (fun memory input output => ⟨some (dst, .int (ty.truncate (ofLittleEndian
        (memory.read span.alloc span.offset.toNat span.length.toNat)))), memory, input, output⟩)
        (Effect.confined_of_silent nofun nofun ?_ .same)
        fun n hn => bind_of_ok (bind_of_ok (hok n hn))
      rintro _ _ ⟨⟩
      rfl
    · exact .inr ⟨fault, fun n hn => bind_of_error (bind_of_error (herror n hn))⟩
  | overwrite span bytes =>
    obtain ⟨htargets, hsupplies⟩ := horigin
    obtain ⟨hread, hwrite⟩ := htargets.silent
    have hrest := Memory.sameOutside_write m.memory span (hsupplies.length_eq _)
    rcases inRange_agree rs m span with ⟨hinside, hok⟩ | ⟨fault, herror⟩
    · exact leaves_of_ok (fun memory input output => ⟨none, memory.write span.alloc
        span.offset.toNat (bytes span.length.toNat), input, output⟩)
        (Effect.confined_of_silent hread hwrite nofun (.written htargets hinside hrest))
        fun n hn => bind_of_ok (hok n hn)
    · exact .inr ⟨fault, fun n hn => bind_of_error (herror n hn)⟩
  | receive dst =>
    obtain ⟨hdst, hcap⟩ := horigin
    exact leaves_of_ok (fun memory input output => ⟨dst.map (·, .int (input.headD 0).toUInt64),
      memory, input.tail, output⟩)
      ⟨defined?_of_keep hdst, .same, by simp [hcap], by simp [hcap]⟩
      fun n _ => (bind_of_ok (readInput_eq n)).trans (keep_eq dst _ _)
  | send dst byte =>
    obtain ⟨hdst, hcap⟩ := horigin
    refine leaves_of_ok (fun memory input output => ⟨dst.map (·, .int 0), memory, input,
      output.push byte⟩) ⟨defined?_of_keep hdst, .same, by simp [hcap], ?_⟩
      fun n _ => (bind_of_ok rfl).trans (keep_eq dst _ _)
    rw [if_pos hcap]
    exact ⟨byte, rfl⟩

/-- On all machines that agree on the registers that an instruction uses, it has the same
effect, or it ends in the same fault. -/
theorem leaves_step (symbols : Symbols) (i : Instruction) (m : Machine) :
    Leaves i.used m (step symbols i) fun e => e.Confined symbols i m := by
  rw [step_eq]
  exact (looks_decode symbols i).leaves fun _ h => leaves_perform h

/-- Doing an instruction is all or nothing, and keeps to what the instruction names.

* If it faults, nothing has changed.
* If it is done, every register but the one that it defines is as it was, and memory, input
  and output are as it may leave them.
* On two machines that agree on the registers that it uses, it ends in the same fault, or
  it has the same effect: the same memory, input and output, and the same value for the
  register that it defines, if that is written. -/
theorem step_framed (symbols : Symbols) (i : Instruction) (m : Machine) :
    (∀ fault m', step symbols i m = .error fault m' → m' = m) ∧
    (∀ m', step symbols i m = .ok () m' →
      (∀ r, i.defined? ≠ some r → m'.regs[r]? = m.regs[r]?) ∧
        ∃ e : Effect, m' = m.apply e ∧ e.Confined symbols i m) ∧
    ∀ n, m.AgreeOn i.used n →
      (∃ fault, step symbols i m = .error fault m ∧ step symbols i n = .error fault n) ∨
        ∃ e : Effect, e.Confined symbols i m ∧ step symbols i m = .ok () (m.apply e) ∧
          step symbols i n = .ok () (n.apply e) := by
  have hself := Machine.AgreeOn.refl i.used m
  rcases leaves_step symbols i m with ⟨e, hconfined, hok⟩ | ⟨fault, herror⟩
  · refine ⟨fun fault m' h => ?_, fun m' h => ?_, fun n hn => ?_⟩
    · cases (hok m hself).symm.trans h
    · cases (hok m hself).symm.trans h
      refine ⟨fun r hr => m.regs_apply_of_ne fun q v hw hq => ?_, e, rfl, hconfined⟩
      exact hr (hq ▸ hconfined.register q v hw)
    · exact .inr ⟨e, hconfined, hok m hself, hok n hn⟩
  · refine ⟨fun fault' m' h => ?_, fun m' h => ?_, fun n hn => ?_⟩
    · cases (herror m hself).symm.trans h
      rfl
    · cases (herror m hself).symm.trans h
    · exact .inl ⟨fault, herror m hself, herror n hn⟩

end Exec

end TapeFlow
