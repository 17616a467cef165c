import TapeFlow.Machine.Run
import TapeFlow.Proofs.Computation
import TapeFlow.Proofs.Symbols
import TapeFlow.Proofs.WellFormed

/-!
# What cannot go wrong in a checked module

The checker excludes some faults for good: in a run of a function that it
accepts, control always finds a block and a terminator, every call finds its
capability and its arguments, and a register that is read is one that the
function defines, though perhaps elsewhere.

* `Fault.Unchecked` — the faults that the checker does not exclude.
* `Exec.Yields` — a computation returns only values, and ends only in faults, of
  some kind; `Exec.Yields.bind` puts two together.
* `Exec.yields_step`, `Exec.yields_tick` — one instruction and one step of a function
  in order.
* `Function.WellFormed.runFrom_unchecked` — a whole run.
* `Executor.runFunction_unchecked` — what an executor reports of a checked module.
-/

namespace TapeFlow

/-- The faults that a function can end in although it is in order. -/
def Fault.Unchecked (f : Function) : Fault → Prop
  | missingBlock _ | missingTerminator _ | unknownSymbol _ | missingArgument .. => False
  | unset r => r ∈ f.definitions
  | _ => True

namespace Exec

variable {α β : Type}

/-- The computation returns only what is `good` and ends only in faults that are
`bad`, whatever the machine. -/
def Yields (x : Exec α) (good : α → Prop) (bad : Fault → Prop) : Prop :=
  ∀ m, match x m with
    | .ok a _ => good a
    | .error fault _ => bad fault

section

variable {x : Exec α} {next : α → Exec β} {good : α → Prop} {good' : β → Prop}
  {bad : Fault → Prop}

theorem Yields.of_ok (h : x.Yields good bad) {m m' : Machine} {a : α} (hx : x m = .ok a m') :
    good a := by
  have := h m
  rwa [hx] at this

theorem Yields.of_error (h : x.Yields good bad) {m m' : Machine} {fault : Fault}
    (hx : x m = .error fault m') : bad fault := by
  have := h m
  rwa [hx] at this

theorem Yields.bind (h : x.Yields good bad) (hnext : ∀ a, good a → (next a).Yields good' bad) :
    (x >>= next).Yields good' bad := by
  intro m
  rcases bind_cases x next m with ⟨a, m', ha, hrest⟩ | ⟨fault, m', hfault, hrest⟩
  · rw [hrest]
    exact hnext a (h.of_ok ha) m'
  · rw [hrest]
    exact h.of_error hfault

theorem Yields.map (h : x.Yields good bad) {g : α → β} (hg : ∀ a, good a → good' (g a)) :
    (g <$> x).Yields good' bad := by
  intro m
  cases hx : x m with
  | ok a m' => rw [map_of_ok g hx]; exact hg a (h.of_ok hx)
  | error fault m' => rw [map_of_error g hx]; exact h.of_error hx

theorem yields_pure {a : α} (h : good a) : (pure a : Exec α).Yields good bad := fun _ => h

theorem yields_throw {fault : Fault} (h : bad fault) : (throw fault : Exec α).Yields good bad :=
  fun _ => h

theorem yields_throw_bind {fault : Fault} (h : bad fault) (next : α → Exec β) :
    ((throw fault : Exec α) >>= next).Yields good' bad := fun _ => h

end

/-! ## One instruction -/

section

variable {f : Function} {r : Reg}

theorem yields_get (h : r ∈ f.definitions) :
    (get r).Yields (fun _ => True) (Fault.Unchecked f) := by
  intro m
  rw [get]
  cases m.regs[r]? with
  | some v => trivial
  | none => exact h

theorem yields_int (h : r ∈ f.definitions) :
    (int r).Yields (fun _ => True) (Fault.Unchecked f) := by
  refine (yields_get h).bind fun v _ => ?_
  cases v with
  | int word => exact yields_pure trivial
  | ptr alloc offset => exact yields_throw trivial

theorem yields_ptr (h : r ∈ f.definitions) :
    (ptr r).Yields (fun _ => True) (Fault.Unchecked f) := by
  refine (yields_get h).bind fun v _ => ?_
  cases v with
  | int word => exact yields_throw trivial
  | ptr alloc offset => exact yields_pure trivial

theorem yields_set (r : Reg) (v : Value) :
    (set r v).Yields (fun _ => True) (Fault.Unchecked f) := fun _ => trivial

theorem yields_allocate (size : Nat) :
    (allocate size).Yields (fun _ => True) (Fault.Unchecked f) := fun _ => trivial

theorem yields_scalarSize (ty : Ty) :
    (scalarSize ty).Yields (fun _ => True) (Fault.Unchecked f) := by
  rw [scalarSize]
  cases ty.scalarSize? with
  | some size => exact yields_pure trivial
  | none => exact yields_throw trivial

theorem yields_inRange (alloc : Nat) (offset length : UInt64) :
    (inRange alloc offset length).Yields (fun _ => True) (Fault.Unchecked f) := by
  intro m
  rw [inRange]
  cases m.memory.size? alloc with
  | none => trivial
  | some size =>
    by_cases h : offset.toNat + length.toNat ≤ size
    · simp only [if_pos h]
    · simp only [if_neg h]
      trivial

theorem yields_read (alloc : Nat) (offset length : UInt64) :
    (read alloc offset length).Yields (fun _ => True) (Fault.Unchecked f) :=
  (yields_inRange alloc offset length).bind fun _ _ _ => trivial

theorem yields_write (alloc : Nat) (offset length : UInt64) (bytes : Nat → List UInt8) :
    (write alloc offset length bytes).Yields (fun _ => True) (Fault.Unchecked f) :=
  (yields_inRange alloc offset length).bind fun _ _ _ => trivial

theorem yields_readInput : readInput.Yields (fun _ => True) (Fault.Unchecked f) := by
  intro m
  rw [readInput]
  cases m.input with
  | nil => trivial
  | cons b bs => trivial

theorem yields_writeOutput (byte : UInt8) :
    (writeOutput byte).Yields (fun _ => True) (Fault.Unchecked f) := fun _ => trivial

theorem yields_argument {args : List Reg} {index : Nat} (symbol : String)
    (h : index < args.length) :
    (argument symbol args index).Yields (fun r => r ∈ args) (Fault.Unchecked f) := by
  rw [argument, List.getElem?_eq_getElem h]
  exact yields_pure (List.getElem_mem h)

/-- A capability that is given all its arguments. -/
theorem yields_invoke {c : Capability} {args : List Reg} (symbol : String)
    (hlen : args.length = c.signature.params.length) (hargs : ∀ r ∈ args, r ∈ f.definitions) :
    (invoke c symbol args).Yields (fun _ => True) (Fault.Unchecked f) := by
  cases c with
  | readByte => exact yields_readInput.bind fun _ _ => yields_pure trivial
  | writeByte =>
    have hlen : args.length = 1 := hlen
    refine (yields_argument symbol (by omega)).bind fun r hr => ?_
    refine (yields_int (hargs r hr)).bind fun word _ => ?_
    exact (yields_writeOutput word.toUInt8).bind fun _ _ => yields_pure trivial
  | fill =>
    have hlen : args.length = 3 := hlen
    refine (yields_argument symbol (by omega)).bind fun base hbase => ?_
    refine (yields_ptr (hargs base hbase)).bind fun ⟨alloc, offset⟩ _ => ?_
    refine (yields_argument symbol (by omega)).bind fun value hvalue => ?_
    refine (yields_int (hargs value hvalue)).bind fun word _ => ?_
    refine (yields_argument symbol (by omega)).bind fun size hsize => ?_
    refine (yields_int (hargs size hsize)).bind fun length _ => ?_
    exact (yields_write alloc offset length _).bind fun _ _ => yields_pure trivial

/-- An instruction that reads registers the function defines, and calls only
capabilities, with all their arguments. -/
theorem yields_step {symbols : Symbols} {i : Instruction}
    (hused : ∀ r ∈ i.used, r ∈ f.definitions)
    (hcall : ∀ dst symbol args, i = .call dst symbol args →
      ∃ c, symbols.capability? symbol = some c ∧ args.length = c.signature.params.length) :
    (step symbols i).Yields (fun _ => True) (Fault.Unchecked f) := by
  have hfirst : ∀ {r rs}, i.used = r :: rs → r ∈ f.definitions := fun {r rs} h =>
    hused r (h ▸ List.mem_cons_self)
  have hsecond : ∀ {q r rs}, i.used = q :: r :: rs → r ∈ f.definitions := fun {q r rs} h =>
    hused r (h ▸ List.mem_cons_of_mem _ List.mem_cons_self)
  cases i with
  | const dst ty value => exact yields_set _ _
  | alloca dst ty count =>
    simp only [step]
    split
    · exact yields_throw_bind trivial _
    · split
      · exact yields_throw_bind trivial _
      · exact (yields_allocate _).bind fun alloc _ => yields_set _ _
  | load dst ty p =>
    refine (yields_ptr (hfirst rfl)).bind fun ⟨alloc, offset⟩ _ => ?_
    refine (yields_scalarSize ty).bind fun size _ => ?_
    exact (yields_read alloc offset size).bind fun _ _ => yields_set _ _
  | store ty value p =>
    refine (yields_int (hfirst rfl)).bind fun word _ => ?_
    refine (yields_ptr (hsecond rfl)).bind fun ⟨alloc, offset⟩ _ => ?_
    exact (yields_scalarSize ty).bind fun size _ => yields_write _ _ _ _
  | gep dst ty base index =>
    refine (yields_ptr (hfirst rfl)).bind fun ⟨alloc, offset⟩ _ => ?_
    exact (yields_int (hsecond rfl)).bind fun _ _ => yields_set _ _
  | add dst ty lhs rhs | sub dst ty lhs rhs | icmpNe dst ty lhs rhs =>
    refine (yields_int (hfirst rfl)).bind fun a _ => ?_
    exact (yields_int (hsecond rfl)).bind fun b _ => yields_set _ _
  | call dst symbol args =>
    obtain ⟨c, hc, hlen⟩ := hcall dst symbol args rfl
    simp only [step, hc]
    refine (yields_invoke symbol hlen hused).bind fun v _ => ?_
    cases dst with
    | none => exact yields_pure trivial
    | some r =>
      cases v with
      | none => exact yields_pure trivial
      | some v => exact yields_set _ _

end

end Exec

/-! ## One step of a function -/

/-- The place is in a block of the function. -/
def Function.Within (f : Function) (p : Position) : Prop :=
  ∃ (c : Nat) (block : Block), f.blocks[c]? = some block ∧
    p.rest <:+ block.instructions.toList ∧ p.terminator = block.terminator

/-- The step leads to a place in the function, or out of it. -/
def Move.Within (f : Function) : Move → Prop
  | goto p => f.Within p
  | exit _ => True

/-- The symbols that a module declares stand for the capabilities it calls. -/
structure Symbols.Serve (symbols : Symbols) (m : Module) : Prop where
  /-- The three names are different. -/
  distinct : symbols.Distinct
  /-- They are what the module declares. -/
  declared : m.declarations = symbols.declarations

theorem Symbols.Serve.capability?_of_arity? {symbols : Symbols} {m : Module}
    (h : symbols.Serve m) {symbol : String} {n : Nat} (harity : m.arity? symbol = some n) :
    ∃ c, symbols.capability? symbol = some c ∧ n = c.signature.params.length := by
  obtain ⟨c, rfl, hlen⟩ := exists_of_arity? h.declared harity
  exact ⟨c, h.distinct.capability?_nameOf c, hlen⟩

namespace Exec

variable {f : Function} {m : Module} {symbols : Symbols}

theorem yields_enter {id : BlockId} (h : (f.block? id).isSome = true) :
    (enter f id).Yields f.Within (Fault.Unchecked f) := by
  obtain ⟨block, hblock⟩ := Option.isSome_iff_exists.1 h
  rw [enter, hblock]
  exact yields_pure ⟨id.toNat, block, hblock, List.suffix_refl _, rfl⟩

theorem yields_leave {t : Terminator} (hsucc : ∀ id ∈ t.successors, (f.block? id).isSome = true)
    (hused : ∀ r ∈ t.used, r ∈ f.definitions) :
    (leave f t).Yields (Move.Within f) (Fault.Unchecked f) := by
  cases t with
  | br target => exact (yields_enter (hsucc target List.mem_cons_self)).map fun _ hp => hp
  | condBr cond thenBlock elseBlock =>
    refine (yields_int (hused cond List.mem_cons_self)).bind fun word _ => ?_
    refine (yields_enter (hsucc _ ?_)).map fun _ hp => hp
    split
    · exact List.mem_cons_of_mem _ List.mem_cons_self
    · exact List.mem_cons_self
  | ret value =>
    cases value with
    | none => exact yields_pure trivial
    | some value => exact (yields_int (hused value List.mem_cons_self)).map fun _ _ => trivial

/-- A step from a place in a function that is in order. -/
theorem yields_tick (hf : f.WellFormed m) (hserve : symbols.Serve m) {p : Position}
    (hp : f.Within p) : (tick symbols f p).Yields (Move.Within f) (Fault.Unchecked f) := by
  obtain ⟨c, block, hblock, hsuffix, hterm⟩ := hp
  have hwf := hf.blocks c block hblock
  refine (show Yields _ (fun _ => True) _ from fun _ => trivial).bind fun _ _ => ?_
  cases hrest : p.rest with
  | nil =>
    obtain ⟨t, ht, hsucc, hused⟩ := hwf.ends
    simp only [hterm, ht]
    exact yields_leave hsucc hused
  | cons i rest =>
    rw [hrest] at hsuffix
    have hmem : i ∈ block.instructions.toList := hsuffix.subset List.mem_cons_self
    refine (yields_step (hwf.reads i hmem) ?_).bind fun _ _ => ?_
    · rintro dst symbol args rfl
      exact hserve.capability?_of_arity? (hwf.calls dst symbol args hmem)
    · exact yields_pure ⟨c, block, hblock, (List.suffix_cons i rest).trans hsuffix, hterm⟩

end Exec

/-! ## Whole runs -/

namespace Function.WellFormed

variable {f : Function} {m : Module} {symbols : Symbols} {start stop : Machine} {n : Nat}
  {fault : Fault}

theorem runFrom_unchecked (hf : f.WellFormed m) (hserve : symbols.Serve m) {p : Position}
    (hp : f.Within p) (h : f.runFrom symbols n p start = (.faulted fault, stop)) :
    fault.Unchecked f := by
  induction n generalizing p start with
  | zero => cases h
  | succ n ih =>
    have htick := Exec.yields_tick hf hserve hp
    rw [runFrom] at h
    split at h
    · rename_i q next hq
      exact ih (htick.of_ok hq) h
    · cases h
    · rename_i fault' last hfault
      cases h
      exact htick.of_error hfault

theorem runFor_unchecked (hf : f.WellFormed m) (hserve : symbols.Serve m)
    (h : f.runFor symbols n start = (.faulted fault, stop)) : fault.Unchecked f := by
  have henter := Exec.yields_enter hf.entry
  rw [runFor] at h
  split at h
  · rename_i p next hp
    exact hf.runFrom_unchecked hserve (henter.of_ok hp) h
  · rename_i fault' last hfault
    cases h
    exact henter.of_error hfault

end Function.WellFormed

/-- A run of any length reports a fault of its own or that its steps are used up. -/
theorem Executor.runFunction_unchecked {e : Executor} {f : Function} {m : Module}
    (hf : f.WellFormed m) (hserve : e.symbols.Serve m) {input : List UInt8} {fuel : Nat}
    {fault : Fault} (h : (e.runFunction f input fuel).1 = some (.error fault)) :
    fault.Unchecked f := by
  obtain ⟨status, stop, hrun⟩ : ∃ status stop,
      f.runFor e.symbols (e.stepLimit.getD fuel) { input } = (status, stop) := ⟨_, _, rfl⟩
  simp only [runFunction, hrun] at h
  cases status with
  | returned code => cases h
  | faulted fault' =>
    cases h
    exact hf.runFor_unchecked hserve hrun
  | running p =>
    cases hlimit : e.stepLimit with
    | none => rw [hlimit] at h; cases h
    | some limit => rw [hlimit] at h; cases h; trivial

/-- No run of a function of a checked module goes to a block that is not there or ends
in one without a terminator, calls a symbol that stands for nothing, or lacks an
argument; and a register that it reads too early is one that the function defines. -/
theorem Executor.runFunction_sound {e : Executor} {m : Module} (hvalid : m.check.valid = true)
    (hdistinct : e.symbols.Distinct) (hdeclared : m.declarations = e.symbols.declarations)
    {f : Function} (hf : f ∈ m.functions) {input : List UInt8} {fuel : Nat} {fault : Fault}
    (h : (e.runFunction f input fuel).1 = some (.error fault)) :
    (∀ id, fault ≠ .missingBlock id) ∧ (∀ label, fault ≠ .missingTerminator label) ∧
      (∀ symbol, fault ≠ .unknownSymbol symbol) ∧
      (∀ symbol index, fault ≠ .missingArgument symbol index) ∧
      ∀ r, fault = .unset r → ∃ i ∈ f.instructions, i.defined? = some r := by
  have hfault := runFunction_unchecked ((Module.check_valid_iff m).1 hvalid f hf)
    ⟨hdistinct, hdeclared⟩ h
  refine ⟨?_, ?_, ?_, ?_, ?_⟩
  · rintro id rfl
    exact hfault
  · rintro label rfl
    exact hfault
  · rintro symbol rfl
    exact hfault
  · rintro symbol index rfl
    exact hfault
  · rintro r rfl
    exact List.mem_filterMap.1 hfault

/-- A module with a function that loads through a register before it has an address. -/
def Module.early : Module :=
  ⟨"early", ({} : Symbols).declarations, [⟨"main", .void,
    #[⟨⟨0⟩, "entry", #[.load ⟨1⟩ .i8 ⟨0⟩, .alloca ⟨0⟩ .i8 1], some (.ret none)⟩], ⟨0⟩⟩]⟩

theorem Module.check_early : Module.early.check.valid = true := by
  rw [check_valid_iff]
  simp only [early, List.mem_singleton]
  rintro f rfl
  refine ⟨rfl, by decide, ?_⟩
  intro c block hblock
  obtain ⟨hlt, rfl⟩ := Array.getElem?_eq_some_iff.1 hblock
  obtain rfl : c = 0 := Nat.lt_one_iff.1 hlt
  exact ⟨rfl, by simp, by decide +revert, _, rfl, nofun, nofun⟩

/-- The first step of the function faults, because nothing has an address yet. -/
theorem Module.run_early : ((⟨{}, some 5, {}⟩ : Executor).runFunction
    (early.functions.get ⟨0, by decide⟩) [] 0).1 = some (.error (.unset ⟨0⟩)) := by
  have hget : Exec.get ⟨0⟩ ({ steps := 1 } : Machine) = .error (.unset ⟨0⟩) { steps := 1 } := by
    simp [Exec.get]
  have htick : ∀ (f : Function) (p : Position) (rest : List Instruction),
      p.rest = .load ⟨1⟩ .i8 ⟨0⟩ :: rest →
      Exec.tick {} f p {} = .error (.unset ⟨0⟩) { steps := 1 } := by
    intro f p rest hp
    refine (bind_of_ok rfl).trans ?_
    simp only [hp]
    exact bind_of_error (bind_of_error (bind_of_error hget))
  have hfor : (early.functions.get ⟨0, by decide⟩).runFor {} 5 {} =
      (.faulted (.unset ⟨0⟩), { steps := 1 }) := by
    show Function.runFrom _ {} 5 (Block.start _) {} = _
    rw [Function.runFrom, htick _ _ _ rfl]
  simp only [Executor.runFunction, Option.getD_some, hfor]

/-- The checker accepts a read that comes too early, and the run faults with it. -/
theorem Executor.runFunction_sound_early :
    Module.early.check.valid = true ∧ ({} : Symbols).Distinct ∧
      Module.early.declarations = ({} : Symbols).declarations ∧
      ∃ f ∈ Module.early.functions,
        ((⟨{}, some 5, {}⟩ : Executor).runFunction f [] 0).1 = some (.error (.unset ⟨0⟩)) ∧
        ∃ i ∈ f.instructions, i.defined? = some ⟨0⟩ := by
  have hdistinct : ({} : Symbols).Distinct := by decide
  have hmem : Module.early.functions.get ⟨0, by decide⟩ ∈ Module.early.functions :=
    List.get_mem _ _
  exact ⟨Module.check_early, hdistinct, rfl, _, hmem, Module.run_early,
    (runFunction_sound Module.check_early hdistinct rfl hmem Module.run_early).2.2.2.2 ⟨0⟩ rfl⟩

end TapeFlow
