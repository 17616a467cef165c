import TapeFlow.Machine.Run
import TapeFlow.Proofs.Computation
import TapeFlow.Proofs.Execution

/-!
# What an instruction comes to

An instruction looks up its operands and then does one thing.  Here the two are
taken apart, so that what an instruction does can be spoken of without saying
which instruction it is.

* `Span` — a run of bytes of one allocation, as a load, a store and a fill address
  it.
* `Action` — the one thing that is done; `Exec.perform` does it.
* `Exec.decode` — the operands of an instruction, looked up.
* `Exec.step_eq` — an instruction is decoded and then performed.
* `Machine.AgreeOn` — machines that differ at most in registers that are not listed.
* `Exec.Looks` — a computation that leaves the machine alone and goes by the listed
  registers only, with what it returns and how it can fault; `Exec.Looks.bind` puts two
  together.
* `Exec.looks_decode` — decoding goes by the registers that the instruction uses.
-/

namespace TapeFlow

/-- A run of bytes of one allocation. -/
structure Span where
  /-- The allocation. -/
  alloc : Nat
  /-- The offset of the first byte. -/
  offset : UInt64
  /-- The number of bytes. -/
  length : UInt64

/-- The bytes are all there.  The end is computed without wrapping. -/
def Span.Inside (span : Span) (memory : Memory) : Prop :=
  ∃ size, memory.size? span.alloc = some size ∧ span.offset.toNat + span.length.toNat ≤ size

/-- The byte at an index of an allocation is one of the span. -/
def Span.Covers (span : Span) (alloc index : Nat) : Prop :=
  span.alloc = alloc ∧ span.offset.toNat ≤ index ∧ index < span.offset.toNat + span.length.toNat

/-- What an instruction does once its operands are known. -/
inductive Action where
  /-- Give a register a value. -/
  | put (dst : Reg) (value : Value)
  /-- Make an allocation and give a register its address. -/
  | allocate (dst : Reg) (size : Nat)
  /-- Give a register the value of some bytes. -/
  | load (dst : Reg) (ty : Ty) (span : Span)
  /-- Replace some bytes. -/
  | overwrite (span : Span) (bytes : Nat → List UInt8)
  /-- Read a byte of input, and keep it if a register is given. -/
  | receive (dst : Option Reg)
  /-- Write a byte of output. -/
  | send (dst : Option Reg) (byte : UInt8)

namespace Action

/-- The bytes that are read or written. -/
def span? : Action → Option Span
  | load _ _ span | overwrite span _ => some span
  | _ => none

/-- The allocation that a value or a span belongs to. -/
def refersTo? : Action → Option Nat
  | put _ (.ptr alloc _) => some alloc
  | load _ _ span | overwrite span _ => some span.alloc
  | _ => none

end Action

namespace Exec

/-- Give a register a value, if there is one to keep it in. -/
def keep (dst : Option Reg) (value : Value) : Exec Unit :=
  match dst with
  | some r => set r value
  | none => pure ()

/-- Do what an instruction comes to. -/
def perform : Action → Exec Unit
  | .put dst value => set dst value
  | .allocate dst size => do
    let alloc ← allocate size
    set dst (.ptr alloc 0)
  | .load dst ty span => do
    let bytes ← read span.alloc span.offset span.length
    set dst (.int (ty.truncate (ofLittleEndian bytes)))
  | .overwrite span bytes => write span.alloc span.offset span.length bytes
  | .receive dst => do
    let byte ← readInput
    keep dst (.int byte.toUInt64)
  | .send dst byte => do
    writeOutput byte
    keep dst (.int 0)

/-- What a call of a capability comes to. -/
def decodeCall (c : Capability) (dst : Option Reg) (symbol : String) (args : List Reg) :
    Exec Action :=
  match c with
  | .readByte => return .receive dst
  | .writeByte => do
    let word ← int (← argument symbol args 0)
    return .send dst word.toUInt8
  | .fill => do
    let (alloc, offset) ← ptr (← argument symbol args 0)
    let word ← int (← argument symbol args 1)
    let length ← int (← argument symbol args 2)
    return .overwrite ⟨alloc, offset, length⟩ fun n => List.replicate n word.toUInt8

/-- Look up the operands of an instruction. -/
def decode (symbols : Symbols) : Instruction → Exec Action
  | .const dst ty value => return .put dst (.int (ty.truncate value.toUInt64))
  | .alloca dst ty count => do
    let size := ty.size.toNat * count.toNat
    if UInt64.size ≤ size then throw .sizeOverflow
    if addressSpace ≤ size then throw (.tooLarge size)
    return .allocate dst size
  | .load dst ty p => do
    let (alloc, offset) ← ptr p
    let size ← scalarSize ty
    return .load dst ty ⟨alloc, offset, size⟩
  | .store ty value p => do
    let word ← int value
    let (alloc, offset) ← ptr p
    let size ← scalarSize ty
    return .overwrite ⟨alloc, offset, size⟩ fun n => littleEndian n word
  | .gep dst ty base index => do
    let (alloc, offset) ← ptr base
    let i ← int index
    return .put dst (.ptr alloc (offset + i * ty.size))
  | .add dst ty lhs rhs => do
    let a ← int lhs
    let b ← int rhs
    return .put dst (.int (ty.truncate (a + b)))
  | .sub dst ty lhs rhs => do
    let a ← int lhs
    let b ← int rhs
    return .put dst (.int (ty.truncate (a - b)))
  | .icmpNe dst ty lhs rhs => do
    let a ← int lhs
    let b ← int rhs
    return .put dst (.int (if ty.truncate a = ty.truncate b then 0 else 1))
  | .call dst symbol args =>
    match symbols.capability? symbol with
    | none => throw (.unknownSymbol symbol)
    | some c => decodeCall c dst symbol args

/-- A call is decoded and then performed. -/
theorem invoke_eq (c : Capability) (dst : Option Reg) (symbol : String) (args : List Reg) :
    (do match dst, ← invoke c symbol args with
      | some r, some v => set r v
      | _, _ => return ()) = decodeCall c dst symbol args >>= perform := by
  cases c with
  | readByte => cases dst <;> simp [invoke, decodeCall, perform, keep]
  | writeByte => cases dst <;> simp [invoke, decodeCall, perform, keep]
  | fill => cases dst <;> simp [invoke, decodeCall, perform]

/-- An instruction is decoded and then performed. -/
theorem step_eq (symbols : Symbols) (i : Instruction) :
    step symbols i = decode symbols i >>= perform := by
  cases i with
  | call dst symbol args =>
    rw [step, decode]
    cases symbols.capability? symbol with
    | none => rfl
    | some c => exact invoke_eq c dst symbol args
  | alloca dst ty count =>
    simp only [step, decode]
    split
    · rfl
    split
    · rfl
    · simp [perform]
  | _ => simp [step, decode, perform]

end Exec

/-! ## Where actions come from -/

namespace Instruction

/-- The capability that an instruction calls. -/
def capability? (symbols : Symbols) : Instruction → Option Capability
  | call _ symbol _ => symbols.capability? symbol
  | _ => none

/-- The instruction goes to memory: it loads, stores or fills. -/
def isAccess (symbols : Symbols) (i : Instruction) : Bool :=
  match i with
  | load .. | store .. => true
  | _ => i.capability? symbols == some .fill

/-- A call that does not fill does not go to memory. -/
theorem isAccess_of_capability? {symbols : Symbols} {i : Instruction} {c : Capability}
    (h : i.capability? symbols = some c) (hc : c ≠ .fill) : i.isAccess symbols = false := by
  cases i with
  | call dst symbol args =>
    show (symbols.capability? symbol == some .fill) = false
    rw [show symbols.capability? symbol = some c from h]
    exact beq_false_of_ne fun he => hc (Option.some.inj he)
  | _ => cases h

/-- The instruction is to store to these bytes, or to fill them. -/
inductive Targets (symbols : Symbols) (m : Machine) : Instruction → Span → Prop where
  /-- A store goes to as many bytes as its type has. -/
  | store {ty : Ty} {value p : Reg} {alloc : Nat} {offset size : UInt64}
    (address : m.regs[p]? = some (.ptr alloc offset)) (scalar : ty.scalarSize? = some size) :
    Targets symbols m (.store ty value p) ⟨alloc, offset, size⟩
  /-- A fill is given the address first and the length last. -/
  | fill {dst : Option Reg} {symbol : String} {args : List Reg} {p r : Reg} {alloc : Nat}
    {offset length : UInt64} (fills : symbols.capability? symbol = some .fill)
    (first : args[0]? = some p) (address : m.regs[p]? = some (.ptr alloc offset))
    (third : args[2]? = some r) (extent : m.regs[r]? = some (.int length)) :
    Targets symbols m (.call dst symbol args) ⟨alloc, offset, length⟩

/-- What the instruction is to leave where it goes to, by the number of bytes there. -/
inductive Supplies (m : Machine) : Instruction → (Nat → List UInt8) → Prop where
  /-- A store leaves the low bytes of its word. -/
  | word {ty : Ty} {value p : Reg} {word : UInt64} (operand : m.regs[value]? = some (.int word)) :
    Supplies m (.store ty value p) fun n => littleEndian n word
  /-- A fill leaves one byte over and over, which it is given second. -/
  | byte {dst : Option Reg} {symbol : String} {args : List Reg} {q : Reg} {word : UInt64}
    (second : args[1]? = some q) (operand : m.regs[q]? = some (.int word)) :
    Supplies m (.call dst symbol args) fun n => List.replicate n word.toUInt8

theorem Supplies.length_eq {m : Machine} {i : Instruction} {bytes : Nat → List UInt8}
    (h : i.Supplies m bytes) (n : Nat) : (bytes n).length = n := by
  cases h with
  | word operand => exact length_littleEndian n _
  | byte second operand => exact List.length_replicate

end Instruction

/-- The action is one that the instruction can come to. -/
def Action.ComesFrom (symbols : Symbols) (m : Machine) (i : Instruction) : Action → Prop
  | put dst _ => i.defined? = some dst ∧ i.capability? symbols = none ∧ i.isAccess symbols = false
  | allocate dst size => ∃ ty count, i = .alloca dst ty count ∧ size = ty.size.toNat * count.toNat
  | load dst ty span => ∃ p, i = .load dst ty p ∧
    m.regs[p]? = some (.ptr span.alloc span.offset) ∧ ty.scalarSize? = some span.length
  | overwrite span bytes => i.Targets symbols m span ∧ i.Supplies m bytes
  | receive dst => i.defined? = dst ∧ i.capability? symbols = some .readByte
  | send dst _ => i.defined? = dst ∧ i.capability? symbols = some .writeByte

/-! ## Looking without touching -/

/-- The second machine differs from the first at most in its count of steps and in
registers that are not listed. -/
structure Machine.AgreeOn (rs : List Reg) (m n : Machine) : Prop where
  /-- The listed registers have the same values, or none. -/
  regs : ∀ r ∈ rs, n.regs[r]? = m.regs[r]?
  /-- The memory is the same. -/
  memory : n.memory = m.memory
  /-- The input to be read is the same. -/
  input : n.input = m.input
  /-- The output written is the same. -/
  output : n.output = m.output

theorem Machine.AgreeOn.refl (rs : List Reg) (m : Machine) : m.AgreeOn rs m :=
  ⟨fun _ _ => rfl, rfl, rfl, rfl⟩

/-- The fault is about an access to memory. -/
def Fault.isAccess : Fault → Bool
  | dangling _ | outOfRange .. => true
  | _ => false

namespace Exec

variable {α β : Type} {m : Machine} {rs : List Reg}

/-- On all machines that agree with this one on some registers, the computation changes
nothing and ends in the same way: it returns something `good`, or it faults without having
accessed memory. -/
def Looks (rs : List Reg) (m : Machine) (x : Exec α) (good : α → Prop) : Prop :=
  (∃ a, good a ∧ ∀ n, m.AgreeOn rs n → x n = .ok a n) ∨
    ∃ fault : Fault, fault.isAccess = false ∧ ∀ n, m.AgreeOn rs n → x n = .error fault n

/-- What this says of the machine itself. -/
theorem Looks.here {x : Exec α} {good : α → Prop} (h : Looks rs m x good) :
    (∃ a, x m = .ok a m ∧ good a) ∨ ∃ fault, x m = .error fault m ∧ fault.isAccess = false := by
  rcases h with ⟨a, ha, hx⟩ | ⟨fault, hfault, hx⟩
  · exact .inl ⟨a, hx m (.refl rs m), ha⟩
  · exact .inr ⟨fault, hx m (.refl rs m), hfault⟩

theorem looks_pure {a : α} {good : α → Prop} (h : good a) : Looks rs m (pure a) good :=
  .inl ⟨a, h, fun _ _ => rfl⟩

theorem looks_throw {fault : Fault} (h : fault.isAccess = false) {good : α → Prop} :
    Looks rs m (throw fault) good :=
  .inr ⟨fault, h, fun _ _ => rfl⟩

theorem looks_throw_bind {fault : Fault} (h : fault.isAccess = false) (next : α → Exec β)
    {good : β → Prop} : Looks rs m (throw fault >>= next) good :=
  .inr ⟨fault, h, fun _ _ => rfl⟩

theorem Looks.bind {x : Exec α} {next : α → Exec β} {good : α → Prop} {good' : β → Prop}
    (h : Looks rs m x good) (hnext : ∀ a, good a → Looks rs m (next a) good') :
    Looks rs m (x >>= next) good' := by
  rcases h with ⟨a, ha, hx⟩ | ⟨fault, hfault, hx⟩
  · rcases hnext a ha with ⟨b, hb, hrest⟩ | ⟨fault, hfault, hrest⟩
    · exact .inl ⟨b, hb, fun n hn => (bind_of_ok (hx n hn)).trans (hrest n hn)⟩
    · exact .inr ⟨fault, hfault, fun n hn => (bind_of_ok (hx n hn)).trans (hrest n hn)⟩
  · exact .inr ⟨fault, hfault, fun n hn => bind_of_error (hx n hn)⟩

theorem Looks.map {x : Exec α} {good : α → Prop} {good' : β → Prop} (h : Looks rs m x good)
    {g : α → β} (hg : ∀ a, good a → good' (g a)) : Looks rs m (g <$> x) good' := by
  rcases h with ⟨a, ha, hx⟩ | ⟨fault, hfault, hx⟩
  · exact .inl ⟨g a, hg a ha, fun n hn => map_of_ok g (hx n hn)⟩
  · exact .inr ⟨fault, hfault, fun n hn => map_of_error g (hx n hn)⟩

variable {r : Reg}

theorem looks_get (h : r ∈ rs) : Looks rs m (get r) fun v => m.regs[r]? = some v := by
  cases hr : m.regs[r]? with
  | some v => exact .inl ⟨v, rfl, fun n hn => by rw [get, hn.regs r h, hr]⟩
  | none => exact .inr ⟨.unset r, rfl, fun n hn => by rw [get, hn.regs r h, hr]⟩

theorem looks_int (h : r ∈ rs) : Looks rs m (int r) fun word => m.regs[r]? = some (.int word) := by
  refine (looks_get h).bind fun v hv => ?_
  cases v with
  | int word => exact looks_pure hv
  | ptr alloc offset => exact looks_throw rfl

theorem looks_ptr (h : r ∈ rs) :
    Looks rs m (ptr r) fun address => m.regs[r]? = some (.ptr address.1 address.2) := by
  refine (looks_get h).bind fun v hv => ?_
  cases v with
  | int word => exact looks_throw rfl
  | ptr alloc offset => exact looks_pure hv

theorem looks_scalarSize (ty : Ty) :
    Looks rs m (scalarSize ty) fun size => ty.scalarSize? = some size := by
  rw [scalarSize]
  cases ty.scalarSize? with
  | some size => exact looks_pure rfl
  | none => exact looks_throw rfl

theorem looks_argument (symbol : String) (args : List Reg) (index : Nat) :
    Looks rs m (argument symbol args index) fun r => args[index]? = some r := by
  rw [argument]
  cases args[index]? with
  | some r => exact looks_pure rfl
  | none => exact looks_throw rfl

/-- What is known of an action that an instruction was decoded to. -/
structure Decoded (symbols : Symbols) (m : Machine) (i : Instruction) (action : Action) :
    Prop where
  /-- It refers to an allocation only if a register does. -/
  pointer : ∀ alloc, action.refersTo? = some alloc →
    ∃ (r : Reg) (offset : UInt64), m.regs[r]? = some (.ptr alloc offset)
  /-- It is one that the instruction can come to. -/
  origin : action.ComesFrom symbols m i

variable {symbols : Symbols} {i : Instruction}

/-- An action that refers to no allocation. -/
theorem decoded_of_none {action : Action} (h : action.refersTo? = none)
    (horigin : action.ComesFrom symbols m i) : Decoded symbols m i action := by
  refine ⟨fun alloc ha => ?_, horigin⟩
  rw [h] at ha
  cases ha

/-- An action that refers to what a register points to. -/
theorem decoded_of_some {action : Action} {alloc : Nat} {offset : UInt64}
    (hr : m.regs[r]? = some (.ptr alloc offset)) (h : action.refersTo? = some alloc)
    (horigin : action.ComesFrom symbols m i) : Decoded symbols m i action := by
  refine ⟨fun alloc' ha => ?_, horigin⟩
  cases h.symm.trans ha
  exact ⟨r, offset, hr⟩

theorem looks_decodeCall {c : Capability} (dst : Option Reg) {symbol : String} (args : List Reg)
    (hc : symbols.capability? symbol = some c) :
    Looks args m (decodeCall c dst symbol args) (Decoded symbols m (.call dst symbol args)) := by
  cases c with
  | readByte => exact looks_pure (decoded_of_none rfl ⟨rfl, hc⟩)
  | writeByte =>
    refine (looks_argument symbol args 0).bind fun r hr => ?_
    refine (looks_int (List.mem_of_getElem? hr)).bind fun _ _ => ?_
    exact looks_pure (decoded_of_none rfl ⟨rfl, hc⟩)
  | fill =>
    refine (looks_argument symbol args 0).bind fun p hp => ?_
    refine (looks_ptr (List.mem_of_getElem? hp)).bind fun ⟨alloc, offset⟩ haddress => ?_
    refine (looks_argument symbol args 1).bind fun q hq => ?_
    refine (looks_int (List.mem_of_getElem? hq)).bind fun word hword => ?_
    refine (looks_argument symbol args 2).bind fun r hr => ?_
    refine (looks_int (List.mem_of_getElem? hr)).bind fun length hlength => looks_pure ?_
    exact decoded_of_some haddress rfl ⟨.fill hc hp haddress hr hlength, .byte hq hword⟩

/-- Decoding leaves the machine alone, and goes by the registers that the instruction
uses. -/
theorem looks_decode (symbols : Symbols) (i : Instruction) :
    Looks i.used m (decode symbols i) (Decoded symbols m i) := by
  have hfirst : ∀ {r : Reg} {rest : List Reg}, r ∈ r :: rest := List.mem_cons_self
  have hsecond : ∀ {q r : Reg} {rest : List Reg}, r ∈ q :: r :: rest :=
    List.mem_cons_of_mem _ List.mem_cons_self
  cases i with
  | const dst ty value => exact looks_pure (decoded_of_none rfl ⟨rfl, rfl, rfl⟩)
  | alloca dst ty count =>
    simp only [decode]
    split
    · exact looks_throw_bind rfl _
    split
    · exact looks_throw_bind rfl _
    · exact looks_pure (decoded_of_none rfl ⟨ty, count, rfl, rfl⟩)
  | load dst ty p =>
    refine (looks_ptr hfirst).bind fun ⟨alloc, offset⟩ hp => ?_
    refine (looks_scalarSize ty).bind fun size hsize => looks_pure ?_
    exact decoded_of_some hp rfl ⟨p, rfl, hp, hsize⟩
  | store ty value p =>
    refine (looks_int hfirst).bind fun word hword => ?_
    refine (looks_ptr hsecond).bind fun ⟨alloc, offset⟩ hp => ?_
    refine (looks_scalarSize ty).bind fun size hsize => looks_pure ?_
    exact decoded_of_some hp rfl ⟨.store hp hsize, .word hword⟩
  | gep dst ty base index =>
    refine (looks_ptr hfirst).bind fun ⟨alloc, offset⟩ hp => ?_
    exact (looks_int hsecond).bind fun _ _ => looks_pure (decoded_of_some hp rfl ⟨rfl, rfl, rfl⟩)
  | add dst ty lhs rhs | sub dst ty lhs rhs | icmpNe dst ty lhs rhs =>
    refine (looks_int hfirst).bind fun a _ => ?_
    exact (looks_int hsecond).bind fun b _ => looks_pure (decoded_of_none rfl ⟨rfl, rfl, rfl⟩)
  | call dst symbol args =>
    rw [decode]
    cases hc : symbols.capability? symbol with
    | none => exact looks_throw rfl
    | some c => exact looks_decodeCall dst args hc

/-- Leaving a block leaves the machine alone, and goes by the registers that the terminator
uses. -/
theorem looks_leave (f : Function) (t : Terminator) :
    Looks t.used m (leave f t) fun _ => True := by
  have henter : ∀ {rs : List Reg} (id : BlockId), Looks rs m (enter f id) fun _ => True := by
    intro rs id
    rw [enter]
    cases f.block? id with
    | some b => exact looks_pure trivial
    | none => exact looks_throw rfl
  cases t with
  | br target => exact (henter target).map fun _ _ => trivial
  | condBr cond thenBlock elseBlock =>
    refine (looks_int List.mem_cons_self).bind fun word _ => ?_
    exact (henter _).map fun _ _ => trivial
  | ret value =>
    cases value with
    | none => exact looks_pure trivial
    | some r => exact (looks_int List.mem_cons_self).map fun _ _ => trivial

end Exec

end TapeFlow
