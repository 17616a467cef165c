import TapeFlow.Proofs.Execution
import TapeFlow.Proofs.Interpreter
import TapeFlow.Proofs.Lowering
import TapeFlow.Proofs.Symbols

/-!
# The code of a command does what the command asks for

A machine holds a tape if its first allocation has the bytes of the cells, its
second the bytes of the data pointer, and the first two registers the addresses
of both.  The code of a command takes a machine that holds one tape to a machine
that holds the next, and faults exactly where the command finds no cell.

* `Machine.Holds` — the machine holds the tape.
* `Machine.holds_setUp` — the code at the start makes a tape of zero cells.
* `Machine.Holds.code_of_some`, `Machine.Holds.code_of_none` — the code of a
  command, when there is a cell for it and when there is none.
-/

namespace TapeFlow

/-- A tape as it lies in memory: the cells, and the bytes of the pointer. -/
def Tape.allocations (t : Tape) : Array Allocation :=
  #[t.cells, (littleEndian 8 t.pointer).toArray]

/-- The machine holds the tape. -/
structure Machine.Holds (m : Machine) (t : Tape) : Prop where
  /-- The first register has the address of the cells. -/
  tape : m.regs[Reg.ofNat 0]? = some (.ptr 0 0)
  /-- The second register has the address of the pointer. -/
  slot : m.regs[Reg.ofNat 1]? = some (.ptr 1 0)
  /-- Memory has the tape and nothing else. -/
  memory : m.memory.allocations = t.allocations
  /-- The input to be read is the same. -/
  input : m.input = t.input
  /-- The output written is the same. -/
  output : m.output = t.output

theorem Machine.regs_set_ofNat_of_ne (m : Machine) (v : Value) {p q : Nat} (hp : p < 2 ^ 32)
    (hq : q < 2 ^ 32) (hne : p ≠ q) :
    (m.set (.ofNat p) v).regs[Reg.ofNat q]? = m.regs[Reg.ofNat q]? :=
  m.regs_set_of_ne _ v fun heq => hne ((Reg.ofNat_inj hp hq).1 heq)

theorem Command.three_le_regs (c : Command) : 3 ≤ c.regs := by cases c <;> decide

theorem Ty.scalarSize?_i8 : i8.scalarSize? = some 1 := rfl

theorem Ty.scalarSize?_i64 : i64.scalarSize? = some 8 := rfl

namespace Machine.Holds

variable {m : Machine} {t : Tape} {q : Nat}

theorem tick (h : m.Holds t) : m.tick.Holds t := ⟨h.tape, h.slot, h.memory, h.input, h.output⟩

/-- Registers from the third on have no part in the tape. -/
theorem set (h : m.Holds t) (hq : 2 ≤ q) (hlt : q < 2 ^ 32) (v : Value) :
    (m.set (.ofNat q) v).Holds t := by
  refine ⟨?_, ?_, h.memory, h.input, h.output⟩
  · rw [regs_set_ofNat_of_ne m v hlt (by omega) (by omega), h.tape]
  · rw [regs_set_ofNat_of_ne m v hlt (by omega) (by omega), h.slot]

theorem cells? (h : m.Holds t) : m.memory.allocations[0]? = some t.cells := by
  simp [h.memory, Tape.allocations]

theorem pointer? (h : m.Holds t) :
    m.memory.allocations[1]? = some (littleEndian 8 t.pointer).toArray := by
  simp [h.memory, Tape.allocations]

/-- Writing over the pointer. -/
theorem writePointer (h : m.Holds t) (pointer : UInt64) :
    ({ m with memory := m.memory.write 1 0 (littleEndian 8 pointer) } : Machine).Holds
      { t with pointer } := by
  refine ⟨h.tape, h.slot, ?_, h.input, h.output⟩
  have hwrite : Allocation.write (littleEndian 8 t.pointer).toArray 0 (littleEndian 8 pointer) =
      (littleEndian 8 pointer).toArray := Allocation.write_all _ (by simp)
  simp [Memory.write, h.memory, Tape.allocations, hwrite]

/-- Writing the low byte of a word over the cell under the pointer. -/
theorem writeCell (h : m.Holds t) (word : UInt64) :
    ({ m with memory := m.memory.write 0 t.pointer.toNat (littleEndian 1 word) } : Machine).Holds
      (t.setCell word.toUInt8) := by
  refine ⟨h.tape, h.slot, ?_, h.input, h.output⟩
  simp [Memory.write, h.memory, Tape.allocations, Tape.setCell, littleEndian, Allocation.write]

/-- An instruction that only defines a register past the first two keeps the
tape, and all registers before that one. -/
theorem define (h : m.Holds t) {symbols : Symbols} {i : Instruction} {v : Value} (hq : 2 ≤ q)
    (hlt : q < 2 ^ 32) (hi : Exec.step symbols i m.tick = .ok () (m.tick.set (.ofNat q) v)) :
    ∃ m', (∀ rest, Exec.code symbols (i :: rest) m = Exec.code symbols rest m') ∧ m'.Holds t ∧
      m'.regs[Reg.ofNat q]? = some v ∧ ∀ p < q, m'.regs[Reg.ofNat p]? = m.regs[Reg.ofNat p]? :=
  ⟨_, fun _ => Exec.code_cons hi, h.tick.set hq hlt v, regs_set_self .., fun p hp => by
    rw [regs_set_ofNat_of_ne _ _ hlt (by omega) (by omega), regs_tick]⟩

/-! ## Reaching the cell -/

section Code

variable (options : Options) (symbols : Symbols) {r : Nat}

/-- The data pointer is loaded as it is. -/
theorem step_loadPointer (h : m.Holds t) (dst : Reg) :
    Exec.step symbols (.load dst .i64 (tapeLayout options).slot) m =
      .ok () (m.set dst (.int t.pointer)) := by
  have hread := Allocation.read_all (littleEndian 8 t.pointer)
  rw [length_littleEndian] at hread
  have hload := Exec.step_load symbols dst Ty.scalarSize?_i64 h.slot h.pointer? (by simp)
  rw [show (0 : UInt64).toNat = 0 from rfl, show (8 : UInt64).toNat = 8 from rfl, hread,
    ofLittleEndian_littleEndian] at hload
  exact hload

/-- The first two registers of every access: the pointer, and the address of the
cell under it. -/
theorem code_address (h : m.Holds t) (hr : 2 ≤ r) (hlt : r + 2 ≤ 2 ^ 32) :
    ∃ m', (∀ rest, Exec.code symbols ((tapeLayout options).addressCode r ++ rest) m =
        Exec.code symbols rest m') ∧ m'.Holds t ∧
      m'.regs[Reg.ofNat (r + 1)]? = some (.ptr 0 t.pointer) ∧
      ∀ p < r, m'.regs[Reg.ofNat p]? = m.regs[Reg.ofNat p]? := by
  obtain ⟨m₁, e₁, h₁, v₁, f₁⟩ :=
    h.define hr (by omega) (h.tick.step_loadPointer options symbols _)
  obtain ⟨m₂, e₂, h₂, v₂, f₂⟩ :=
    h₁.define (q := r + 1) (by omega) (by omega) (Exec.step_gep symbols _ h₁.tick.tape v₁)
  refine ⟨m₂, fun rest => (e₁ _).trans (e₂ rest), h₂, ?_, fun p hp => ?_⟩
  · simpa [Ty.size] using v₂
  · rw [f₂ p (by omega), f₁ p hp]

/-- The address and the value of the cell. -/
theorem code_cell (h : m.Holds t) {b : UInt8} (hb : t.cell? = some b) (hr : 2 ≤ r)
    (hlt : r + 3 ≤ 2 ^ 32) :
    ∃ m', (∀ rest, Exec.code symbols ((tapeLayout options).cellCode r ++ rest) m =
        Exec.code symbols rest m') ∧ m'.Holds t ∧
      m'.regs[Reg.ofNat (r + 1)]? = some (.ptr 0 t.pointer) ∧
      m'.regs[Reg.ofNat (r + 2)]? = some (.int b.toUInt64) := by
  obtain ⟨m₁, e₁, h₁, v₁, -⟩ := h.code_address options symbols hr (by omega)
  have hbound : t.pointer.toNat + 1 ≤ t.cells.size := (Array.getElem?_eq_some_iff.1 hb).1
  have hload := Exec.step_load (m := m₁.tick) symbols (.ofNat (r + 2)) Ty.scalarSize?_i8 v₁
    h₁.cells? hbound
  rw [show (1 : UInt64).toNat = 1 from rfl, Allocation.read_singleton hb, ofLittleEndian_singleton,
    truncate_i8_toUInt64] at hload
  obtain ⟨m₂, e₂, h₂, v₂, f₂⟩ := h₁.define (by omega) (by omega) hload
  refine ⟨m₂, fun rest => ?_, h₂, (f₂ _ (by omega)).trans v₁, v₂⟩
  rw [TapeLayout.cellCode, List.append_assoc, e₁]
  exact e₂ rest

/-- Where there is no cell, the access to it faults. -/
theorem code_cell_error (h : m.Holds t) (hb : t.cell? = none) (hr : 2 ≤ r)
    (hlt : r + 3 ≤ 2 ^ 32) (rest : List Instruction) :
    ∃ m', Exec.code symbols ((tapeLayout options).cellCode r ++ rest) m =
      .error (.outOfRange 1 t.pointer.toNat 0 t.cells.size) m' ∧
      m'.memory.allocations = t.allocations := by
  obtain ⟨m₁, e₁, h₁, v₁, -⟩ := h.code_address options symbols hr (by omega)
  have hbound : t.cells.size < t.pointer.toNat + 1 :=
    Nat.lt_succ_of_le (Array.getElem?_eq_none_iff.1 hb)
  have hload := Exec.step_load_outOfRange (m := m₁.tick) symbols (.ofNat (r + 2))
    Ty.scalarSize?_i8 v₁ h₁.cells? hbound
  refine ⟨m₁.tick, ?_, h₁.memory⟩
  rw [TapeLayout.cellCode, List.append_assoc, e₁]
  exact Exec.code_cons_error hload

/-! ## The commands -/

variable {symbols}

theorem code_move (h : m.Holds t) {op : Reg → Ty → Reg → Reg → Instruction}
    {g : UInt64 → UInt64 → UInt64} (hop : Exec.Computes symbols op g) (hr : 2 ≤ r)
    (hlt : r + 3 ≤ 2 ^ 32) :
    ∃ m', Exec.code symbols ((tapeLayout options).moveCode op r) m = .ok () m' ∧
      m'.Holds { t with pointer := g t.pointer 1 } := by
  have hone : Ty.i64.truncate (1 : Int64).toUInt64 = 1 := rfl
  obtain ⟨m₁, e₁, h₁, v₁, -⟩ :=
    h.define hr (by omega) (h.tick.step_loadPointer options symbols _)
  obtain ⟨m₂, e₂, h₂, v₂, f₂⟩ :=
    h₁.define (q := r + 1) (by omega) (by omega) (Exec.step_const symbols _ hone)
  have hmove : Exec.step symbols (op (.ofNat (r + 2)) .i64 (.ofNat r) (.ofNat (r + 1))) m₂.tick = _ :=
    hop ((f₂ r (by omega)).trans v₁) v₂
  obtain ⟨m₃, e₃, h₃, v₃, -⟩ := h₂.define (by omega) (by omega) hmove
  have hstore := Exec.step_store (m := m₃.tick) symbols Ty.scalarSize?_i64 v₃ h₃.slot h₃.pointer?
    (by simp)
  exact ⟨_, (e₁ _).trans ((e₂ _).trans ((e₃ _).trans (Exec.code_cons hstore))),
    h₃.tick.writePointer _⟩

theorem code_change (h : m.Holds t) {op : Reg → Ty → Reg → Reg → Instruction}
    {g : UInt64 → UInt64 → UInt64} (hop : Exec.Computes symbols op g) {b : UInt8}
    (hb : t.cell? = some b) (hr : 2 ≤ r) (hlt : r + 5 ≤ 2 ^ 32) :
    ∃ m', Exec.code symbols ((tapeLayout options).changeCode op r) m = .ok () m' ∧
      m'.Holds (t.setCell (g b.toUInt64 1).toUInt8) := by
  have hone : Ty.i8.truncate (1 : Int64).toUInt64 = 1 := rfl
  obtain ⟨m₁, e₁, h₁, a₁, v₁⟩ := h.code_cell options symbols hb hr (by omega)
  obtain ⟨m₂, e₂, h₂, v₂, f₂⟩ :=
    h₁.define (q := r + 3) (by omega) (by omega) (Exec.step_const symbols _ hone)
  have hchange : Exec.step symbols (op (.ofNat (r + 4)) .i8 (.ofNat (r + 2)) (.ofNat (r + 3)))
      m₂.tick = _ := hop ((f₂ (r + 2) (by omega)).trans v₁) v₂
  obtain ⟨m₃, e₃, h₃, v₃, f₃⟩ := h₂.define (by omega) (by omega) hchange
  have a₃ : m₃.regs[Reg.ofNat (r + 1)]? = some (.ptr 0 t.pointer) := by
    rw [f₃ _ (by omega), f₂ _ (by omega), a₁]
  have hbound : t.pointer.toNat + 1 ≤ t.cells.size := (Array.getElem?_eq_some_iff.1 hb).1
  have hstore := Exec.step_store (m := m₃.tick) symbols Ty.scalarSize?_i8 v₃ a₃ h₃.cells? hbound
  refine ⟨_, (e₁ _).trans ((e₂ _).trans ((e₃ _).trans (Exec.code_cons hstore))), ?_⟩
  have h₄ := h₃.tick.writeCell (Ty.i8.truncate (g b.toUInt64 1))
  rw [toUInt8_truncate_i8] at h₄
  exact h₄

theorem code_write (h : m.Holds t) (hs : symbols.capability? symbols.writeByte = some .writeByte)
    {b : UInt8} (hb : t.cell? = some b) (hr : 2 ≤ r) (hlt : r + 4 ≤ 2 ^ 32) :
    ∃ m', Exec.code symbols ((tapeLayout options).writeCode symbols r) m = .ok () m' ∧
      m'.Holds { t with output := t.output.push b } := by
  obtain ⟨m₁, e₁, h₁, -, v₁⟩ := h.code_cell options symbols hb hr (by omega)
  have hcall : Exec.step symbols (.call (some (.ofNat (r + 3))) symbols.writeByte [.ofNat (r + 2)])
      m₁.tick = _ := Exec.step_call_writeByte hs v₁
  have h₂ : ({ m₁.tick with output := m₁.output.push b.toUInt64.toUInt8 } : Machine).Holds
      { t with output := t.output.push b } :=
    ⟨h₁.tape, h₁.slot, h₁.memory, h₁.input, by simp [h₁.output]⟩
  exact ⟨_, (e₁ _).trans (Exec.code_cons hcall), h₂.set (by omega) (by omega) _⟩

/-- Reading takes the byte first; then the address is computed. -/
theorem code_readAddress (h : m.Holds t)
    (hs : symbols.capability? symbols.readByte = some .readByte) (hr : 2 ≤ r)
    (hlt : r + 3 ≤ 2 ^ 32) :
    ∃ m', (Exec.code symbols ((tapeLayout options).readCode symbols r) m =
        Exec.code symbols [.store .i8 (.ofNat r) (.ofNat (r + 2))] m') ∧
      m'.Holds { t with input := t.input.tail } ∧
      m'.regs[Reg.ofNat r]? = some (.int (t.input.headD 0).toUInt64) ∧
      m'.regs[Reg.ofNat (r + 2)]? = some (.ptr 0 t.pointer) := by
  have hcall : Exec.step symbols (.call (some (.ofNat r)) symbols.readByte []) m.tick = _ :=
    Exec.step_call_readByte hs
  rw [input_tick, h.input] at hcall
  have h₁ : ({ m.tick with input := t.input.tail } : Machine).Holds { t with input := t.input.tail } :=
    ⟨h.tape, h.slot, h.memory, rfl, h.output⟩
  obtain ⟨m₂, e₂, h₂, v₂, f₂⟩ := (h₁.set hr (by omega) (.int (t.input.headD 0).toUInt64)).code_address
    options symbols (r := r + 1) (by omega) (by omega)
  refine ⟨m₂, (Exec.code_cons hcall).trans (e₂ _), h₂, ?_, v₂⟩
  rw [f₂ r (by omega), regs_set_self]

theorem code_read (h : m.Holds t) (hs : symbols.capability? symbols.readByte = some .readByte)
    {b : UInt8} (hb : t.cell? = some b) (hr : 2 ≤ r) (hlt : r + 3 ≤ 2 ^ 32) :
    ∃ m', Exec.code symbols ((tapeLayout options).readCode symbols r) m = .ok () m' ∧
      m'.Holds { t.setCell (t.input.headD 0) with input := t.input.tail } := by
  obtain ⟨m₁, e₁, h₁, v₁, a₁⟩ := h.code_readAddress options hs hr hlt
  have hbound : t.pointer.toNat + 1 ≤ t.cells.size := (Array.getElem?_eq_some_iff.1 hb).1
  have hstore := Exec.step_store (m := m₁.tick) symbols Ty.scalarSize?_i8 v₁ a₁ h₁.cells? hbound
  refine ⟨_, e₁.trans (Exec.code_cons hstore), ?_⟩
  have h₂ := h₁.tick.writeCell (t.input.headD 0).toUInt64
  rw [UInt8.toUInt8_toUInt64] at h₂
  exact h₂

theorem code_read_error (h : m.Holds t)
    (hs : symbols.capability? symbols.readByte = some .readByte) (hb : t.cell? = none) (hr : 2 ≤ r)
    (hlt : r + 3 ≤ 2 ^ 32) :
    ∃ m', Exec.code symbols ((tapeLayout options).readCode symbols r) m =
      .error (.outOfRange 1 t.pointer.toNat 0 t.cells.size) m' ∧
      m'.memory.allocations = t.allocations := by
  obtain ⟨m₁, e₁, h₁, v₁, a₁⟩ := h.code_readAddress options hs hr hlt
  have hbound : t.cells.size < t.pointer.toNat + 1 :=
    Nat.lt_succ_of_le (Array.getElem?_eq_none_iff.1 hb)
  have hstore := Exec.step_store_outOfRange (m := m₁.tick) symbols Ty.scalarSize?_i8 v₁ a₁ h₁.cells?
    hbound
  exact ⟨_, e₁.trans (Exec.code_cons_error hstore), h₁.memory⟩

theorem code_test (h : m.Holds t) {b : UInt8} (hb : t.cell? = some b) (hr : 2 ≤ r)
    (hlt : r + 5 ≤ 2 ^ 32) :
    ∃ m', Exec.code symbols ((tapeLayout options).testCode r) m = .ok () m' ∧ m'.Holds t ∧
      m'.regs[Reg.ofNat (r + 4)]? = some (.int (if b = 0 then 0 else 1)) := by
  have hzero : Ty.i8.truncate (0 : Int64).toUInt64 = 0 := rfl
  obtain ⟨m₁, e₁, h₁, -, v₁⟩ := h.code_cell options symbols hb hr (by omega)
  obtain ⟨m₂, e₂, h₂, v₂, f₂⟩ :=
    h₁.define (q := r + 3) (by omega) (by omega) (Exec.step_const symbols _ hzero)
  have htest : Exec.step symbols (.icmpNe (.ofNat (r + 4)) .i8 (.ofNat (r + 2)) (.ofNat (r + 3)))
      m₂.tick = _ := Exec.step_icmpNe symbols _ ((f₂ (r + 2) (by omega)).trans v₁) v₂
  obtain ⟨m₃, e₃, h₃, v₃, -⟩ := h₂.define (by omega) (by omega) htest
  refine ⟨m₃, (e₁ _).trans ((e₂ _).trans (e₃ _)), h₃, ?_⟩
  simpa [← toUInt64_eq_zero_iff b, show Ty.i8.truncate 0 = 0 from rfl] using v₃

/-- The code of a command that is not refused a cell.  After the code of a
bracket, the last register says whether the cell is not zero. -/
theorem code_of_some (h : m.Holds t) (hs : symbols.Distinct) {c : Command} {u : Tape}
    (hu : t.perform? c = some u) (hr : 2 ≤ r) (hlt : r + c.regs ≤ 2 ^ 32) :
    ∃ m', Exec.code symbols (c.code (tapeLayout options) symbols r) m = .ok () m' ∧ m'.Holds u ∧
      (c.isBracket = true →
        m'.regs[Reg.ofNat (r + 4)]? = some (.int (if u.cell? = some 0 then 0 else 1))) := by
  have htest : ∀ {b : UInt8}, t.cell? = some b → r + 5 ≤ 2 ^ 32 →
      ∃ m', Exec.code symbols ((tapeLayout options).testCode r) m = .ok () m' ∧ m'.Holds t ∧
        m'.regs[Reg.ofNat (r + 4)]? = some (.int (if t.cell? = some 0 then 0 else 1)) := by
    intro b hb hlt
    simpa [hb] using h.code_test options hb hr hlt
  have hwrite := hs.capability?_nameOf .writeByte
  have hread := hs.capability?_nameOf .readByte
  cases c with
  | right =>
    cases hu
    obtain ⟨m', e, h'⟩ := h.code_move options (Exec.computes_add symbols) hr hlt
    exact ⟨m', e, h', nofun⟩
  | left =>
    cases hu
    obtain ⟨m', e, h'⟩ := h.code_move options (Exec.computes_sub symbols) hr hlt
    exact ⟨m', e, h', nofun⟩
  | increment =>
    obtain ⟨b, hb, rfl⟩ := Option.map_eq_some_iff.1 hu
    obtain ⟨m', e, h'⟩ := h.code_change options (Exec.computes_add symbols) hb hr hlt
    exact ⟨m', e, by simpa using h', nofun⟩
  | decrement =>
    obtain ⟨b, hb, rfl⟩ := Option.map_eq_some_iff.1 hu
    obtain ⟨m', e, h'⟩ := h.code_change options (Exec.computes_sub symbols) hb hr hlt
    exact ⟨m', e, by simpa using h', nofun⟩
  | output =>
    obtain ⟨b, hb, rfl⟩ := Option.map_eq_some_iff.1 hu
    obtain ⟨m', e, h'⟩ := h.code_write options hwrite hb hr hlt
    exact ⟨m', e, h', nofun⟩
  | input =>
    obtain ⟨b, hb, rfl⟩ := Option.map_eq_some_iff.1 hu
    obtain ⟨m', e, h'⟩ := h.code_read options hread hb hr hlt
    exact ⟨m', e, h', nofun⟩
  | loopOpen =>
    obtain ⟨b, hb, rfl⟩ := Option.map_eq_some_iff.1 hu
    obtain ⟨m', e, h', v⟩ := htest hb hlt
    exact ⟨m', e, h', fun _ => v⟩
  | loopClose =>
    obtain ⟨b, hb, rfl⟩ := Option.map_eq_some_iff.1 hu
    obtain ⟨m', e, h', v⟩ := htest hb hlt
    exact ⟨m', e, h', fun _ => v⟩

/-- The code of a command that finds no cell faults and leaves the tape as it
was. -/
theorem code_of_none (h : m.Holds t) (hs : symbols.Distinct) {c : Command}
    (hu : t.perform? c = none) (hr : 2 ≤ r) (hlt : r + c.regs ≤ 2 ^ 32) :
    ∃ m', Exec.code symbols (c.code (tapeLayout options) symbols r) m =
        .error (.outOfRange 1 t.pointer.toNat 0 t.cells.size) m' ∧
      m'.memory.allocations = t.allocations := by
  have hread := hs.capability?_nameOf .readByte
  -- every command but a move and a read begins with the access to the cell
  have hlt₃ : r + 3 ≤ 2 ^ 32 := by have := c.three_le_regs; omega
  have haccess := fun hb => h.code_cell_error options symbols hb hr hlt₃
  cases c with
  | right | left => cases hu
  | input => exact h.code_read_error options hread (Option.map_eq_none_iff.1 hu) hr hlt
  | increment | decrement | output | loopOpen | loopClose =>
    exact haccess (Option.map_eq_none_iff.1 hu) _

end Code

/-- Writing over all the cells. -/
theorem writeCells (h : m.Holds t) {bytes : List UInt8} (hlen : bytes.length = t.cells.size) :
    ({ m with memory := m.memory.write 0 0 bytes } : Machine).Holds
      { t with cells := bytes.toArray } := by
  refine ⟨h.tape, h.slot, ?_, h.input, h.output⟩
  simp [Memory.write, h.memory, Tape.allocations, Allocation.write_all t.cells hlen]

end Machine.Holds

/-! ## The start -/

/-- The two allocations.  Until it is set, the pointer has the word that fresh
memory is filled with. -/
theorem Machine.holds_alloca (symbols : Symbols) {cellCount : UInt64}
    (hcells : cellCount.toNat < addressSpace) (input : List UInt8) :
    ∃ m', (∀ rest, Exec.code symbols (.alloca (.ofNat 0) .i8 cellCount ::
        .alloca (.ofNat 1) .i64 1 :: rest) { input } = Exec.code symbols rest m') ∧
      m'.Holds { cells := Allocation.fresh cellCount.toNat, pointer := 0xcdcdcdcdcdcdcdcd, input } := by
  have htape : Ty.i8.size.toNat * cellCount.toNat = cellCount.toNat := Nat.one_mul _
  have hslot : Ty.i64.size.toNat * (1 : UInt64).toNat = 8 := rfl
  have hfresh : Allocation.fresh 8 = (littleEndian 8 0xcdcdcdcdcdcdcdcd).toArray := by decide
  have e₁ := Exec.step_alloca (m := tick ⟨∅, {}, input, #[], 0⟩) symbols (.ofNat 0) htape hcells
  have e₂ := Exec.step_alloca (m := tick (set ⟨∅, ⟨#[.fresh cellCount.toNat]⟩, input, #[], 1⟩
    (.ofNat 0) (.ptr 0 0))) symbols (.ofNat 1) hslot (by decide)
  refine ⟨_, fun rest => (Exec.code_cons e₁).trans (Exec.code_cons e₂), ?_, regs_set_self .., ?_,
    rfl, rfl⟩
  · rw [regs_set_ofNat_of_ne _ _ (by omega) (by omega) (by omega)]
    exact regs_set_self ..
  · rw [Tape.allocations, ← hfresh]
    rfl

/-- The code at the start makes a tape of zero cells. -/
theorem Machine.holds_setUp {symbols : Symbols} (hs : symbols.Distinct) {cellCount : UInt64}
    (hcells : cellCount.toNat < addressSpace) (input : List UInt8) :
    ∃ m', Exec.code symbols (TapeLayout.setUpCode symbols cellCount) { input } = .ok () m' ∧
      m'.Holds (.zeroed cellCount.toNat input) := by
  obtain ⟨m₁, e₁, h₁⟩ := holds_alloca symbols hcells input
  have hzero : Ty.i8.truncate (0 : Int64).toUInt64 = 0 := rfl
  have hindex : Ty.i64.truncate (0 : Int64).toUInt64 = 0 := rfl
  have hlength : Ty.i64.truncate cellCount.toInt64.toUInt64 = cellCount := rfl
  obtain ⟨m₂, e₂, h₂, v₂, -⟩ :=
    h₁.define (q := 2) (by omega) (by omega) (Exec.step_const symbols _ hzero)
  obtain ⟨m₃, e₃, h₃, v₃, f₃⟩ :=
    h₂.define (q := 3) (by omega) (by omega) (Exec.step_const symbols _ hlength)
  have hfill := Exec.step_call_fill (m := m₃.tick) (hs.capability?_nameOf .fill) h₃.tape
    ((f₃ 2 (by omega)).trans v₂) v₃ h₃.cells? (by simp [Allocation.fresh])
  have h₄ := h₃.tick.writeCells
    (show (List.replicate cellCount.toNat (0 : UInt64).toUInt8).length = _ by simp [Allocation.fresh])
  obtain ⟨m₅, e₅, h₅, v₅, -⟩ :=
    h₄.define (q := 4) (by omega) (by omega) (Exec.step_const symbols _ hindex)
  have hstore := Exec.step_store (m := m₅.tick) symbols Ty.scalarSize?_i64 v₅ h₅.slot
    h₅.pointer? (by simp)
  refine ⟨_, (e₁ _).trans ((e₂ _).trans ((e₃ _).trans ((Exec.code_cons hfill).trans ((e₅ _).trans
    (Exec.code_cons hstore))))), ?_⟩
  have h₆ := h₅.tick.writePointer 0
  simpa [Tape.zeroed] using h₆

end TapeFlow
