import Mathlib.Algebra.Group.Nat.Defs
import TapeFlow.Lowering.Pass
import TapeFlow.Proofs.Computation

/-!
# The code of a command

What the computations of `Build` that only add straight-line code do: they
append a known list of instructions to the block under the cursor and hand out a
known number of registers.

* `Builder.extend` — the effect of straight-line code on a builder.
* `EmitsAt` — a computation that starts at register `r` emits this code, uses
  this many registers and returns this value; `EmitsAt.bind` puts two together.
* `Command.code`, `Command.regs` — the code of each command and the registers it
  uses up, and one lemma for each computation that says so.
-/

namespace TapeFlow

/-- The register with a number. -/
def Reg.ofNat (n : Nat) : Reg := ⟨UInt32.ofNat n⟩

/-- The block number that names a position. -/
def BlockId.ofNat (n : Nat) : BlockId := ⟨UInt32.ofNat n⟩

theorem Reg.ofNat_inj {m n : Nat} (hm : m < 2 ^ 32) (hn : n < 2 ^ 32) :
    Reg.ofNat m = Reg.ofNat n ↔ m = n := by
  constructor
  · intro h
    have hindex : (UInt32.ofNat m).toNat = (UInt32.ofNat n).toNat :=
      congrArg (fun r => r.index.toNat) h
    rwa [UInt32.toNat_ofNat_of_lt' hm, UInt32.toNat_ofNat_of_lt' hn] at hindex
  · rintro rfl; rfl

@[simp] theorem BlockId.toNat_ofNat {n : Nat} (hn : n < 2 ^ 32) : (BlockId.ofNat n).toNat = n :=
  UInt32.toNat_ofNat_of_lt' hn

theorem BlockId.ofNat_inj {m n : Nat} (hm : m < 2 ^ 32) (hn : n < 2 ^ 32) :
    BlockId.ofNat m = BlockId.ofNat n ↔ m = n := by
  constructor
  · intro h
    rw [← BlockId.toNat_ofNat hm, h, BlockId.toNat_ofNat hn]
  · rintro rfl; rfl

/-! ## Straight-line code -/

/-- Add code to the end of a block. -/
def Block.extend (block : Block) (code : List Instruction) : Block :=
  { block with instructions := block.instructions ++ code.toArray }

/-- End a block. -/
def Block.finish (block : Block) (t : Terminator) : Block := { block with terminator := some t }

namespace Builder

/-- Add code to the end of the block at a position and use up registers. -/
def extend (b : Builder) (i : Nat) (code : List Instruction) (regs : Nat) : Builder :=
  { b with
    blocks := b.blocks.modify i fun block => block.extend code
    nextReg := b.nextReg + UInt32.ofNat regs }

theorem insertionPoint_eq_ok {b : Builder} {id : BlockId} {block : Block}
    (hcursor : b.cursor = some id) (hblock : b.blocks[id.toNat]? = some block)
    (hopen : block.terminator = none) : b.insertionPoint = .ok id.toNat := by
  simp [insertionPoint, hcursor, hblock, Block.isSealed, hopen]

theorem exists_of_insertionPoint {b : Builder} {i : Nat} (h : b.insertionPoint = .ok i) :
    ∃ id block, b.cursor = some id ∧ id.toNat = i ∧ b.blocks[i]? = some block ∧
      block.terminator = none := by
  unfold insertionPoint at h
  split at h
  · cases h
  · rename_i id hid
    split at h
    · cases h
    · rename_i block hblock
      split at h
      · cases h
      · rename_i hopen
        cases h
        exact ⟨id, block, hid, rfl, hblock, by simpa [Block.isSealed] using hopen⟩

/-- Adding straight-line code does not move the insertion point. -/
theorem insertionPoint_extend {b : Builder} {i : Nat} (h : b.insertionPoint = .ok i)
    (code : List Instruction) (regs : Nat) : (b.extend i code regs).insertionPoint = .ok i := by
  obtain ⟨id, block, hid, rfl, hblock, hopen⟩ := exists_of_insertionPoint h
  have hblock' : (b.extend id.toNat code regs).blocks[id.toNat]? = some (block.extend code) := by
    simp [extend, Array.getElem?_modify, hblock]
  exact insertionPoint_eq_ok hid hblock' hopen

theorem nextReg_extend {b : Builder} {r : Nat} (h : b.nextReg = UInt32.ofNat r) (i : Nat)
    (code : List Instruction) (regs : Nat) :
    (b.extend i code regs).nextReg = UInt32.ofNat (r + regs) := by
  rw [UInt32.ofNat_add, ← h]
  rfl

theorem extend_nil (b : Builder) (i : Nat) : b.extend i [] 0 = b := by
  have : b.blocks.modify i (fun block => block.extend []) = b.blocks := by
    ext1
    · simp
    · simp [Array.getElem_modify, Block.extend]
  simp [extend, this]

theorem extend_extend (b : Builder) (i : Nat) (code code' : List Instruction) (m n : Nat) :
    (b.extend i code m).extend i code' n = b.extend i (code ++ code') (m + n) := by
  have : (b.blocks.modify i fun block => block.extend code).modify i
      (fun block => block.extend code') =
      b.blocks.modify i fun block => block.extend (code ++ code') := by
    ext1
    · simp
    · rename_i j _ _
      by_cases hj : i = j <;> simp [Array.getElem_modify, hj, Block.extend]
  simp [extend, this, UInt32.add_assoc]

end Builder

/-- Started with `r` as the next register, the computation adds `code` to the
block under the cursor, uses up `regs` registers and returns `a`. -/
def EmitsAt (r : Nat) (x : Build α) (code : List Instruction) (regs : Nat) (a : α) : Prop :=
  ∀ (b : Builder) (i : Nat), b.insertionPoint = .ok i → b.nextReg = UInt32.ofNat r →
    x b = .ok a (b.extend i code regs)

/-- Started with `r` as the next register, the computation fails with `e`. -/
def RefusesAt (r : Nat) (x : Build α) (e : Error) : Prop :=
  ∀ (b : Builder) (i : Nat), b.insertionPoint = .ok i → b.nextReg = UInt32.ofNat r →
    ∃ b', x b = .error e b'

namespace EmitsAt

theorem pure (r : Nat) (a : α) : EmitsAt r (Pure.pure a : Build α) [] 0 a := by
  intro b i _ _
  rw [Builder.extend_nil]
  rfl

/-- Two computations one after the other.  The equations say how the code and
the registers are put together, so that either can be written out. -/
theorem bind {r m n k : Nat} {x : Build α} {f : α → Build β}
    {code code' whole : List Instruction} {a : α} {a' : β} (hx : EmitsAt r x code m a)
    (hf : EmitsAt (r + m) (f a) code' n a') (hcode : code ++ code' = whole) (hk : m + n = k) :
    EmitsAt r (x >>= f) whole k a' := by
  subst hcode hk
  intro b i hi hr
  have hrest := hf _ i (Builder.insertionPoint_extend hi code m) (Builder.nextReg_extend hr i code m)
  rw [Builder.extend_extend] at hrest
  rw [bind_of_ok (hx b i hi hr), hrest]

theorem bind_refuses {r m : Nat} {x : Build α} {f : α → Build β} {code : List Instruction} {a : α}
    {e : Error} (hx : EmitsAt r x code m a) (hf : RefusesAt (r + m) (f a) e) :
    RefusesAt r (x >>= f) e := by
  intro b i hi hr
  rw [bind_of_ok (hx b i hi hr)]
  exact hf _ i (Builder.insertionPoint_extend hi code m) (Builder.nextReg_extend hr i code m)

theorem map {r m : Nat} {x : Build α} {code : List Instruction} {a : α} (f : α → β)
    (hx : EmitsAt r x code m a) : EmitsAt r (f <$> x) code m (f a) := by
  intro b i hi hr
  exact map_of_ok f (hx b i hi hr)

theorem emit (r : Nat) (i : Instruction) : EmitsAt r (Build.emit i) [i] 0 () := by
  intro b k hk _
  simp [Build.emit, Build.change, hk, Builder.extend, Block.extend]

theorem define (r : Nat) (i : Reg → Instruction) :
    EmitsAt r (Build.define i) [i (Reg.ofNat r)] 1 (Reg.ofNat r) := by
  intro b k hk hr
  have hreg : Build.freshReg b = .ok (Reg.ofNat r) { b with nextReg := b.nextReg + 1 } := by
    rw [Build.freshReg, hr]
    rfl
  have hemit : Build.emit (i (Reg.ofNat r)) { b with nextReg := b.nextReg + 1 } =
      .ok () (b.extend k [i (Reg.ofNat r)] 1) := by
    have hk' : ({ b with nextReg := b.nextReg + 1 } : Builder).insertionPoint = .ok k := hk
    simp [Build.emit, Build.change, hk', Builder.extend, Block.extend]
  rw [Build.define, bind_of_ok hreg, bind_of_ok hemit]
  rfl

end EmitsAt

/-! ## The pieces of code -/

section Pieces

variable (layout : TapeLayout) (symbols : Symbols)

namespace TapeLayout

/-- Code that leaves the address of the cell under the pointer in `r + 1`. -/
def addressCode (r : Nat) : List Instruction :=
  [.load (.ofNat r) .i64 layout.slot, .gep (.ofNat (r + 1)) .i8 layout.tape (.ofNat r)]

/-- Code that leaves, besides that, the value of the cell in `r + 2`. -/
def cellCode (r : Nat) : List Instruction :=
  layout.addressCode r ++ [.load (.ofNat (r + 2)) .i8 (.ofNat (r + 1))]

/-- Code that leaves in `r + 4` whether the cell is not zero. -/
def testCode (r : Nat) : List Instruction :=
  layout.cellCode r ++ [.const (.ofNat (r + 3)) .i8 0,
    .icmpNe (.ofNat (r + 4)) .i8 (.ofNat (r + 2)) (.ofNat (r + 3))]

/-- Code that moves the pointer by one; `op` adds or subtracts. -/
def moveCode (op : Reg → Ty → Reg → Reg → Instruction) (r : Nat) : List Instruction :=
  [.load (.ofNat r) .i64 layout.slot, .const (.ofNat (r + 1)) .i64 1,
    op (.ofNat (r + 2)) .i64 (.ofNat r) (.ofNat (r + 1)), .store .i64 (.ofNat (r + 2)) layout.slot]

/-- Code that changes the cell by one; `op` adds or subtracts. -/
def changeCode (op : Reg → Ty → Reg → Reg → Instruction) (r : Nat) : List Instruction :=
  layout.cellCode r ++ [.const (.ofNat (r + 3)) .i8 1,
    op (.ofNat (r + 4)) .i8 (.ofNat (r + 2)) (.ofNat (r + 3)),
    .store .i8 (.ofNat (r + 4)) (.ofNat (r + 1))]

/-- Code that writes the cell. -/
def writeCode (r : Nat) : List Instruction :=
  layout.cellCode r ++ [.call (some (.ofNat (r + 3))) symbols.writeByte [.ofNat (r + 2)]]

/-- Code that reads into the cell. -/
def readCode (r : Nat) : List Instruction :=
  .call (some (.ofNat r)) symbols.readByte [] :: layout.addressCode (r + 1) ++
    [.store .i8 (.ofNat r) (.ofNat (r + 2))]

/-- Code that sets up the tape, the first of all. -/
def setUpCode (cellCount : UInt64) : List Instruction :=
  [.alloca (.ofNat 0) .i8 cellCount, .alloca (.ofNat 1) .i64 1, .const (.ofNat 2) .i8 0,
    .const (.ofNat 3) .i64 cellCount.toInt64,
    .call none symbols.fill [.ofNat 0, .ofNat 2, .ofNat 3], .const (.ofNat 4) .i64 0,
    .store .i64 (.ofNat 4) (.ofNat 1)]

end TapeLayout

/-- The code of a command that starts at register `r`.  For a bracket this is
the test in front of the branch. -/
def Command.code (r : Nat) : Command → List Instruction
  | right => layout.moveCode .add r
  | left => layout.moveCode .sub r
  | increment => layout.changeCode .add r
  | decrement => layout.changeCode .sub r
  | output => layout.writeCode symbols r
  | input => layout.readCode symbols r
  | loopOpen | loopClose => layout.testCode r

/-- The registers that the code of a command uses up. -/
def Command.regs : Command → Nat
  | right | left => 3
  | increment | decrement | loopOpen | loopClose => 5
  | output => 4
  | input => 3

theorem emits_cellAddress (r : Nat) :
    EmitsAt r layout.cellAddress (layout.addressCode r) 2 (.ofNat (r + 1)) :=
  (EmitsAt.define r _).bind (EmitsAt.define (r + 1) _) rfl rfl

theorem emits_loadCell (r : Nat) :
    EmitsAt r layout.loadCell (layout.cellCode r) 3 (.ofNat (r + 1), .ofNat (r + 2)) :=
  (emits_cellAddress layout r).bind
    ((EmitsAt.define (r + 2) _).bind (EmitsAt.pure _ _) rfl rfl) rfl rfl

theorem emits_cellNonzero (r : Nat) :
    EmitsAt r layout.cellNonzero (layout.testCode r) 5 (.ofNat (r + 4)) :=
  (emits_loadCell layout r).bind
    ((EmitsAt.define (r + 3) _).bind (EmitsAt.define (r + 4) _) rfl rfl) rfl rfl

theorem emits_movePointer (op : Reg → Ty → Reg → Reg → Instruction) (r : Nat) :
    EmitsAt r (layout.movePointer fun ty lhs rhs => Build.define fun dst => op dst ty lhs rhs)
      (layout.moveCode op r) 3 () :=
  (EmitsAt.define r _).bind ((EmitsAt.define (r + 1) _).bind
    ((EmitsAt.define (r + 2) _).bind (EmitsAt.emit _ _) rfl rfl) rfl rfl) rfl rfl

theorem emits_changeCell (op : Reg → Ty → Reg → Reg → Instruction) (r : Nat) :
    EmitsAt r (layout.changeCell fun ty lhs rhs => Build.define fun dst => op dst ty lhs rhs)
      (layout.changeCode op r) 5 () :=
  (emits_loadCell layout r).bind ((EmitsAt.define (r + 3) _).bind
    ((EmitsAt.define (r + 4) _).bind (EmitsAt.emit _ _) rfl rfl) rfl rfl) rfl rfl

theorem emits_writeCell (r : Nat) :
    EmitsAt r (layout.writeCell symbols) (layout.writeCode symbols r) 4 () :=
  (emits_loadCell layout r).bind
    (((EmitsAt.define (r + 3) _).map some).bind (EmitsAt.pure _ _) rfl rfl) rfl rfl

theorem emits_readCell (r : Nat) :
    EmitsAt r (layout.readCell symbols) (layout.readCode symbols r) 3 () :=
  (EmitsAt.define r _).bind
    ((emits_cellAddress layout (r + 1)).bind (EmitsAt.emit _ _) rfl rfl) rfl rfl

theorem emits_setUp {cellCount : UInt64} (h : cellCount.toNat < 2 ^ 63) :
    EmitsAt 0 (TapeLayout.setUp symbols cellCount) (TapeLayout.setUpCode symbols cellCount) 5
      ⟨.ofNat 0, .ofNat 1, cellCount⟩ := by
  have hfill : EmitsAt 4 (Build.call symbols.fill [.ofNat 0, .ofNat 2, .ofNat 3]
      Capability.fill.signature.ret) [.call none symbols.fill [.ofNat 0, .ofNat 2, .ofNat 3]] 0
      none :=
    (EmitsAt.emit 4 _).bind (EmitsAt.pure _ _) rfl rfl
  have hfits : ¬ 0x8000000000000000 ≤ cellCount.toNat := Nat.not_le.2 h
  simp only [TapeLayout.setUp, if_neg hfits]
  refine (EmitsAt.define 0 _).bind ((EmitsAt.define 1 _).bind ((EmitsAt.define 2 _).bind
    ((EmitsAt.define 3 _).bind (hfill.bind ((EmitsAt.define 4 _).bind
      ((EmitsAt.emit 5 _).bind (EmitsAt.pure _ _) rfl rfl) rfl rfl) rfl rfl) rfl rfl) rfl rfl)
      rfl rfl) rfl rfl

/-- A tape whose length is no signed number is refused after the allocations. -/
theorem refuses_setUp {cellCount : UInt64} (h : 2 ^ 63 ≤ cellCount.toNat) :
    RefusesAt 0 (TapeLayout.setUp symbols cellCount)
      (.invalidOptions s!"cell_count {cellCount.toNat} does not fit in i64") := by
  have hlong : 0x8000000000000000 ≤ cellCount.toNat := h
  simp only [TapeLayout.setUp, if_pos hlong]
  exact (EmitsAt.define 0 _).bind_refuses ((EmitsAt.define 1 _).bind_refuses
    ((EmitsAt.define 2 _).bind_refuses fun b _ _ _ => ⟨b, bind_of_error rfl⟩))

end Pieces

end TapeFlow
