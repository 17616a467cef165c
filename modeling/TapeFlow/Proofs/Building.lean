import Mathlib.Data.List.Perm.Subperm
import TapeFlow.Check.Report
import TapeFlow.Proofs.Lowering
import TapeFlow.Proofs.Registers

/-!
# A builder under any use

A builder can be used in any order and can be used wrongly: code can be added while the
cursor is nowhere, on a number that names no block, or on a block that has its end.  This
module says what holds of it all the same.

* `Builder.Op` — what can be asked of a builder; `Builder.after` — the builder after a list
  of operations, those that failed included; `Builder.handedOut` — the registers it answered.
* `Builder.Op.Does` — all that one operation can do to a builder; `Builder.Op.does`.
* `Builder.Grows` — blocks are only added, code only at the end of a block, and nothing to a
  block that has its end; `Builder.grows_after`.
* `Builder.Op.guarded` — when an operation fails, with which error, and that it then changes
  nothing but the register to hand out next.
* `Builder.handedOut_sublist` — registers are handed out in the order of their numbers;
  `Builder.Defines.after` — and the operations that take one define no other.
* `Builder.orderly_new` — all of this together, for a builder that starts without blocks.
-/

namespace TapeFlow

namespace Builder

/-- What can be asked of a builder. -/
inductive Op where
  /-- To make a block. -/
  | appendBlock (stem : String)
  /-- To move the cursor. -/
  | position (id : BlockId)
  /-- To hand out a register. -/
  | freshReg
  /-- To add an instruction as it is. -/
  | emit (i : Instruction)
  /-- To end the block under the cursor. -/
  | terminate (t : Terminator)
  /-- To add a constant. -/
  | const (ty : Ty) (value : Int64)
  /-- To add an allocation. -/
  | alloca (ty : Ty) (count : UInt64)
  /-- To add a load. -/
  | load (ty : Ty) (ptr : Reg)
  /-- To add a store. -/
  | store (ty : Ty) (value ptr : Reg)
  /-- To add the address of an element. -/
  | gep (ty : Ty) (base index : Reg)
  /-- To add a sum. -/
  | add (ty : Ty) (lhs rhs : Reg)
  /-- To add a difference. -/
  | sub (ty : Ty) (lhs rhs : Reg)
  /-- To add a comparison. -/
  | icmpNe (ty : Ty) (lhs rhs : Reg)
  /-- To add a call that may have a result. -/
  | call (symbol : String) (args : List Reg) (ret : Ty)
  /-- To add a call with a result. -/
  | callValue (symbol : String) (args : List Reg)

/-- What a builder answers. -/
inductive Answer where
  /-- That it is done. -/
  | done
  /-- The block that was made. -/
  | block (id : BlockId)
  /-- A register. -/
  | reg (r : Reg)
  deriving DecidableEq

/-- The answer where there may be a register. -/
def Answer.ofReg? : Option Reg → Answer
  | some r => .reg r
  | none => .done

namespace Op

/-- Ask for it. -/
def run : Op → Build Answer
  | appendBlock stem => .block <$> Build.appendBlock stem
  | position id => (fun _ => .done) <$> Build.position id
  | freshReg => .reg <$> Build.freshReg
  | emit i => (fun _ => .done) <$> Build.emit i
  | terminate t => (fun _ => .done) <$> Build.terminate t
  | const ty value => .reg <$> Build.const ty value
  | alloca ty count => .reg <$> Build.alloca ty count
  | load ty ptr => .reg <$> Build.load ty ptr
  | store ty value ptr => (fun _ => .done) <$> Build.store ty value ptr
  | gep ty base index => .reg <$> Build.gep ty base index
  | add ty lhs rhs => .reg <$> Build.add ty lhs rhs
  | sub ty lhs rhs => .reg <$> Build.sub ty lhs rhs
  | icmpNe ty lhs rhs => .reg <$> Build.icmpNe ty lhs rhs
  | call symbol args ret => .ofReg? <$> Build.call symbol args ret
  | callValue symbol args => .reg <$> Build.callValue symbol args

/-- Whether it makes a block. -/
def appends : Op → Bool
  | appendBlock _ => true
  | _ => false

/-- Whether it takes a register, be it that it fails then. -/
def takesReg : Op → Bool
  | freshReg | const .. | alloca .. | load .. | gep .. | add .. | sub .. | icmpNe ..
  | callValue .. => true
  | call _ _ ret => ret ≠ .void
  | appendBlock _ | position _ | emit _ | terminate _ | store .. => false

/-- Whether it changes the block under the cursor, and so needs one that can be changed. -/
def needsPoint : Op → Bool
  | appendBlock _ | position _ | freshReg => false
  | _ => true

/-- The instruction it adds, if it adds one, when `r` is the register it can take. -/
def code? (r : Reg) : Op → Option Instruction
  | emit i => some i
  | const ty value => some (.const r ty value)
  | alloca ty count => some (.alloca r ty count)
  | load ty ptr => some (.load r ty ptr)
  | store ty value ptr => some (.store ty value ptr)
  | gep ty base index => some (.gep r ty base index)
  | add ty lhs rhs => some (.add r ty lhs rhs)
  | sub ty lhs rhs => some (.sub r ty lhs rhs)
  | icmpNe ty lhs rhs => some (.icmpNe r ty lhs rhs)
  | call symbol args ret => some (.call (if ret = .void then none else some r) symbol args)
  | callValue symbol args => some (.call (some r) symbol args)
  | appendBlock _ | position _ | freshReg | terminate _ => none

end Op

/-- The builder after an operation, whatever came of it. -/
def step (b : Builder) (op : Op) : Builder :=
  match op.run b with
  | .ok _ b' => b'
  | .error _ b' => b'

/-- The builder after some operations. -/
def after (b : Builder) (ops : List Op) : Builder := ops.foldl step b

/-- The register that an operation is answered with. -/
def answered? (b : Builder) (op : Op) : Option Reg :=
  match op.run b with
  | .ok (.reg r) _ => some r
  | _ => none

/-- The registers that some operations are answered with, in order. -/
def handedOut (b : Builder) : List Op → List Reg
  | [] => []
  | op :: ops => (b.answered? op).toList ++ (b.step op).handedOut ops

/-! ## What one operation can do -/

/-- Use up registers. -/
def supply (b : Builder) (regs : Nat) : Builder :=
  { b with nextReg := b.nextReg + UInt32.ofNat regs }

/-- Make a block.  Its label is numbered unless it is the first and its stem is `entry`. -/
def append (b : Builder) (stem : String) : Builder :=
  if b.blocks.isEmpty && stem == "entry" then
    { b with blocks := b.blocks.push (.empty (.ofNat b.blocks.size) stem) }
  else
    b.addBlock stem

variable {b : Builder} {op : Op} {e : Error} {i : Instruction} {k r : Nat}

theorem appendBlock_eq_append (b : Builder) (stem : String) :
    Build.appendBlock stem b = .ok (.ofNat b.blocks.size) (b.append stem) := by
  unfold Build.appendBlock append
  by_cases h : (b.blocks.isEmpty && stem == "entry") = true
  · simp only [h, if_true]
    rfl
  · simp only [h]
    rfl

theorem emit_refused (he : b.insertionPoint = .error e) (i : Instruction) :
    Build.emit i b = .error e b := by
  rw [Build.emit, Build.change, he]

theorem define_refused (he : b.insertionPoint = .error e) (i : Reg → Instruction) :
    Build.define i b = .error e (b.supply 1) := by
  have hreg : Build.freshReg b = .ok ⟨b.nextReg⟩ (b.supply 1) := rfl
  have hpoint : (b.supply 1).insertionPoint = .error e := he
  rw [Build.define, bind_of_ok hreg, bind_of_error (emit_refused hpoint _)]

theorem terminate_refused (he : b.insertionPoint = .error e) (t : Terminator) :
    Build.terminate t b = .error e b := by
  have hchange : Build.change (fun block => { block with terminator := some t }) b =
      .error e b := by
    rw [Build.change, he]
  exact bind_of_error hchange

namespace Op

/-- An operation that changes the block under the cursor ends it, or adds an instruction as it
is, or adds one that defines the register it has taken. -/
theorem run_kinds (hop : op.needsPoint = true) :
    (∃ t, op = terminate t) ∨
      (op.takesReg = false ∧ ∃ i, (∀ r, op.code? r = some i) ∧
        op.run = (fun _ => .done) <$> Build.emit i) ∨
      (op.takesReg = true ∧ ∃ f, (∀ r, op.code? r = some (f r)) ∧
        op.run = .reg <$> Build.define f) := by
  cases op with
  | appendBlock | position | freshReg => cases hop
  | terminate t => exact .inl ⟨t, rfl⟩
  | emit | store => exact .inr (.inl ⟨rfl, _, fun _ => rfl, rfl⟩)
  | const | alloca | load | gep | add | sub | icmpNe | callValue =>
    exact .inr (.inr ⟨rfl, _, fun _ => rfl, rfl⟩)
  | call symbol args ret =>
    by_cases hret : ret = .void
    · refine .inr (.inl ⟨by simp [takesReg, hret], .call none symbol args, ?_, ?_⟩)
      · simp [code?, hret]
      · simp [run, Build.call, hret, Answer.ofReg?]
    · refine .inr (.inr ⟨by simp [takesReg, hret], fun r => .call (some r) symbol args, ?_, ?_⟩)
      · simp [code?, hret]
      · simp only [run, Build.call, hret, if_false, Functor.map_map]
        rfl

/-- Where there is a block that can be changed, the operation changes it. -/
theorem run_of_point (hop : op.needsPoint = true) (hk : b.insertionPoint = .ok k) :
    (∃ t, op = terminate t ∧ op.run b = .ok .done (b.leave k t none)) ∨
      ∃ i, op.code? ⟨b.nextReg⟩ = some i ∧
        op.run b = .ok (if op.takesReg then .reg ⟨b.nextReg⟩ else .done)
          (b.extend k [i] op.takesReg.toNat) := by
  have hr : b.nextReg = UInt32.ofNat b.nextReg.toNat := UInt32.ofNat_toNat.symm
  rcases run_kinds hop with ⟨t, rfl⟩ | ⟨htakes, i, hi, hrun⟩ | ⟨htakes, f, hf, hrun⟩
  · exact .inl ⟨t, rfl, map_of_ok _ (terminate_eq hk t)⟩
  · refine .inr ⟨i, hi _, ?_⟩
    rw [hrun, htakes]
    exact map_of_ok _ (EmitsAt.emit b.nextReg.toNat i b k hk hr)
  · refine .inr ⟨f ⟨b.nextReg⟩, hf _, ?_⟩
    have hdefine := EmitsAt.define b.nextReg.toNat f b k hk hr
    rw [Reg.ofNat, ← hr] at hdefine
    rw [hrun, htakes]
    exact map_of_ok _ hdefine

/-- Where there is none, the operation fails; the register it has taken stays taken. -/
theorem run_refused (hop : op.needsPoint = true) (he : b.insertionPoint = .error e) :
    op.run b = .error e (b.supply op.takesReg.toNat) := by
  have hnone : b.supply 0 = b := by simp [supply]
  rcases run_kinds hop with ⟨t, rfl⟩ | ⟨htakes, i, -, hrun⟩ | ⟨htakes, f, -, hrun⟩
  · rw [takesReg, Bool.toNat_false, hnone]
    exact map_of_error _ (terminate_refused he t)
  · rw [hrun, htakes, Bool.toNat_false, hnone]
    exact map_of_error _ (emit_refused he i)
  · rw [hrun, htakes]
    exact map_of_error _ (define_refused he f)

end Op

/-- All that an operation can do to a builder. -/
inductive Op.Does (b : Builder) : Op → EStateM.Result Error Builder Answer → Prop where
  /-- It makes a block and answers its number. -/
  | append (stem : String) :
    Does b (.appendBlock stem) (.ok (.block (.ofNat b.blocks.size)) (b.append stem))
  /-- It moves the cursor. -/
  | move (id : BlockId) : Does b (.position id) (.ok .done { b with cursor := some id })
  /-- It takes a register and does no more. -/
  | take : Does b .freshReg (.ok (.reg ⟨b.nextReg⟩) (b.supply 1))
  /-- There is no block that it could change. -/
  | refuse {op : Op} {e : Error} (needs : op.needsPoint = true)
    (nowhere : b.insertionPoint = .error e) : Does b op (.error e (b.supply op.takesReg.toNat))
  /-- It adds an instruction to the block under the cursor. -/
  | add {op : Op} {i : Instruction} {k : Nat} (code : op.code? ⟨b.nextReg⟩ = some i)
    (point : b.insertionPoint = .ok k) :
    Does b op (.ok (if op.takesReg then .reg ⟨b.nextReg⟩ else .done)
      (b.extend k [i] op.takesReg.toNat))
  /-- It ends the block under the cursor. -/
  | finish {t : Terminator} {k : Nat} (point : b.insertionPoint = .ok k) :
    Does b (.terminate t) (.ok .done (b.leave k t none))

/-- An operation does nothing else. -/
theorem Op.does (op : Op) (b : Builder) : op.Does b (op.run b) := by
  cases hop : op.needsPoint with
  | false =>
    cases op with
    | appendBlock stem =>
      rw [run, map_of_ok _ (b.appendBlock_eq_append stem)]
      exact .append stem
    | position id => exact .move id
    | freshReg => exact .take
    | _ => cases hop
  | true =>
    cases hpoint : b.insertionPoint with
    | error e =>
      rw [run_refused hop hpoint]
      exact .refuse hop hpoint
    | ok k =>
      rcases run_of_point hop hpoint with ⟨t, rfl, hrun⟩ | ⟨i, hi, hrun⟩
      · rw [hrun]
        exact .finish hpoint
      · rw [hrun]
        exact .add hi hpoint

theorem step_appendBlock (b : Builder) (stem : String) :
    b.step (.appendBlock stem) = b.append stem := by
  rw [step, Op.run, map_of_ok _ (b.appendBlock_eq_append stem)]

theorem countP_cons_eq_add (p : Op → Bool) (op : Op) (ops : List Op) :
    (op :: ops).countP p = (p op).toNat + ops.countP p := by
  rw [List.countP_cons, Nat.add_comm]
  cases p op <;> rfl

theorem after_append (b : Builder) (ops more : List Op) :
    b.after (ops ++ more) = (b.after ops).after more :=
  List.foldl_append

end Builder

/-! ## Blocks only grow -/

/-- A block has become another by nothing but additions at its end. -/
structure Block.Grows (block block' : Block) : Prop where
  /-- It keeps its number. -/
  id : block'.id = block.id
  /-- It keeps its label. -/
  label : block'.label = block.label
  /-- Its code is still there, at the start. -/
  instructions : block.instructions.toList <+: block'.instructions.toList
  /-- If it had its end, it is the same. -/
  ended : block.isSealed = true → block' = block

namespace Block.Grows

variable {block block' block'' : Block}

theorem refl (block : Block) : block.Grows block := ⟨rfl, rfl, List.prefix_rfl, fun _ => rfl⟩

theorem trans (h : block.Grows block') (h' : block'.Grows block'') : block.Grows block'' where
  id := h'.id.trans h.id
  label := h'.label.trans h.label
  instructions := h.instructions.trans h'.instructions
  ended := by
    intro hsealed
    have hsame := h.ended hsealed
    rw [← hsame] at hsealed
    rw [h'.ended hsealed, hsame]

theorem extend (hopen : block.terminator = none) (code : List Instruction) :
    block.Grows (block.extend code) where
  id := rfl
  label := rfl
  instructions := by simp [Block.extend]
  ended := by simp [Block.isSealed, hopen]

theorem finish (hopen : block.terminator = none) (t : Terminator) :
    block.Grows (block.finish t) where
  id := rfl
  label := rfl
  instructions := List.prefix_rfl
  ended := by simp [Block.isSealed, hopen]

end Block.Grows

namespace Builder

/-- A builder has become another by nothing but additions: no block is gone, and each has at
most got more at its end. -/
structure Grows (b b' : Builder) : Prop where
  /-- The function keeps its name. -/
  name : b'.name = b.name
  /-- It keeps its type. -/
  ret : b'.ret = b.ret
  /-- Every block is still there. -/
  blocks : ∀ (j : Nat) (block : Block), b.blocks[j]? = some block →
    ∃ block', b'.blocks[j]? = some block' ∧ block.Grows block'

variable {b b' b'' : Builder} {op : Op} {ops : List Op} {k n : Nat}

theorem Grows.refl (b : Builder) : b.Grows b := ⟨rfl, rfl, fun _ block h => ⟨block, h, .refl block⟩⟩

theorem Grows.trans (h : b.Grows b') (h' : b'.Grows b'') : b.Grows b'' where
  name := h'.name.trans h.name
  ret := h'.ret.trans h.ret
  blocks := by
    intro j block hblock
    obtain ⟨block', hblock', hgrows⟩ := h.blocks j block hblock
    obtain ⟨block'', hblock'', hgrows'⟩ := h'.blocks j block' hblock'
    exact ⟨block'', hblock'', hgrows.trans hgrows'⟩

/-- The block under the cursor has no end yet. -/
theorem open_of_insertionPoint (hk : b.insertionPoint = .ok k) {block : Block}
    (hblock : b.blocks[k]? = some block) : block.terminator = none := by
  obtain ⟨-, old, -, -, hold, hopen⟩ := exists_of_insertionPoint hk
  cases hblock.symm.trans hold
  exact hopen

theorem blocks_append (b : Builder) (stem : String) :
    ∃ label, (b.append stem).blocks = b.blocks.push (.empty (.ofNat b.blocks.size) label) := by
  unfold append
  split
  · exact ⟨_, rfl⟩
  · exact ⟨_, rfl⟩

theorem grows_append (b : Builder) (stem : String) : b.Grows (b.append stem) := by
  have hrest : (b.append stem).name = b.name ∧ (b.append stem).ret = b.ret := by
    unfold append
    split
    · exact ⟨rfl, rfl⟩
    · exact ⟨rfl, rfl⟩
  refine ⟨hrest.1, hrest.2, fun j block hblock => ⟨block, ?_, .refl block⟩⟩
  obtain ⟨label, hblocks⟩ := b.blocks_append stem
  have hj := (Array.getElem?_eq_some_iff.1 hblock).1
  rw [hblocks, Array.getElem?_push, if_neg (by omega), hblock]

theorem grows_extend (hk : b.insertionPoint = .ok k) (code : List Instruction) (regs : Nat) :
    b.Grows (b.extend k code regs) := by
  refine ⟨rfl, rfl, fun j block hblock => ?_⟩
  rw [getElem?_extend, hblock]
  by_cases hj : k = j
  · subst hj
    rw [if_pos rfl]
    exact ⟨_, rfl, .extend (open_of_insertionPoint hk hblock) code⟩
  · rw [if_neg hj]
    exact ⟨block, rfl, .refl block⟩

theorem grows_leave (hk : b.insertionPoint = .ok k) (t : Terminator) (next : Option BlockId) :
    b.Grows (b.leave k t next) := by
  refine ⟨rfl, rfl, fun j block hblock => ?_⟩
  rw [getElem?_leave, hblock]
  by_cases hj : k = j
  · subst hj
    rw [if_pos rfl]
    exact ⟨_, rfl, .finish (open_of_insertionPoint hk hblock) t⟩
  · rw [if_neg hj]
    exact ⟨block, rfl, .refl block⟩

theorem grows_step (b : Builder) (op : Op) : b.Grows (b.step op) := by
  have hdoes := op.does b
  unfold step
  generalize op.run b = result at hdoes
  cases hdoes with
  | append stem => exact b.grows_append stem
  | move id => exact ⟨rfl, rfl, (Grows.refl b).blocks⟩
  | take => exact ⟨rfl, rfl, (Grows.refl b).blocks⟩
  | refuse => exact ⟨rfl, rfl, (Grows.refl b).blocks⟩
  | add code point => exact grows_extend point _ _
  | finish point => exact grows_leave point _ _

/-- However a builder is used, it only grows. -/
theorem grows_after (b : Builder) (ops : List Op) : b.Grows (b.after ops) := by
  induction ops generalizing b with
  | nil => exact .refl b
  | cons op ops ih => exact (b.grows_step op).trans (ih (b.step op))

/-! ## Blocks carry their numbers -/

theorem Op.appends_of_needsPoint (h : op.needsPoint = true) : op.appends = false := by
  cases op <;> first | rfl | cases h

theorem Op.needsPoint_of_code? {r : Reg} {i : Instruction} (h : op.code? r = some i) :
    op.needsPoint = true := by
  cases op <;> first | rfl | cases h

theorem size_step (b : Builder) (op : Op) :
    (b.step op).blocks.size = b.blocks.size + op.appends.toNat := by
  have hdoes := op.does b
  unfold step
  generalize op.run b = result at hdoes
  cases hdoes with
  | append stem =>
    obtain ⟨label, hblocks⟩ := b.blocks_append stem
    simp [hblocks, Op.appends]
  | move id => rfl
  | take => rfl
  | refuse needs => simp [supply, Op.appends_of_needsPoint needs]
  | add code => simp [Op.appends_of_needsPoint (Op.needsPoint_of_code? code)]
  | finish => simp [Op.appends]

theorem size_after (b : Builder) (ops : List Op) :
    (b.after ops).blocks.size = b.blocks.size + ops.countP Op.appends := by
  induction ops generalizing b with
  | nil => rfl
  | cons op ops ih =>
    have hstep : b.after (op :: ops) = (b.step op).after ops := rfl
    rw [hstep, ih, size_step, countP_cons_eq_add, Nat.add_assoc]

/-- Every block carries the number of its position. -/
def Numbered (b : Builder) : Prop :=
  ∀ (j : Nat) (block : Block), b.blocks[j]? = some block → block.id = .ofNat j

/-- A block that is new carries its number, and old blocks keep theirs. -/
theorem Numbered.step (h : b.Numbered) (op : Op) : (b.step op).Numbered := by
  intro j block hblock
  by_cases hj : j < b.blocks.size
  · obtain ⟨block', hblock', hgrows⟩ :=
      (b.grows_step op).blocks j _ (Array.getElem?_eq_getElem hj)
    cases hblock.symm.trans hblock'
    rw [hgrows.id, h j _ (Array.getElem?_eq_getElem hj)]
  · -- where there was no block, only making one can have put one
    have hlt := (Array.getElem?_eq_some_iff.1 hblock).1
    rw [size_step] at hlt
    cases op with
    | appendBlock stem =>
      obtain ⟨label, hblocks⟩ := b.blocks_append stem
      have hlast : j = b.blocks.size :=
        Nat.le_antisymm (Nat.le_of_lt_succ hlt) (Nat.le_of_not_lt hj)
      rw [step_appendBlock, hblocks, hlast, Array.getElem?_push_size] at hblock
      cases hblock
      rw [hlast]
      rfl
    | _ => exact absurd hlt hj

theorem Numbered.after (h : b.Numbered) (ops : List Op) : (b.after ops).Numbered := by
  induction ops generalizing b with
  | nil => exact h
  | cons op ops ih => exact ih (h.step op)

theorem numbered_new (name : String) (ret : Ty) : (new name ret).Numbered := by
  intro j block hblock
  simp [new] at hblock

/-! ## Registers -/

theorem nextReg_append (b : Builder) (stem : String) : (b.append stem).nextReg = b.nextReg := by
  unfold append
  split
  · rfl
  · rfl

theorem nextReg_step (b : Builder) (op : Op) :
    (b.step op).nextReg = b.nextReg + UInt32.ofNat op.takesReg.toNat := by
  have hdoes := op.does b
  unfold step
  generalize op.run b = result at hdoes
  cases hdoes with
  | append stem => simp [nextReg_append, Op.takesReg]
  | move id => simp [Op.takesReg]
  | take => rfl
  | refuse => rfl
  | add => rfl
  | finish => simp [leave, Op.takesReg]

/-- An operation that is answered with a register has taken it. -/
theorem answered?_cases (b : Builder) (op : Op) :
    b.answered? op = none ∨ (op.takesReg = true ∧ b.answered? op = some ⟨b.nextReg⟩) := by
  have hdoes := op.does b
  unfold answered?
  generalize op.run b = result at hdoes
  cases hdoes with
  | append stem => exact .inl rfl
  | move id => exact .inl rfl
  | take => exact .inr ⟨rfl, rfl⟩
  | refuse => exact .inl rfl
  | add code point =>
    cases htakes : op.takesReg with
    | true => exact .inr ⟨rfl, rfl⟩
    | false => exact .inl rfl
  | finish => exact .inl rfl

/-- Registers are handed out in the order of their numbers, each once; those that a failing
operation has taken are left out. -/
theorem handedOut_sublist (hr : b.nextReg = UInt32.ofNat n) (ops : List Op) :
    (b.handedOut ops).Sublist ((List.range' n (ops.countP Op.takesReg)).map Reg.ofNat) := by
  induction ops generalizing b n with
  | nil => exact List.nil_sublist _
  | cons op ops ih =>
    have hnext : (b.step op).nextReg = UInt32.ofNat (n + op.takesReg.toNat) := by
      rw [nextReg_step, hr, UInt32.ofNat_add]
    have hrest := ih hnext
    have hreg : (⟨b.nextReg⟩ : Reg) = .ofNat n := by rw [hr]; rfl
    cases htakes : op.takesReg with
    | false =>
      rw [htakes] at hrest
      have hnone : b.answered? op = none := by
        rcases b.answered?_cases op with h | ⟨h, -⟩
        · exact h
        · rw [htakes] at h
          cases h
      simpa [handedOut, hnone, htakes] using hrest
    | true =>
      rw [htakes] at hrest
      rw [List.countP_cons_of_pos htakes, List.range'_succ, List.map_cons, handedOut]
      rcases b.answered?_cases op with h | ⟨-, h⟩
      · -- the operation failed, and the number it took is skipped
        rw [h]
        exact hrest.cons _
      · rw [h, hreg]
        exact hrest.cons_cons _

theorem nodup_registers (hn : n < 2 ^ 32) : ((List.range n).map Reg.ofNat).Nodup := by
  refine List.nodup_range.map_on ?_
  intro x hx y hy hxy
  rw [List.mem_range] at hx hy
  exact (Reg.ofNat_inj (by omega) (by omega)).1 hxy

/-- The first `n` registers have been taken, and what is defined is some of them, each once. -/
structure Defines (b : Builder) (n : Nat) : Prop where
  /-- The next register is the one with that number. -/
  nextReg : b.nextReg = UInt32.ofNat n
  /-- Only registers before it are defined. -/
  defined : b.finish.definitions.Subperm ((List.range n).map Reg.ofNat)

/-- Unless it is added as it is, an instruction defines the register that was taken for it. -/
theorem Op.defined?_of_code? {u : Reg} {i : Instruction} (hraw : ∀ i, op ≠ .emit i)
    (h : op.code? u = some i) : i.defined? = if op.takesReg then some u else none := by
  cases op with
  | appendBlock | position | freshReg | terminate => cases h
  | emit i => exact absurd rfl (hraw i)
  | call symbol args ret =>
    cases h
    by_cases hret : ret = .void <;> simp [Instruction.defined?, takesReg, hret]
  | _ =>
    cases h
    rfl

theorem instructions_append (b : Builder) (stem : String) :
    (b.append stem).finish.instructions = b.finish.instructions := by
  obtain ⟨label, hblocks⟩ := b.blocks_append stem
  simp [finish, Function.instructions, hblocks, Block.empty]

theorem definitions_step (hraw : ∀ i, op ≠ .emit i) (b : Builder) :
    (b.step op).finish.definitions.Subperm
      (b.finish.definitions ++ if op.takesReg then [⟨b.nextReg⟩] else []) := by
  have hdoes := op.does b
  have hsame : b.finish.definitions.Subperm
      (b.finish.definitions ++ if op.takesReg then [⟨b.nextReg⟩] else []) :=
    (List.sublist_append_left _ _).subperm
  unfold step
  generalize op.run b = result at hdoes
  cases hdoes with
  | append stem =>
    rw [Function.definitions, instructions_append]
    exact hsame
  | move id => exact hsame
  | take => exact hsame
  | refuse => exact hsame
  | add code point =>
    obtain ⟨id, block, -, rfl, hblock, -⟩ := exists_of_insertionPoint point
    have hlt := (Array.getElem?_eq_some_iff.1 hblock).1
    refine ((instructions_extend hlt _ _).filterMap _).subperm.trans ?_
    rw [List.filterMap_append, List.filterMap_cons, Op.defined?_of_code? hraw code]
    cases op.takesReg with
    | true => exact .refl _
    | false => exact .refl _
  | finish point =>
    obtain ⟨id, block, -, rfl, hblock, -⟩ := exists_of_insertionPoint point
    have hlt := (Array.getElem?_eq_some_iff.1 hblock).1
    rw [Function.definitions, instructions_leave hlt]
    exact hsame

theorem Defines.step (h : b.Defines n) (hraw : ∀ i, op ≠ .emit i) :
    (b.step op).Defines (n + op.takesReg.toNat) := by
  refine ⟨by rw [nextReg_step, h.nextReg, UInt32.ofNat_add], (definitions_step hraw b).trans ?_⟩
  rw [h.nextReg]
  cases op.takesReg with
  | true =>
    rw [Bool.toNat_true, List.range_succ, List.map_append]
    exact (List.subperm_append_right _).2 h.defined
  | false =>
    rw [Bool.toNat_false, Nat.add_zero]
    simpa using h.defined

theorem Defines.after (h : b.Defines n) (hraw : ∀ i, .emit i ∉ ops) :
    (b.after ops).Defines (n + ops.countP Op.takesReg) := by
  induction ops generalizing b n with
  | nil => exact h
  | cons op ops ih =>
    have hop : ∀ i, op ≠ .emit i := by
      rintro i rfl
      exact hraw i List.mem_cons_self
    have hrest := ih (h.step hop) fun i hi => hraw i (List.mem_cons_of_mem _ hi)
    rw [countP_cons_eq_add, ← Nat.add_assoc]
    exact hrest

theorem defines_new (name : String) (ret : Ty) : (new name ret).Defines 0 :=
  ⟨rfl, List.nil_subperm⟩

/-! ## When an operation fails -/

theorem insertionPoint_eq_nowhere_iff (b : Builder) :
    b.insertionPoint = .error .noInsertionPoint ↔
      b.cursor = none ∨ ∃ id, b.cursor = some id ∧ b.blocks[id.toNat]? = none := by
  unfold insertionPoint
  cases hcursor : b.cursor with
  | none => simp
  | some id =>
    cases hblock : b.blocks[id.toNat]? with
    | none => simp [hblock, -getElem?_eq_none_iff]
    | some block =>
      cases hsealed : block.isSealed <;> simp [hblock, hsealed, -getElem?_eq_none_iff]

theorem insertionPoint_eq_blockSealed_iff (b : Builder) (label : String) :
    b.insertionPoint = .error (.blockSealed label) ↔
      ∃ id block, b.cursor = some id ∧ b.blocks[id.toNat]? = some block ∧
        block.isSealed = true ∧ block.label = label := by
  unfold insertionPoint
  cases hcursor : b.cursor with
  | none => simp
  | some id =>
    cases hblock : b.blocks[id.toNat]? with
    | none => simp [hblock]
    | some block => cases hsealed : block.isSealed <;> simp [hblock, hsealed]

theorem insertionPoint_error (he : b.insertionPoint = .error e) :
    e = .noInsertionPoint ∨ ∃ label, e = .blockSealed label := by
  unfold insertionPoint at he
  split at he
  · exact .inl (Except.error.inj he).symm
  · split at he
    · exact .inl (Except.error.inj he).symm
    · split at he
      · exact .inr ⟨_, (Except.error.inj he).symm⟩
      · cases he

/-- An operation fails for want of a block to change, and only so. -/
theorem Op.run_eq_error_iff {b' : Builder} :
    op.run b = .error e b' ↔
      op.needsPoint = true ∧ b.insertionPoint = .error e ∧ b' = b.supply op.takesReg.toNat := by
  constructor
  · intro hrun
    have hdoes := op.does b
    rw [hrun] at hdoes
    cases hdoes with
    | refuse needs nowhere => exact ⟨needs, nowhere, rfl⟩
  · rintro ⟨hneeds, hpoint, rfl⟩
    exact run_refused hneeds hpoint

/-- When an operation fails, how it says so, and what it then leaves behind. -/
structure Op.Guarded (op : Op) (b : Builder) : Prop where
  /-- If it needs a block to change, it has no place to go exactly where the cursor is unset
  or names no block. -/
  nowhere : op.needsPoint = true → ((∃ b', op.run b = .error .noInsertionPoint b') ↔
    b.cursor = none ∨ ∃ id, b.cursor = some id ∧ b.blocks[id.toNat]? = none)
  /-- And it comes too late exactly where the cursor names a block that has its end. -/
  ended : op.needsPoint = true → ∀ label, (∃ b', op.run b = .error (.blockSealed label) b') ↔
    ∃ id block, b.cursor = some id ∧ b.blocks[id.toNat]? = some block ∧
      block.isSealed = true ∧ block.label = label
  /-- It fails in no other way, and not at all if it needs no block to change. -/
  only : ∀ e b', op.run b = .error e b' →
    op.needsPoint = true ∧ (e = .noInsertionPoint ∨ ∃ label, e = .blockSealed label)
  /-- Then the function and the cursor are as before; it can only have used up a register. -/
  kept : ∀ e b', op.run b = .error e b' →
    b'.finish = b.finish ∧ b'.cursor = b.cursor ∧ b' = b.supply op.takesReg.toNat

theorem Op.guarded (op : Op) (b : Builder) : op.Guarded b where
  nowhere := by
    intro hneeds
    rw [← insertionPoint_eq_nowhere_iff]
    simp [run_eq_error_iff, hneeds]
  ended := by
    intro hneeds label
    rw [← insertionPoint_eq_blockSealed_iff]
    simp [run_eq_error_iff, hneeds]
  only := by
    intro e b' hrun
    obtain ⟨hneeds, hpoint, -⟩ := run_eq_error_iff.1 hrun
    exact ⟨hneeds, insertionPoint_error hpoint⟩
  kept := by
    intro e b' hrun
    obtain ⟨-, -, rfl⟩ := run_eq_error_iff.1 hrun
    exact ⟨rfl, rfl, rfl⟩

/-! ## All of it -/

/-- What holds of a builder after some operations, whatever these were. -/
structure Orderly (start : Builder) (ops : List Op) : Prop where
  /-- A block stands where its number says. -/
  numbered : ∀ (j : Nat) (block : Block),
    (start.after ops).blocks[j]? = some block → block.id.toNat = j
  /-- The next block that is made is answered by the number of its place. -/
  answered : ∀ stem, ∃ id b', (Op.appendBlock stem).run (start.after ops) = .ok (.block id) b' ∧
    id.toNat = (start.after ops).blocks.size
  /-- The function starts at its first block. -/
  entry : (start.after ops).finish.entry.toNat = 0
  /-- From here on there are only additions, and none to a block that has its end. -/
  grows : ∀ more, (start.after ops).Grows (start.after (ops ++ more))
  /-- Operations fail for want of a block to change, and change nothing then. -/
  guarded : ∀ op : Op, op.Guarded (start.after ops)
  /-- No register was handed out twice. -/
  distinct : (start.handedOut ops).Nodup
  /-- Unless instructions were added as they are, none is defined twice. -/
  single : (∀ i, .emit i ∉ ops) → (start.after ops).finish.definitions.Nodup

/-- A builder that started without blocks is in order after any operations, as long as the
numbers for blocks and registers last. -/
theorem orderly_new (name : String) (ret : Ty) {ops : List Op}
    (hblocks : ops.countP Op.appends < 2 ^ 32) (hregs : ops.countP Op.takesReg < 2 ^ 32) :
    Orderly (new name ret) ops := by
  have hsize : ((new name ret).after ops).blocks.size = ops.countP Op.appends := by
    rw [size_after]
    exact Nat.zero_add _
  refine ⟨?_, ?_, rfl, ?_, fun op => op.guarded _, ?_, ?_⟩
  · intro j block hblock
    have hj := (Array.getElem?_eq_some_iff.1 hblock).1
    rw [(numbered_new name ret).after ops j block hblock, BlockId.toNat_ofNat (by omega)]
  · intro stem
    exact ⟨_, _, map_of_ok _ (appendBlock_eq_append _ stem), BlockId.toNat_ofNat (by omega)⟩
  · intro more
    rw [after_append]
    exact grows_after _ more
  · have hsub := handedOut_sublist (b := new name ret) (n := 0) rfl ops
    rw [← List.range_eq_range'] at hsub
    exact hsub.nodup (nodup_registers hregs)
  · intro hraw
    have hdefines := (defines_new name ret).after hraw
    rw [Nat.zero_add] at hdefines
    obtain ⟨regs, hperm, hsub⟩ := hdefines.defined
    exact hperm.nodup_iff.1 (hsub.nodup (nodup_registers hregs))

/-- A builder that is asked for code before there is a block, on a number that names none, and
again on a block that has its end. -/
def misuse : List Op :=
  [.const .i8 1, .position ⟨7⟩, .terminate (.ret none), .appendBlock "entry", .position ⟨0⟩,
    .const .i8 2, .freshReg, .terminate (.br ⟨1⟩), .position ⟨0⟩, .add .i8 ⟨1⟩ ⟨1⟩,
    .appendBlock "entry", .position ⟨1⟩, .call "f" [⟨1⟩] .void, .call "g" [] .i8,
    .terminate (.ret none)]

/-- Of the five registers that were taken, two went to operations that failed. -/
theorem orderly_new_misuse :
    misuse.countP Op.appends = 2 ∧ misuse.countP Op.takesReg = 5 ∧
      (new "main" .void).handedOut misuse = [⟨1⟩, ⟨2⟩, ⟨4⟩] ∧
      ((new "main" .void).after misuse).finish.definitions = [⟨1⟩, ⟨4⟩] ∧
      (Op.terminate (.ret none)).run ((new "main" .void).after (misuse.take 9)) =
        .error (.blockSealed "entry") ((new "main" .void).after (misuse.take 9)) ∧
      Orderly (new "main" .void) misuse :=
  ⟨rfl, rfl, by decide, by decide, rfl, orderly_new "main" .void (by decide) (by decide)⟩

end Builder

end TapeFlow
