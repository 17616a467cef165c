import TapeFlow.Proofs.Lowering
import TapeFlow.Proofs.Symbols

/-!
# The registers of a lowered function

Registers are handed out one after the other, so together the instructions of a
function define each register below the next free one exactly once, and read no
other.  The blocks are not filled in the order of the program, so this is said
of the instructions up to their order.

* `Fragment` — code that defines the next registers in turn and reads only
  registers up to those.
* `Allocates` — code that, in some order, defines all registers below a number.
* `Draft.instructions_step` — a command adds its code to the function.
* `Draft.allocates_finished` — the instructions of a finished draft allocate.
-/

namespace TapeFlow

/-- A register with a number below `n`. -/
def Reg.Below (n : Nat) (u : Reg) : Prop := ∃ k, k < n ∧ u = .ofNat k

theorem Reg.below_ofNat {k n : Nat} (h : k < n) : Reg.Below n (.ofNat k) := ⟨k, h, rfl⟩

theorem Reg.Below.mono {m n : Nat} {u : Reg} (h : u.Below m) (hmn : m ≤ n) : u.Below n := by
  obtain ⟨k, hk, rfl⟩ := h
  exact below_ofNat (Nat.lt_of_lt_of_le hk hmn)

namespace Instruction

/-- If the instruction is a call, it is one of a capability, with its arguments. -/
def CallsOf (symbols : Symbols) : Instruction → Prop
  | call _ symbol args =>
    ∃ c : Capability, symbol = symbols.nameOf c ∧ args.length = c.signature.params.length
  | _ => True

/-- What every instruction of a lowered function is like. -/
structure InOrder (symbols : Symbols) (n : Nat) (i : Instruction) : Prop where
  /-- It reads only registers below `n`. -/
  used : ∀ u ∈ i.used, u.Below n
  /-- It calls only capabilities. -/
  calls : i.CallsOf symbols

theorem InOrder.mono {symbols : Symbols} {m n : Nat} {i : Instruction}
    (h : i.InOrder symbols m) (hmn : m ≤ n) : i.InOrder symbols n :=
  ⟨fun u hu => (h.used u hu).mono hmn, h.calls⟩

theorem inOrder_iff {symbols : Symbols} {n : Nat} {i : Instruction} :
    i.InOrder symbols n ↔ (∀ u ∈ i.used, u.Below n) ∧ i.CallsOf symbols :=
  ⟨fun h => ⟨h.used, h.calls⟩, fun h => ⟨h.1, h.2⟩⟩

end Instruction

/-- Code that defines the `n` registers from `r` on, in turn. -/
structure Fragment (symbols : Symbols) (r n : Nat) (code : List Instruction) : Prop where
  /-- The registers it defines. -/
  defined : code.filterMap Instruction.defined? = (List.range' r n).map Reg.ofNat
  /-- It reads nothing that comes after these. -/
  inOrder : ∀ i ∈ code, i.InOrder symbols (r + n)

/-- Code that defines the registers below `n`, in any order. -/
structure Allocates (symbols : Symbols) (n : Nat) (code : List Instruction) : Prop where
  /-- Each is defined, and once. -/
  defined : (code.filterMap Instruction.defined?).Perm ((List.range n).map Reg.ofNat)
  /-- It reads no other. -/
  inOrder : ∀ i ∈ code, i.InOrder symbols n

section

variable {symbols : Symbols} {m n r : Nat} {code code' : List Instruction}

theorem Allocates.append (h : Allocates symbols n code) (h' : Fragment symbols n m code') :
    Allocates symbols (n + m) (code ++ code') := by
  refine ⟨?_, fun i hi => ?_⟩
  · rw [List.filterMap_append, h'.defined, List.range_add, List.map_append, List.range'_eq_map_range]
    exact h.defined.append_right _
  · rcases List.mem_append.1 hi with hi | hi
    · exact (h.inOrder i hi).mono (by omega)
    · exact h'.inOrder i hi

theorem Allocates.of_perm (h : Allocates symbols n code) (hperm : code'.Perm code) :
    Allocates symbols n code' :=
  ⟨(hperm.filterMap _).trans h.defined, fun i hi => h.inOrder i (hperm.mem_iff.1 hi)⟩

/-- The code of a command defines the next registers in turn. -/
theorem Command.defined_code (layout : TapeLayout) (symbols : Symbols) (r : Nat) (c : Command) :
    (c.code layout symbols r).filterMap Instruction.defined? =
      (List.range' r c.regs).map Reg.ofNat := by
  cases c <;> rfl

/-- The code of a command, with the tape set up in earlier registers. -/
theorem Command.fragment_code (symbols : Symbols) {layout : TapeLayout}
    (htape : layout.tape.Below r) (hslot : layout.slot.Below r) (c : Command) :
    Fragment symbols r c.regs (c.code layout symbols r) := by
  have hread : ∃ d : Capability, symbols.readByte = symbols.nameOf d ∧
      0 = d.signature.params.length := ⟨.readByte, rfl, rfl⟩
  have hwrite : ∃ d : Capability, symbols.writeByte = symbols.nameOf d ∧
      1 = d.signature.params.length := ⟨.writeByte, rfl, rfl⟩
  refine ⟨c.defined_code layout symbols r, ?_⟩
  cases c <;> simp (disch := omega) [Command.code, Command.regs, TapeLayout.moveCode,
    TapeLayout.testCode, TapeLayout.changeCode, TapeLayout.writeCode, TapeLayout.readCode,
    TapeLayout.cellCode, TapeLayout.addressCode, Instruction.inOrder_iff, Instruction.used,
    Instruction.CallsOf, Reg.below_ofNat, htape.mono, hslot.mono, hread, hwrite]

/-- The code that sets up the tape uses the first five registers. -/
theorem TapeLayout.allocates_setUpCode (symbols : Symbols) (cellCount : UInt64) :
    Allocates symbols 5 (setUpCode symbols cellCount) := by
  have hfill : ∃ d : Capability, symbols.fill = symbols.nameOf d ∧
      3 = d.signature.params.length := ⟨.fill, rfl, rfl⟩
  refine ⟨.of_eq rfl, ?_⟩
  simp [setUpCode, Instruction.inOrder_iff, Instruction.used, Instruction.CallsOf,
    Reg.below_ofNat, hfill]

end

/-! ## The instructions of a draft -/

namespace Builder

variable {b : Builder} {i : Nat} {block : Block}

/-- Changing one block changes its part of the instructions. -/
theorem instructions_modify (hblock : b.blocks[i]? = some block) (change : Block → Block) :
    ∃ before after, b.finish.instructions = before ++ block.instructions.toList ++ after ∧
      (b.blocks.modify i change).toList.flatMap (fun x => x.instructions.toList) =
        before ++ (change block).instructions.toList ++ after := by
  obtain ⟨hlt, rfl⟩ := Array.getElem?_eq_some_iff.1 hblock
  have hlt' : i < b.blocks.toList.length := by simpa using hlt
  refine ⟨(b.blocks.toList.take i).flatMap fun x => x.instructions.toList,
    (b.blocks.toList.drop (i + 1)).flatMap fun x => x.instructions.toList, ?_, ?_⟩
  · rw [finish, Function.instructions]
    conv_lhs => rw [← List.take_append_drop i b.blocks.toList, List.drop_eq_getElem_cons hlt']
    simp
  · rw [Array.toList_modify, List.modify_eq_take_cons_drop hlt']
    simp

theorem instructions_extend (hi : i < b.blocks.size) (code : List Instruction) (regs : Nat) :
    (b.extend i code regs).finish.instructions.Perm (b.finish.instructions ++ code) := by
  obtain ⟨before, after, hold, hnew⟩ :=
    instructions_modify (Array.getElem?_eq_getElem hi) fun block => block.extend code
  rw [hold]
  refine (List.Perm.of_eq hnew).trans ?_
  rw [Block.extend, Array.toList_append, ← List.append_assoc, List.append_assoc _ code,
    List.append_assoc _ after]
  exact List.perm_append_comm.append_left _

theorem instructions_leave (hi : i < b.blocks.size) (t : Terminator) (next : Option BlockId) :
    (b.leave i t next).finish.instructions = b.finish.instructions := by
  obtain ⟨before, after, hold, hnew⟩ :=
    instructions_modify (Array.getElem?_eq_getElem hi) fun block => block.finish t
  rw [hold]
  exact hnew

theorem instructions_addLoop (b : Builder) : b.addLoop.finish.instructions = b.finish.instructions := by
  simp [addLoop, addBlock, finish, Function.instructions, Block.empty]

end Builder

namespace Draft

variable {symbols : Symbols} {layout : TapeLayout} {d e : Draft}

/-- A command adds its code, somewhere. -/
theorem instructions_step (hd : d.Fits) {c : Command} (h : d.step symbols layout c = some e) :
    e.builder.finish.instructions.Perm
      (d.builder.finish.instructions ++ c.code layout symbols d.regs) := by
  have hlt := hd.current_lt
  have hcode := Builder.instructions_extend hlt (c.code layout symbols d.regs) c.regs
  have hsize : (d.afterCode symbols layout c).blocks.size = d.builder.blocks.size :=
    Builder.size_extend ..
  obtain ⟨hs, hb, -⟩ := step_eq_some h
  rw [hb]
  obtain ⟨hc, -⟩ | ⟨rfl, -⟩ | ⟨rfl, -⟩ := Nesting.step_cases hs
  · rw [afterCommand_straight d hc]
    exact hcode
  · simp only [afterCommand]
    rw [Builder.instructions_leave (by rw [Builder.size_addLoop]; omega),
      Builder.instructions_addLoop]
    exact hcode
  · simp only [afterCommand]
    rw [Builder.instructions_leave (by omega)]
    exact hcode

theorem allocates_run (hd : d.Fits) (htape : layout.tape.Below d.regs)
    (hslot : layout.slot.Below d.regs)
    (halloc : Allocates symbols d.regs d.builder.finish.instructions) {cs : List Command}
    (h : d.run symbols layout cs = some e) :
    Allocates symbols e.regs e.builder.finish.instructions := by
  induction cs generalizing d with
  | nil => cases h; exact halloc
  | cons c cs ih =>
    rw [run_cons] at h
    obtain ⟨d', hd', hr⟩ := Option.bind_eq_some_iff.1 h
    have hregs := (step_eq_some hd').2.2
    refine ih (hd.step hd') (htape.mono (by omega)) (hslot.mono (by omega)) ?_ hr
    rw [hregs]
    exact (halloc.append (c.fragment_code symbols htape hslot)).of_perm (instructions_step hd hd')

theorem instructions_finished (hd : d.Fits) : d.finished.finish.instructions.Perm
    (d.builder.finish.instructions ++ [.const (.ofNat d.regs) .i32 0]) := by
  have hlt := hd.current_lt
  rw [finished, Builder.instructions_leave (by rw [Builder.size_extend]; exact hlt)]
  exact Builder.instructions_extend hlt _ _

/-- The instructions of a finished draft define each register once and read no
register that they do not define. -/
theorem allocates_finished {options : Options} {cs : List Command}
    (h : (Draft.start options).run options.symbols (tapeLayout options) cs = some e) :
    Allocates options.symbols (e.regs + 1) e.finished.finish.instructions := by
  have hstart : Allocates options.symbols (Draft.start options).regs
      (Draft.start options).builder.finish.instructions :=
    (TapeLayout.allocates_setUpCode _ _).of_perm
      (Builder.instructions_extend (Nat.lt_succ_self 0) _ _)
  have htape : (tapeLayout options).tape.Below (Draft.start options).regs :=
    Reg.below_ofNat (show 0 < 5 by decide)
  have hslot : (tapeLayout options).slot.Below (Draft.start options).regs :=
    Reg.below_ofNat (show 1 < 5 by decide)
  have hrun := allocates_run (fits_start options) htape hslot hstart h
  have hresult : Fragment options.symbols e.regs 1 [.const (.ofNat e.regs) .i32 0] := by
    refine ⟨rfl, ?_⟩
    simp [Instruction.inOrder_iff, Instruction.used, Instruction.CallsOf]
  exact (hrun.append hresult).of_perm (instructions_finished ((fits_start options).run h))

namespace Completes

variable {options : Options} {cs : List Command}

theorem allocates (h : e.Completes options cs) :
    Allocates options.symbols (e.regs + 1) e.finished.finish.instructions :=
  allocates_finished h.run

theorem mem_definitions (h : e.Completes options cs) {u : Reg} (hu : u.Below (e.regs + 1)) :
    u ∈ e.finished.finish.definitions := by
  obtain ⟨k, hk, rfl⟩ := hu
  exact h.allocates.defined.mem_iff.2 (List.mem_map_of_mem (List.mem_range.2 hk))

/-- No register is defined twice: there are fewer than can be numbered. -/
theorem nodup_definitions (h : e.Completes options cs) :
    e.finished.finish.definitions.Nodup := by
  refine h.allocates.defined.nodup_iff.2 (List.nodup_range.map_on ?_)
  intro k hk l hl hkl
  have hregs := (regs_run h.run).2
  have hstart : (Draft.start options).regs = 5 := rfl
  have hsmall := h.small
  rw [List.mem_range] at hk hl
  exact (Reg.ofNat_inj (by omega) (by omega)).1 hkl

end Completes

end Draft

end TapeFlow
