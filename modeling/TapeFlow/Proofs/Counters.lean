import TapeFlow.Proofs.Building

/-!
# Counters that do not wrap

A builder numbers registers, blocks and labels with words of 32 bits and does not look whether
there is a number left.  It need not: no command uses more than five registers, so a program has
to be longer than any that is read here before a number comes up again.

* `Builder.HasRoom` — no counter comes to its end with an operation; `Builder.checked` — a
  builder that stops where one would, or where an operation fails.
* `Builder.checked_code` — straight-line code that defines the next registers in turn, as
  operations.
* `Nesting.asks`, `Options.asks` — what lowering asks of a builder, for one command and from the
  start of a program.
* `Draft.checked_step`, `Draft.checked_run` — what a draft does is what is asked for.
* `registers` — how many registers a program uses up.
* `lower_registers` — lowering does, token by token, what the checked builder does, and the
  registers defined in the finished function are the first ones.
-/

namespace TapeFlow

open Nesting (bodyBlock afterBlock)

namespace Builder

/-! ## A builder that checks its counters -/

/-- There is a number left for what the operation takes, and for what comes after it. -/
def HasRoom (b : Builder) (op : Op) : Prop :=
  (op.takesReg = true → b.nextReg.toNat + 1 < 2 ^ 32) ∧
    (op.appends = true → b.nextLabel.toNat + 1 < 2 ^ 32 ∧ b.blocks.size < 2 ^ 32)

instance (b : Builder) (op : Op) : Decidable (b.HasRoom op) :=
  inferInstanceAs (Decidable (_ ∧ _))

/-- Do the operations one after the other, as long as there is room and none of them fails. -/
def checked (b : Builder) : List Op → Option Builder
  | [] => some b
  | op :: ops =>
    if b.HasRoom op then
      match op.run b with
      | .ok _ b' => b'.checked ops
      | .error _ _ => none
    else none

variable {b b' : Builder} {op : Op} {a : Answer} {i : Instruction} {k n r : Nat}

theorem checked_cons (hroom : b.HasRoom op) (hrun : op.run b = .ok a b') (ops : List Op) :
    b.checked (op :: ops) = b'.checked ops := by
  simp only [checked, if_pos hroom, hrun]

theorem checked_append {ops : List Op} (h : b.checked ops = some b') (more : List Op) :
    b.checked (ops ++ more) = b'.checked more := by
  induction ops generalizing b with
  | nil =>
    cases h
    rfl
  | cons op ops ih =>
    simp only [List.cons_append, checked] at h ⊢
    split at h
    · rename_i hroom
      rw [if_pos hroom]
      cases hrun : op.run b with
      | ok a next =>
        rw [hrun] at h
        exact ih h
      | error e next =>
        rw [hrun] at h
        cases h
    · cases h

/-! ## Straight-line code -/

/-- The operation that adds an instruction, if the register it defines is the next one. -/
def Op.ofInstruction : Instruction → Op
  | .const _ ty value => .const ty value
  | .alloca _ ty count => .alloca ty count
  | .load _ ty ptr => .load ty ptr
  | .store ty value ptr => .store ty value ptr
  | .gep _ ty base index => .gep ty base index
  | .add _ ty lhs rhs => .add ty lhs rhs
  | .sub _ ty lhs rhs => .sub ty lhs rhs
  | .icmpNe _ ty lhs rhs => .icmpNe ty lhs rhs
  | .call (some _) symbol args => .callValue symbol args
  | .call none symbol args => .call symbol args .void

theorem Op.takesReg_ofInstruction (i : Instruction) :
    (ofInstruction i).takesReg = i.defined?.isSome := by
  cases i with
  | call dst => cases dst <;> rfl
  | _ => rfl

theorem Op.needsPoint_ofInstruction (i : Instruction) : (ofInstruction i).needsPoint = true := by
  cases i with
  | call dst => cases dst <;> rfl
  | _ => rfl

theorem Op.code?_ofInstruction {u : Reg} (h : ∀ v, i.defined? = some v → v = u) :
    (ofInstruction i).code? u = some i := by
  cases i with
  | store => rfl
  | call dst =>
    cases dst with
    | none => rfl
    | some v => rw [← h v rfl]; rfl
  | const dst | alloca dst | load dst | gep dst | add dst | sub dst | icmpNe dst =>
    rw [← h dst rfl]
    rfl

/-- One instruction. -/
theorem Op.run_ofInstruction (hk : b.insertionPoint = .ok k)
    (h : ∀ v, i.defined? = some v → v = ⟨b.nextReg⟩) :
    ∃ a, (ofInstruction i).run b = .ok a (b.extend k [i] i.defined?.isSome.toNat) := by
  have hcode := code?_ofInstruction h
  rcases run_of_point (needsPoint_ofInstruction i) hk with ⟨t, ht, -⟩ | ⟨i', hi', hrun⟩
  · rw [ht] at hcode
    cases hcode
  · cases hcode.symm.trans hi'
    rw [takesReg_ofInstruction] at hrun
    exact ⟨_, hrun⟩

/-- There is room for an instruction if there is for the register it defines. -/
theorem hasRoom_ofInstruction (h : b.nextReg.toNat + i.defined?.isSome.toNat < 2 ^ 32) :
    b.HasRoom (.ofInstruction i) := by
  constructor
  · intro htakes
    rw [Op.takesReg_ofInstruction] at htakes
    rwa [htakes, Bool.toNat_true] at h
  · intro happends
    rw [Op.appends_of_needsPoint (Op.needsPoint_ofInstruction i)] at happends
    cases happends

/-- Code that defines the next registers in turn is added, and there is room for it if there is
for its registers. -/
theorem checked_code {code : List Instruction} (hk : b.insertionPoint = .ok k)
    (hr : b.nextReg = UInt32.ofNat r) (hroom : r + n < 2 ^ 32)
    (hdefined : code.filterMap Instruction.defined? = (List.range' r n).map Reg.ofNat) :
    b.checked (code.map .ofInstruction) = some (b.extend k code n) := by
  induction code generalizing b r n with
  | nil =>
    have hn : n = 0 := by simpa using (congrArg List.length hdefined).symm
    rw [hn, extend_nil]
    rfl
  | cons i code ih =>
    have hlt : r < 2 ^ 32 := by omega
    have hnat : b.nextReg.toNat = r := by rw [hr, UInt32.toNat_ofNat_of_lt' hlt]
    -- the instruction defines the next register or none
    obtain ⟨m, hn, hfirst, hrest⟩ : ∃ m, n = i.defined?.isSome.toNat + m ∧
        (∀ v, i.defined? = some v → v = ⟨b.nextReg⟩) ∧
        code.filterMap Instruction.defined? =
          (List.range' (r + i.defined?.isSome.toNat) m).map Reg.ofNat := by
      cases hi : i.defined? with
      | none =>
        rw [List.filterMap_cons_none hi] at hdefined
        exact ⟨n, (Nat.zero_add n).symm, nofun, hdefined⟩
      | some v =>
        rw [List.filterMap_cons_some hi] at hdefined
        cases n with
        | zero => cases hdefined
        | succ m =>
          rw [List.range'_succ, List.map_cons] at hdefined
          obtain ⟨hv, hcode⟩ := List.cons.inj hdefined
          refine ⟨m, Nat.add_comm m 1, fun u hu => ?_, hcode⟩
          cases hu
          rw [hv, hr]
          rfl
    obtain ⟨a, hrun⟩ := Op.run_ofInstruction hk hfirst
    rw [List.map_cons, checked_cons (hasRoom_ofInstruction (by omega)) hrun,
      ih (insertionPoint_extend hk _ _) (nextReg_extend hr _ _ _) (by omega) hrest,
      extend_extend, hn]
    rfl

/-! ## Blocks and branches -/

theorem hasRoom_of_takes_nothing (htakes : op.takesReg = false) (happends : op.appends = false) :
    b.HasRoom op := by
  simp [HasRoom, htakes, happends]

theorem hasRoom_appendBlock (hlabel : b.nextLabel.toNat + 1 < 2 ^ 32)
    (hsize : b.blocks.size < 2 ^ 32) (stem : String) : b.HasRoom (.appendBlock stem) := by
  refine ⟨fun htakes => ?_, fun _ => ⟨hlabel, hsize⟩⟩
  cases htakes

theorem checked_terminate (hk : b.insertionPoint = .ok k) (t : Terminator) (ops : List Op) :
    b.checked (.terminate t :: ops) = (b.leave k t none).checked ops :=
  checked_cons (hasRoom_of_takes_nothing rfl rfl) (map_of_ok _ (terminate_eq hk t)) ops

theorem checked_position (b : Builder) (id : BlockId) (ops : List Op) :
    b.checked (.position id :: ops) = ({ b with cursor := some id } : Builder).checked ops :=
  checked_cons (hasRoom_of_takes_nothing rfl rfl) rfl ops

/-- The two blocks of a loop. -/
theorem checked_addLoop (hlabel : b.nextLabel.toNat + 2 < 2 ^ 32)
    (hsize : b.blocks.size + 1 < 2 ^ 32) (ops : List Op) :
    b.checked (.appendBlock "loop_body" :: .appendBlock "loop_end" :: ops) =
      b.addLoop.checked ops := by
  have hbody := appendBlock_eq b (show ("loop_body" == "entry") = false by decide)
  have hafter := appendBlock_eq (b.addBlock "loop_body")
    (show ("loop_end" == "entry") = false by decide)
  have hlabel' : (b.addBlock "loop_body").nextLabel.toNat = b.nextLabel.toNat + 1 := by
    have hadd : (b.addBlock "loop_body").nextLabel = b.nextLabel + 1 := rfl
    rw [hadd, UInt32.toNat_add]
    exact Nat.mod_eq_of_lt (by simp; omega)
  rw [checked_cons (hasRoom_appendBlock (by omega) (by omega) _) (map_of_ok _ hbody),
    checked_cons (hasRoom_appendBlock (by omega) (by rw [size_addBlock]; omega) _)
      (map_of_ok _ hafter), addLoop]

end Builder

open Builder (Op)

/-! ## What lowering asks for -/

section

variable (symbols : Symbols) (layout : TapeLayout)

/-- What a bracket asks of a builder behind its test, if `r` is the first register of that:
blocks and a branch. -/
def Nesting.asksBranch (s : Nesting) (r : Nat) (c : Command) : List Op :=
  let branch := Op.terminate (loopBranch (.ofNat (r + 4)) (s.loopOf c))
  match c with
  | .loopOpen => [.appendBlock "loop_body", .appendBlock "loop_end", branch,
      .position (.ofNat (bodyBlock (s.loopOf c)))]
  | .loopClose => [branch, .position (.ofNat (afterBlock (s.loopOf c)))]
  | _ => []

/-- What a command asks of a builder, if `r` is the next register. -/
def Nesting.asks (s : Nesting) (r : Nat) (c : Command) : List Op :=
  (c.code layout symbols r).map .ofInstruction ++ s.asksBranch r c

/-- What some commands ask of a builder, one after the other. -/
def Nesting.asksAll (s : Nesting) (r : Nat) : List Command → List Op
  | [] => []
  | c :: cs =>
    s.asks symbols layout r c ++ ((s.step c).elim [] fun t => t.asksAll (r + c.regs) cs)

end

/-- What is asked of a builder from its start to the end of some commands: the first block, the
code that sets up the tape, and what the commands ask. -/
def Options.asks (options : Options) (cs : List Command) : List Op :=
  .appendBlock "entry" :: .position (.ofNat 0) ::
    ((TapeLayout.setUpCode options.symbols options.cellCount).map .ofInstruction ++
      ({} : Nesting).asksAll options.symbols (tapeLayout options) 5 cs)

/-- What the end of the program asks, if `r` is the next register: that zero is returned. -/
def asksReturn (r : Nat) : List Op := [.const .i32 0, .terminate (.ret (some (.ofNat r)))]

namespace Draft

variable {symbols : Symbols} {layout : TapeLayout} {d e : Draft} {c : Command} {cs : List Command}

/-- Only opening brackets use up labels, two each. -/
theorem nextLabel_step (hlabel : d.builder.nextLabel = UInt32.ofNat (2 * d.nesting.opened))
    (h : d.step symbols layout c = some e) :
    e.builder.nextLabel = UInt32.ofNat (2 * e.nesting.opened) := by
  obtain ⟨hs, hb, -⟩ := step_eq_some h
  rw [hb]
  obtain ⟨hc, hsame⟩ | ⟨rfl, hnew⟩ | ⟨rfl, loop, rest, -, hnew⟩ := Nesting.step_cases hs
  · rw [afterCommand_straight d hc, hsame]
    exact hlabel
  · have htwo : (d.afterCommand symbols layout .loopOpen e.nesting.current).nextLabel =
        d.builder.nextLabel + 1 + 1 := rfl
    rw [htwo, hlabel, hnew, UInt32.add_assoc, Nat.mul_add, UInt32.ofNat_add]
    rfl
  · rw [hnew]
    exact hlabel

/-- A command does what is asked for it, and there is room if there is for its registers and
for the blocks made so far. -/
theorem checked_step (hd : d.Fits)
    (hlabel : d.builder.nextLabel = UInt32.ofNat (2 * d.nesting.opened))
    (h : d.step symbols layout c = some e) (hregs : e.regs < 2 ^ 32)
    (hopened : 2 * e.nesting.opened < 2 ^ 32) :
    d.builder.checked (d.nesting.asks symbols layout d.regs c) = some e.builder := by
  obtain ⟨hs, hb, hr⟩ := step_eq_some h
  have hcount := Nesting.opened_step hs
  have hpoint := hd.insertionPoint (by omega)
  have hcode : d.builder.checked ((c.code layout symbols d.regs).map .ofInstruction) =
      some (d.afterCode symbols layout c) :=
    Builder.checked_code hpoint hd.nextReg (by omega) (c.defined_code layout symbols d.regs)
  have hpoint' : (d.afterCode symbols layout c).insertionPoint = .ok d.nesting.current :=
    Builder.insertionPoint_extend hpoint _ _
  rw [Nesting.asks, Builder.checked_append hcode, hb]
  obtain ⟨hc, -⟩ | ⟨rfl, hnew⟩ | ⟨rfl, loop, rest, hstack, hnew⟩ := Nesting.step_cases hs
  · rw [afterCommand_straight d hc]
    cases c with
    | loopOpen | loopClose => cases hc
    | _ => rfl
  · have hsize : (d.afterCode symbols layout .loopOpen).blocks.size = 1 + 2 * d.nesting.opened := by
      rw [afterCode, Builder.size_extend, hd.size]
    have hlabels : (d.afterCode symbols layout .loopOpen).nextLabel.toNat =
        2 * d.nesting.opened := by
      have hsame : (d.afterCode symbols layout .loopOpen).nextLabel = d.builder.nextLabel := rfl
      have hlt : 2 * d.nesting.opened < 2 ^ 32 := by omega
      rw [hsame, hlabel, UInt32.toNat_ofNat_of_lt' hlt]
    have hopen : 2 * d.nesting.opened + 2 < 2 ^ 32 := by
      rw [hnew] at hopened
      exact hopened
    simp only [Nesting.asksBranch, Nesting.loopOf]
    rw [Builder.checked_addLoop (by omega) (by omega),
      Builder.checked_terminate (Builder.insertionPoint_addLoop hpoint'), Builder.checked_position,
      hnew]
    rfl
  · simp only [Nesting.asksBranch, Nesting.loopOf, hstack, List.headD_cons]
    rw [Builder.checked_terminate hpoint', Builder.checked_position, hnew]
    simp only [afterCommand, Nesting.loopOf, hstack, List.headD_cons]
    rfl

/-- Commands do what is asked for them. -/
theorem checked_run (hd : d.Fits)
    (hlabel : d.builder.nextLabel = UInt32.ofNat (2 * d.nesting.opened))
    (h : d.run symbols layout cs = some e) (hregs : e.regs < 2 ^ 32)
    (hopened : 2 * e.nesting.opened < 2 ^ 32) :
    d.builder.checked (d.nesting.asksAll symbols layout d.regs cs) = some e.builder := by
  induction cs generalizing d with
  | nil =>
    cases h
    rfl
  | cons c cs ih =>
    rw [run_cons] at h
    obtain ⟨d', hd', hrun⟩ := Option.bind_eq_some_iff.1 h
    obtain ⟨hs, -, hr⟩ := step_eq_some hd'
    have hmore := (regs_run hrun).1
    have hopened' := Nesting.opened_run (nesting_run hrun)
    have hstep := checked_step hd hlabel hd' (by omega) (by omega)
    have hrest := ih (hd.step hd') (nextLabel_step hlabel hd') hrun
    rw [hr] at hrest
    rw [Nesting.asksAll, Builder.checked_append hstep, hs]
    exact hrest

theorem checked_asks {options : Options}
    (h : (Draft.start options).run options.symbols (tapeLayout options) cs = some e)
    (hregs : e.regs < 2 ^ 32) (hopened : 2 * e.nesting.opened < 2 ^ 32) :
    (Builder.new options.entryName .i32).checked (options.asks cs) = some e.builder := by
  have hentry : (Op.appendBlock "entry").run (.new options.entryName .i32) =
      .ok (.block (.ofNat 0)) { Builder.entry options.entryName with cursor := none } := rfl
  have hsetUp : (Builder.entry options.entryName).checked
      ((TapeLayout.setUpCode options.symbols options.cellCount).map .ofInstruction) =
      some (Draft.start options).builder :=
    Builder.checked_code (r := 0) (n := 5) rfl rfl (by decide) rfl
  have hroom : (Builder.new options.entryName .i32).HasRoom (.appendBlock "entry") := by
    apply Builder.hasRoom_appendBlock
    · show 0 + 1 < 2 ^ 32
      decide
    · show 0 < 2 ^ 32
      decide
  rw [Options.asks, Builder.checked_cons hroom hentry, Builder.checked_position]
  refine (Builder.checked_append hsetUp _).trans ?_
  exact checked_run (fits_start options) rfl h hregs hopened

theorem checked_asksReturn (hd : d.Fits) (hregs : d.regs + 1 < 2 ^ 32)
    (hopened : 2 * d.nesting.opened < 2 ^ 32) :
    d.builder.checked (asksReturn d.regs) = some d.finished := by
  have hpoint := hd.insertionPoint hopened
  have hdefined : [Instruction.const (.ofNat d.regs) .i32 0].filterMap Instruction.defined? =
      (List.range' d.regs 1).map Reg.ofNat := rfl
  have hconst := Builder.checked_code hpoint hd.nextReg hregs hdefined
  refine (Builder.checked_append hconst [.terminate _]).trans ?_
  rw [Builder.checked_terminate (Builder.insertionPoint_extend hpoint _ _)]
  rfl

end Draft

/-! ## How many registers there are -/

/-- The registers that lowering uses up: six for the tape and the result, and those of each
command. -/
def registers (cs : List Command) : Nat :=
  6 + 3 * (cs.count .right + cs.count .left) + 5 * (cs.count .increment + cs.count .decrement) +
    4 * cs.count .output + 3 * cs.count .input + 5 * (cs.count .loopOpen + cs.count .loopClose)

theorem registers_cons (c : Command) (cs : List Command) :
    registers (c :: cs) = c.regs + registers cs := by
  cases c <;> simp [registers, Command.regs] <;> omega

theorem registers_le (cs : List Command) : registers cs ≤ 6 + 5 * cs.length := by
  induction cs with
  | nil => exact Nat.le_refl 6
  | cons c cs ih =>
    have hc := c.regs_le
    rw [registers_cons, List.length_cons]
    omega

theorem Draft.regs_eq {symbols : Symbols} {layout : TapeLayout} {d e : Draft} {cs : List Command}
    (h : d.run symbols layout cs = some e) : e.regs + 6 = d.regs + registers cs := by
  induction cs generalizing d with
  | nil =>
    cases h
    rfl
  | cons c cs ih =>
    rw [run_cons] at h
    obtain ⟨d', hd', hrun⟩ := Option.bind_eq_some_iff.1 h
    have hstep := (step_eq_some hd').2.2
    have hrest := ih hrun
    rw [registers_cons]
    omega

theorem Reg.below_iff {n : Nat} (hn : n < 2 ^ 32) {u : Reg} : u.Below n ↔ u.index.toNat < n := by
  constructor
  · rintro ⟨k, hk, rfl⟩
    have hlt : k < 2 ^ 32 := by omega
    rwa [Reg.ofNat, UInt32.toNat_ofNat_of_lt' hlt]
  · intro hlt
    refine ⟨u.index.toNat, hlt, ?_⟩
    rw [Reg.ofNat, UInt32.ofNat_toNat]

/-- A program of this length leaves room in all counters. -/
theorem Draft.room_of_run {options : Options} {cs : List Command} {e : Draft}
    (h : (Draft.start options).run options.symbols (tapeLayout options) cs = some e)
    (hsmall : cs.length ≤ 858993457) :
    e.regs + 1 = registers cs ∧ registers cs < 2 ^ 32 ∧ 2 * e.nesting.opened < 2 ^ 32 := by
  have hstart : (Draft.start options).regs = 5 ∧ (Draft.start options).nesting.opened = 0 :=
    ⟨rfl, rfl⟩
  have hregs := regs_eq h
  have hopened := Nesting.opened_run (nesting_run h)
  have htotal := registers_le cs
  have hloops := List.count_le_length (a := Command.loopOpen) (l := cs)
  omega

/-- The pass up to some token: it does what is asked for. -/
theorem Lower.exists_checked {options : Options} (hcells : options.cellCount.toNat < 2 ^ 63)
    {ts : List Token} {e : Draft}
    (h : (Draft.start options).run options.symbols (tapeLayout options) (ts.map Token.command) =
      some e) (hsmall : ts.length ≤ 858993457) :
    ∃ p, (build (prologue options) >>= fun layout => tokens options.symbols layout ts)
        (.start options) = .ok () p ∧
      (Builder.new options.entryName .i32).checked (options.asks (ts.map Token.command)) =
        some p.builder := by
  rw [← List.length_map Token.command] at hsmall
  obtain ⟨hregs, htotal, hopened⟩ := Draft.room_of_run h hsmall
  have hloops := List.count_le_length (a := Command.loopOpen) (l := ts.map Token.command)
  have hnone : (Draft.start options).nesting.opened = 0 := rfl
  have hpro := build_of_ok (p := .start options) (prologue_eq options hcells)
  obtain ⟨p, hp, htrack⟩ := tokens_of_run (Draft.fits_start options) (by omega)
    (Pass.tracks_start options) h
  refine ⟨p, (bind_of_ok hpro).trans hp, ?_⟩
  rw [htrack.builder]
  exact Draft.checked_asks h (by omega) hopened

/-- Where the brackets match and the program is not too long, the pass asks a builder for nothing
that it has no number left for: after every token it has what a builder with checks has, and so at
the end.  The registers defined in the finished function are the first ones, without a gap. -/
theorem lower_registers {options : Options} {source : Source} (hbal : Balanced source.commands)
    (hsmall : source.commands.length ≤ 858993457) (hcells : options.cellCount.toNat < 2 ^ 63) :
    (∀ read rest, (Scanner.ofSource source).tokens = read ++ rest →
      ∃ p, (do let layout ← Lower.build (Lower.prologue options)
               Lower.tokens options.symbols layout read : Lower Unit) (.start options) = .ok () p ∧
        (Builder.new options.entryName .i32).checked (options.asks (read.map Token.command)) =
          some p.builder) ∧
    ∃ pass, Lower.program options (.ofSource source) (.start options) = .ok () pass ∧
      (lower options (.ofSource source)).1 = .ok (⟨options.moduleName,
        options.symbols.declarations, [pass.builder.finish]⟩, pass.tally) ∧
      (Builder.new options.entryName .i32).checked (options.asks source.commands ++
        asksReturn (registers source.commands - 1)) = some pass.builder ∧
      pass.builder.finish.definitions.Nodup ∧
      ∀ r : Reg, r ∈ pass.builder.finish.definitions ↔
        r.index.toNat < registers source.commands := by
  have hcommands := Scanner.commands_ofSource source
  obtain ⟨s, hs⟩ := Nesting.exists_run (s := (Draft.start options).nesting) hbal.nested
  constructor
  · intro read rest htokens
    have hsplit : source.commands = read.map Token.command ++ rest.map Token.command := by
      rw [← hcommands, Scanner.commands, htokens, List.map_append]
    rw [hsplit, Nesting.run_append] at hs
    obtain ⟨t, ht, -⟩ := Option.bind_eq_some_iff.1 hs
    obtain ⟨e, he, -⟩ := Draft.exists_run options.symbols (tapeLayout options) ht
    refine Lower.exists_checked hcells he ?_
    rw [hsplit, List.length_append, List.length_map] at hsmall
    omega
  · obtain ⟨e, he, rfl⟩ := Draft.exists_run options.symbols (tapeLayout options) hs
    obtain ⟨hregs, htotal, hopened⟩ := Draft.room_of_run he hsmall
    have hdone : e.nesting.stack = [] := by
      have hlen := Nesting.length_stack_run hs
      have hclosed := hbal.closed
      have hnone : (Draft.start options).nesting.stack.length = 0 := rfl
      exact List.length_eq_zero_iff.1 (by omega)
    have hloops := List.count_le_length (a := Command.loopOpen) (l := source.commands)
    obtain ⟨pass, hpass, hbuilder⟩ := program_eq_ok hcells (by rw [hcommands]; omega)
      (by rw [hcommands]; exact he) hdone
    have hallocates := (Draft.allocates_finished he).defined
    rw [hregs] at hallocates
    refine ⟨pass, hpass, by rw [lower, hpass], ?_, ?_, ?_⟩
    · have hlast : registers source.commands - 1 = e.regs := by omega
      rw [Builder.checked_append (Draft.checked_asks he (by omega) hopened), hlast, hbuilder]
      exact Draft.checked_asksReturn ((Draft.fits_start options).run he) (by omega) hopened
    · rw [hbuilder]
      exact hallocates.nodup_iff.2 (Builder.nodup_registers htotal)
    · intro r
      rw [hbuilder, ← Reg.below_iff htotal]
      refine hallocates.mem_iff.trans ?_
      simp [Reg.Below, eq_comm]

/-- A program with every command in it, at its end and where its loop is still open. -/
theorem lower_registers_every_command :
    let source : Source := [43, 91, 62, 44, 46, 60, 45, 93]
    let read := (Scanner.ofSource source).tokens.take 3
    Balanced source.commands ∧ source.commands.length ≤ 858993457 ∧
      ({} : Options).cellCount.toNat < 2 ^ 63 ∧
      (∃ p, (do let layout ← Lower.build (Lower.prologue {})
                Lower.tokens {} layout read : Lower Unit) (.start {}) = .ok () p ∧
        (Builder.new "main" .i32).checked (({} : Options).asks (read.map Token.command)) =
          some p.builder) ∧
      ∃ pass, Lower.program {} (.ofSource source) (.start {}) = .ok () pass ∧
        (Builder.new "main" .i32).checked (({} : Options).asks source.commands ++ asksReturn 38) =
          some pass.builder ∧
        ∀ r : Reg, r ∈ pass.builder.finish.definitions ↔ r.index.toNat < 39 := by
  intro source read
  have hbal : Balanced source.commands := by decide
  have hsmall : source.commands.length ≤ 858993457 := by decide
  have hcells : ({} : Options).cellCount.toNat < 2 ^ 63 := by decide
  have hregs : registers source.commands = 39 := by decide
  obtain ⟨hbefore, pass, hpass, -, hchecked, -, hdefined⟩ := lower_registers hbal hsmall hcells
  rw [hregs] at hchecked hdefined
  have hopen := hbefore read _ (List.take_append_drop 3 _).symm
  exact ⟨hbal, hsmall, hcells, hopen, pass, hpass, hchecked, hdefined⟩

end TapeFlow
