import TapeFlow.Proofs.Draft

/-!
# The pass follows the drafts

The pass over the tokens of a source does to its builder what `Draft` says, as
long as there are few enough blocks to be numbered.

* `Pass.Tracks` — a pass has the builder of a draft, and its open loops are those
  of the draft's nesting, with the offsets of their brackets.
* `Lower.tokens_of_run` — where the draft can be read to the end, so can the
  tokens, and the pass still tracks the draft.
* `Lower.tokens_of_refused` — where it cannot, the pass stops at the closing
  bracket with nothing to close and names its offset.
* `lower_eq_ok`, `lower_eq_unterminated`, `lower_eq_unexpected`,
  `lower_eq_invalid` — the four ways in which lowering ends.
-/

namespace TapeFlow

open Nesting (bodyBlock afterBlock)

/-! ## Brackets in the builder -/

theorem appendBlock_eq (b : Builder) {stem : String} (hstem : (stem == "entry") = false) :
    Build.appendBlock stem b = .ok (.ofNat b.blocks.size) (b.addBlock stem) := by
  simp only [Build.appendBlock, hstem, Bool.and_false, Bool.false_eq_true, if_false]
  rfl

theorem terminate_eq {b : Builder} {i : Nat} (hi : b.insertionPoint = .ok i) (t : Terminator) :
    Build.terminate t b = .ok () (b.leave i t none) := by
  have hchange : Build.change (fun block => block.finish t) b =
      .ok () { b with blocks := b.blocks.modify i fun block => block.finish t } := by
    rw [Build.change, hi]
  exact bind_of_ok hchange

theorem Builder.insertionPoint_addLoop {b : Builder} {i : Nat} (hi : b.insertionPoint = .ok i) :
    b.addLoop.insertionPoint = .ok i := by
  obtain ⟨id, block, hid, rfl, hblock, hopen⟩ := exists_of_insertionPoint hi
  refine insertionPoint_eq_ok hid ?_ hopen
  rw [getElem?_addLoop_of_lt (Array.getElem?_eq_some_iff.1 hblock).1, hblock]

theorem openLoop_eq (layout : TapeLayout) {b : Builder} {i r : Nat}
    (hi : b.insertionPoint = .ok i) (hr : b.nextReg = UInt32.ofNat r) :
    layout.openLoop b = .ok (.ofNat b.blocks.size, .ofNat (b.blocks.size + 1))
      ((b.extend i (layout.testCode r) 5).addLoop.leave i (.condBr (.ofNat (r + 4))
        (.ofNat b.blocks.size) (.ofNat (b.blocks.size + 1))) (some (.ofNat b.blocks.size))) := by
  have hcond := emits_cellNonzero layout r b i hi hr
  have hi' := Builder.insertionPoint_addLoop
    (Builder.insertionPoint_extend hi (layout.testCode r) 5)
  have hbody := appendBlock_eq (b.extend i (layout.testCode r) 5)
    (show ("loop_body" == "entry") = false by decide)
  have hafter := appendBlock_eq ((b.extend i (layout.testCode r) 5).addBlock "loop_body")
    (show ("loop_end" == "entry") = false by decide)
  rw [Builder.size_extend] at hbody
  rw [Builder.size_addBlock, Builder.size_extend] at hafter
  rw [TapeLayout.openLoop, bind_of_ok hcond, bind_of_ok hbody, bind_of_ok hafter]
  exact (bind_of_ok (terminate_eq hi' _)).trans rfl

theorem closeLoop_eq (layout : TapeLayout) (frame : LoopFrame) {b : Builder} {i r : Nat}
    (hi : b.insertionPoint = .ok i) (hr : b.nextReg = UInt32.ofNat r) :
    layout.closeLoop frame b = .ok () ((b.extend i (layout.testCode r) 5).leave i
      (.condBr (.ofNat (r + 4)) frame.body frame.after) (some frame.after)) := by
  have hcond := emits_cellNonzero layout r b i hi hr
  have hi' := Builder.insertionPoint_extend hi (layout.testCode r) 5
  rw [TapeLayout.closeLoop, bind_of_ok hcond, bind_of_ok (terminate_eq hi' _)]
  rfl

/-! ## One token -/

/-- The offsets of the opening brackets, so that the `k`-th is that of loop `k`. -/
def openOffsets (ts : List Token) : List Nat :=
  (ts.filter fun t => t.command == .loopOpen).map Token.offset

/-- The frame of a loop, given the offsets of the opening brackets. -/
def loopFrame (offsets : List Nat) (loop : Nat) : LoopFrame :=
  ⟨.ofNat (bodyBlock loop), .ofNat (afterBlock loop), offsets.getD loop 0⟩

/-- A pass that has read these tokens stands where the draft stands. -/
structure Pass.Tracks (p : Pass) (read : List Token) (d : Draft) : Prop where
  /-- They have the same function under construction. -/
  builder : p.builder = d.builder
  /-- The frames are those of the open loops. -/
  frames : p.loops.frames = ((d.nesting.stack.map (loopFrame (openOffsets read))).reverse).toArray
  /-- Every opening bracket read has opened a loop. -/
  opened : d.nesting.opened = (openOffsets read).length

theorem Draft.Fits.insertionPoint {d : Draft} (hd : d.Fits) (hsmall : 2 * d.nesting.opened < 2 ^ 32) :
    d.builder.insertionPoint = .ok d.nesting.current := by
  have hcur : d.nesting.current ≤ 2 * d.nesting.opened := hd.valid.le _ List.mem_cons_self
  have hnat : (BlockId.ofNat d.nesting.current).toNat = d.nesting.current :=
    BlockId.toNat_ofNat (by omega)
  obtain ⟨block, hblock⟩ : ∃ block, d.builder.blocks[d.nesting.current]? = some block :=
    ⟨_, Array.getElem?_eq_getElem hd.current_lt⟩
  have hopen := (hd.open_iff _ _ hblock).2 List.mem_cons_self
  rw [← hnat] at hblock
  rw [Builder.insertionPoint_eq_ok hd.cursor hblock hopen, hnat]

theorem loopFrame_append {offsets more : List Nat} {loop : Nat} (h : loop < offsets.length) :
    loopFrame (offsets ++ more) loop = loopFrame offsets loop := by
  simp [loopFrame, List.getD_eq_getElem?_getD, List.getElem?_append_left h]

theorem openOffsets_append (ts us : List Token) :
    openOffsets (ts ++ us) = openOffsets ts ++ openOffsets us := by
  rw [openOffsets, List.filter_append, List.map_append]
  rfl

theorem openOffsets_singleton_of_ne {t : Token} (h : t.command ≠ .loopOpen) :
    openOffsets [t] = [] := by
  simp [openOffsets, h]

/-- The frames do not depend on brackets that come later. -/
theorem map_loopFrame_append {s : Nesting} (hs : s.Valid) {offsets : List Nat}
    (h : s.opened = offsets.length) (more : List Nat) :
    s.stack.map (loopFrame (offsets ++ more)) = s.stack.map (loopFrame offsets) := by
  refine List.map_congr_left fun loop hl => loopFrame_append ?_
  rw [← h]
  exact hs.lt_opened hl

theorem Pass.Tracks.innermost? {p : Pass} {read : List Token} {d : Draft} (h : p.Tracks read d) :
    p.loops.innermost? = d.nesting.stack.head?.map (loopFrame (openOffsets read)) := by
  rw [LoopStack.innermost?, h.frames]
  cases d.nesting.stack <;> simp

theorem Pass.Tracks.countToken {p : Pass} {read : List Token} {d : Draft} (h : p.Tracks read d) :
    ({ p with tokens := p.tokens + 1 } : Pass).Tracks read d :=
  ⟨h.builder, h.frames, h.opened⟩

namespace Lower

theorem build_of_ok {x : Build α} {p : Pass} {a : α} {b : Builder} (h : x p.builder = .ok a b) :
    build x p = .ok a { p with builder := b } := by
  simp only [build, h]

theorem build_of_error {x : Build α} {p : Pass} {e : Error} {b : Builder}
    (h : x p.builder = .error e b) : build x p = .error e { p with builder := b } := by
  simp only [build, h]

variable {symbols : Symbols} {layout : TapeLayout}

theorem token_straight {d : Draft} (hd : d.Fits) (hsmall : 2 * d.nesting.opened < 2 ^ 32)
    {p : Pass} (hb : p.builder = d.builder) {t : Token} (hc : t.command.isBracket = false) :
    token symbols layout t p =
      .ok () { p with builder := d.afterCode symbols layout t.command } := by
  have hi := hd.insertionPoint hsmall
  rw [← hb] at hi
  have hr := hd.nextReg
  rw [← hb] at hr
  rw [token, Draft.afterCode, ← hb]
  generalize t.command = c at hc
  cases c, hc using Command.straight_cases
  case right => exact build_of_ok (emits_movePointer layout .add _ _ _ hi hr)
  case left => exact build_of_ok (emits_movePointer layout .sub _ _ _ hi hr)
  case increment => exact build_of_ok (emits_changeCell layout .add _ _ _ hi hr)
  case decrement => exact build_of_ok (emits_changeCell layout .sub _ _ _ hi hr)
  case output => exact build_of_ok (emits_writeCell layout symbols _ _ _ hi hr)
  case input => exact build_of_ok (emits_readCell layout symbols _ _ _ hi hr)

theorem token_open {d : Draft} (hd : d.Fits) (hsmall : 2 * d.nesting.opened < 2 ^ 32) {p : Pass}
    (hb : p.builder = d.builder) {t : Token} (hc : t.command = .loopOpen) :
    token symbols layout t p = .ok ()
      ⟨d.afterCommand symbols layout .loopOpen (bodyBlock d.nesting.opened),
        p.loops.push ⟨.ofNat (bodyBlock d.nesting.opened), .ofNat (afterBlock d.nesting.opened),
          t.offset⟩, p.tokens, p.events.push (.loopOpened t.offset (p.loops.depth + 1))⟩ := by
  have hi := hd.insertionPoint hsmall
  have hopen := openLoop_eq layout hi hd.nextReg
  have hbody : d.builder.blocks.size = bodyBlock d.nesting.opened := by
    rw [hd.size, bodyBlock]
    omega
  have hafter : bodyBlock d.nesting.opened + 1 = afterBlock d.nesting.opened := rfl
  rw [hbody, hafter, ← hb] at hopen
  simp only [token, hc]
  rw [bind_of_ok (build_of_ok hopen), hb]
  have hdepth : (p.loops.push ⟨.ofNat (bodyBlock d.nesting.opened),
      .ofNat (afterBlock d.nesting.opened), t.offset⟩).depth = p.loops.depth + 1 := by
    simp [LoopStack.push, LoopStack.depth]
  rw [← hdepth]
  rfl

theorem token_close {d : Draft} (hd : d.Fits) (hsmall : 2 * d.nesting.opened < 2 ^ 32) {p : Pass}
    (hb : p.builder = d.builder) {t : Token} (hc : t.command = .loopClose) {frame : LoopFrame}
    (hframe : p.loops.innermost? = some frame) {loop : Nat}
    (hbody : frame.body = .ofNat (bodyBlock loop)) (hafter : frame.after = .ofNat (afterBlock loop))
    (hloop : d.nesting.loopOf .loopClose = loop) :
    token symbols layout t p = .ok ()
      ⟨d.afterCommand symbols layout .loopClose (afterBlock loop), p.loops.dropInnermost, p.tokens,
        p.events.push (.loopClosed t.offset frame.openedAt p.loops.dropInnermost.depth)⟩ := by
  have hpop : popLoop t.offset p = .ok frame { p with loops := p.loops.dropInnermost } := by
    simp [popLoop, LoopStack.pop, hframe]
  have hclose := closeLoop_eq layout frame (hd.insertionPoint hsmall) hd.nextReg
  rw [hbody, hafter, ← hb] at hclose
  have hbuild := build_of_ok (p := { p with loops := p.loops.dropInnermost }) hclose
  simp only [token, hc]
  rw [bind_of_ok hpop, bind_of_ok hbuild, hb, Draft.afterCommand, hloop]
  rfl

theorem token_refused {p : Pass} (hp : p.loops.innermost? = none) {t : Token}
    (hc : t.command = .loopClose) :
    token symbols layout t p = .error (.unexpectedClose t.offset) p := by
  have hpop : popLoop t.offset p = .error (.unexpectedClose t.offset) p := by
    simp [popLoop, LoopStack.pop, hp]
  simp only [token, hc]
  exact bind_of_error hpop

/-- Where a draft can read a command, the pass can read the token, and it goes on
tracking the draft. -/
theorem token_of_step {d e : Draft} (hd : d.Fits) (hsmall : 2 * d.nesting.opened < 2 ^ 32)
    {p : Pass} {read : List Token} (hp : p.Tracks read d) {t : Token}
    (h : d.step symbols layout t.command = some e) :
    ∃ q, token symbols layout t p = .ok () q ∧ q.Tracks (read ++ [t]) e := by
  obtain ⟨hs, he, -⟩ := Draft.step_eq_some h
  have hframes := map_loopFrame_append hd.valid hp.opened (openOffsets [t])
  rw [← openOffsets_append] at hframes
  obtain ⟨hc, hsame⟩ | ⟨hc, hnew⟩ | ⟨hc, loop, rest, hstack, hnew⟩ := Nesting.step_cases hs
  · refine ⟨_, token_straight hd hsmall hp.builder hc, ?_, ?_, ?_⟩
    · rw [he, Draft.afterCommand_straight d hc]
    · rw [hsame, hframes]
      exact hp.frames
    · have hne : t.command ≠ .loopOpen := fun hto => by rw [hto] at hc; cases hc
      rw [hsame, hp.opened, openOffsets_append, openOffsets_singleton_of_ne hne, List.append_nil]
  · have hoff : openOffsets [t] = [t.offset] := by simp [openOffsets, hc]
    refine ⟨_, token_open hd hsmall hp.builder hc, ?_, ?_, ?_⟩
    · rw [he, hc, hnew]
    · have hframe : loopFrame (openOffsets (read ++ [t])) d.nesting.opened =
          ⟨.ofNat (bodyBlock d.nesting.opened), .ofNat (afterBlock d.nesting.opened),
            t.offset⟩ := by
        simp [loopFrame, openOffsets_append, hoff, hp.opened]
      simp only [LoopStack.push]
      rw [hnew, List.map_cons, hframes, hframe, hp.frames, List.reverse_cons]
      simp
    · rw [hnew, openOffsets_append, hoff, List.length_append, ← hp.opened]
      rfl
  · have hin := hp.innermost?
    rw [hstack] at hin
    have hloop : d.nesting.loopOf .loopClose = loop := by rw [Nesting.loopOf, hstack]; rfl
    refine ⟨_, token_close hd hsmall hp.builder hc hin rfl rfl hloop, ?_, ?_, ?_⟩
    · rw [he, hc, hnew]
    · rw [hstack, List.map_cons, List.map_cons] at hframes
      simp only [LoopStack.dropInnermost]
      rw [hnew, (List.cons.inj hframes).2, hp.frames, hstack, List.map_cons, List.reverse_cons]
      simp
    · have hne : t.command ≠ .loopOpen := fun hto => by rw [hto] at hc; cases hc
      rw [hnew, openOffsets_append, openOffsets_singleton_of_ne hne, List.append_nil]
      exact hp.opened

/-- The pass over tokens that a draft can read. -/
theorem tokens_of_run {ts : List Token} {d e : Draft} (hd : d.Fits)
    (hsmall : 2 * (d.nesting.opened + (ts.map Token.command).count .loopOpen) < 2 ^ 32)
    {p : Pass} {read : List Token} (hp : p.Tracks read d)
    (h : d.run symbols layout (ts.map Token.command) = some e) :
    ∃ q, tokens symbols layout ts p = .ok () q ∧ q.Tracks (read ++ ts) e := by
  induction ts generalizing d p read with
  | nil =>
    cases h
    exact ⟨p, rfl, by rw [List.append_nil]; exact hp⟩
  | cons t ts ih =>
    rw [List.map_cons, Draft.run_cons] at h
    rw [List.map_cons, count_cons_eq_add] at hsmall
    obtain ⟨d', hd', hr⟩ := Option.bind_eq_some_iff.1 h
    obtain ⟨q, hq, htrack⟩ := token_of_step hd (by omega) hp hd'
    have hopened := Nesting.opened_step (Draft.step_eq_some hd').1
    obtain ⟨q', hq', htrack'⟩ := ih (hd.step hd') (by omega) htrack.countToken hr
    refine ⟨q', ?_, ?_⟩
    · rw [tokens, bind_of_ok hq]
      exact (bind_of_ok rfl).trans hq'
    · rw [List.append_cons]
      exact htrack'

theorem tokens_append_of_ok {ts us : List Token} {p q : Pass}
    (h : tokens symbols layout ts p = .ok () q) :
    tokens symbols layout (ts ++ us) p = tokens symbols layout us q := by
  induction ts generalizing p with
  | nil => cases h; rfl
  | cons t ts ih =>
    rw [tokens] at h
    rw [List.cons_append, tokens]
    rcases bind_cases (token symbols layout t) _ p with ⟨_, p', hp', hrest⟩ | ⟨e, p', -, hrest⟩
    · rw [hrest] at h
      rw [bind_of_ok hp']
      exact ih h
    · rw [hrest] at h
      cases h

/-- The pass over tokens that no draft can read stops at the first bracket that
closes nothing. -/
theorem tokens_of_refused (symbols : Symbols) (layout : TapeLayout) {ts : List Token} {d : Draft}
    (hd : d.Fits)
    (hsmall : 2 * (d.nesting.opened + (ts.map Token.command).count .loopOpen) < 2 ^ 32)
    {p : Pass} {read : List Token} (hp : p.Tracks read d)
    (h : d.nesting.run (ts.map Token.command) = none) :
    ∃ pre t post s q, ts = pre ++ t :: post ∧ t.command = .loopClose ∧
      d.nesting.run (pre.map Token.command) = some s ∧ s.stack = [] ∧
      tokens symbols layout ts p = .error (.unexpectedClose t.offset) q := by
  obtain ⟨cs, cs', s, hcs, hrun, hstack⟩ := Nesting.exists_refused h
  obtain ⟨pre, ts', rfl, rfl, hts'⟩ := List.map_eq_append_iff.1 hcs
  obtain ⟨t, post, rfl, htc, -⟩ := List.map_eq_cons_iff.1 hts'
  rw [List.map_append, List.count_append] at hsmall
  obtain ⟨e, he, rfl⟩ := Draft.exists_run symbols layout hrun
  obtain ⟨q, hq, htrack⟩ := tokens_of_run hd (by omega) hp he
  have hnone : q.loops.innermost? = none := by rw [htrack.innermost?, hstack]; rfl
  refine ⟨pre, t, post, e.nesting, q, rfl, htc, hrun, hstack, ?_⟩
  rw [tokens_append_of_ok hq, tokens]
  exact bind_of_error (token_refused hnone htc)

end Lower

/-! ## The whole pass -/

/-- The registers that the tape is set up in. -/
def tapeLayout (options : Options) : TapeLayout := ⟨.ofNat 0, .ofNat 1, options.cellCount⟩

/-- A function with nothing but its first block. -/
def Builder.entry (name : String) : Builder :=
  ⟨name, .i32, #[.empty (.ofNat 0) "entry"], some (.ofNat 0), 0, 0⟩

/-- The draft before the first command: the code that sets up the tape. -/
def Draft.start (options : Options) : Draft :=
  ⟨(Builder.entry options.entryName).extend 0
    (TapeLayout.setUpCode options.symbols options.cellCount) 5, {}, 5⟩

theorem Draft.fits_start (options : Options) : (Draft.start options).Fits := by
  have hblock : ∀ (i : Nat) (block : Block), (Draft.start options).builder.blocks[i]? = some block →
      i = 0 ∧ block = (Block.empty (.ofNat 0) "entry").extend
        (TapeLayout.setUpCode options.symbols options.cellCount) := by
    intro i block h
    have hi : i = 0 := by
      have := (Array.getElem?_eq_some_iff.1 h).1
      simp only [start, Builder.size_extend, Builder.entry] at this
      exact Nat.lt_one_iff.1 this
    subst hi
    exact ⟨rfl, (Option.some.inj h).symm⟩
  refine ⟨Nesting.valid_start, Builder.size_extend .., rfl, rfl, ?_, ?_, ?_⟩
  · intro i block h
    obtain ⟨rfl, rfl⟩ := hblock i block h
    rfl
  · intro i block h
    obtain ⟨rfl, rfl⟩ := hblock i block h
    exact ⟨fun _ => List.mem_cons_self, fun _ => rfl⟩
  · intro i hi
    cases hi

theorem prologue_eq (options : Options) (hcells : options.cellCount.toNat < 2 ^ 63) :
    Lower.prologue options (.new options.entryName .i32) =
      .ok (tapeLayout options) (Draft.start options).builder :=
  emits_setUp options.symbols hcells (.entry options.entryName) 0 rfl rfl

theorem prologue_refused (options : Options) (hcells : 2 ^ 63 ≤ options.cellCount.toNat) :
    ∃ b, Lower.prologue options (.new options.entryName .i32) = .error (.invalidOptions
      s!"cell_count {options.cellCount.toNat} does not fit in i64") b :=
  refuses_setUp options.symbols hcells (.entry options.entryName) 0 rfl rfl

theorem epilogue_eq {d : Draft} (hd : d.Fits) (hsmall : 2 * d.nesting.opened < 2 ^ 32) :
    Lower.epilogue d.builder = .ok () d.finished := by
  have hi := hd.insertionPoint hsmall
  have hconst := EmitsAt.define d.regs (fun dst => .const dst .i32 0) _ _ hi hd.nextReg
  rw [Lower.epilogue]
  refine (bind_of_ok hconst).trans ?_
  exact terminate_eq (Builder.insertionPoint_extend hi _ _) _

/-- What is read of a scanner: its commands. -/
def Scanner.commands (scanner : Scanner) : List Command := scanner.tokens.map Token.command

theorem Scanner.commands_ofSource (source : Source) :
    (Scanner.ofSource source).commands = source.commands := by
  have hfrom : ∀ offset, (⟨offset, source⟩ : Scanner).commands = source.commands := by
    induction source with
    | nil => exact fun _ => rfl
    | cons b bs ih =>
      intro offset
      have hrest := ih (offset + 1)
      rw [commands] at hrest
      rw [commands, Source.commands]
      cases hb : Command.ofByte? b with
      | some c =>
        rw [tokens_command hb, List.map_cons, hrest, List.filterMap_cons_some hb]
        rfl
      | none =>
        rw [tokens_comment hb, hrest, List.filterMap_cons_none hb]
        rfl
  exact hfrom 0

section Outcomes

variable (options : Options) (scanner : Scanner)

theorem Pass.tracks_start :
    ({ Pass.start options with builder := (Draft.start options).builder } : Pass).Tracks []
      (Draft.start options) :=
  ⟨rfl, rfl, rfl⟩

variable {options scanner}

theorem program_of_run (hcells : options.cellCount.toNat < 2 ^ 63)
    (hsmall : 2 * scanner.commands.count .loopOpen < 2 ^ 32) {e : Draft}
    (hrun : (Draft.start options).run options.symbols (tapeLayout options) scanner.commands =
      some e) :
    ∃ p, p.Tracks scanner.tokens e ∧ Lower.program options scanner (.start options) =
      (do Lower.finishLoops scanner.sourceLength; Lower.build Lower.epilogue : Lower Unit) p := by
  have hpro := Lower.build_of_ok (p := .start options) (prologue_eq options hcells)
  obtain ⟨p, hp, htrack⟩ := Lower.tokens_of_run (Draft.fits_start options)
    (by simpa [Draft.start, Scanner.commands] using hsmall) (Pass.tracks_start options) hrun
  refine ⟨p, by simpa using htrack, ?_⟩
  rw [Lower.program, bind_of_ok hpro]
  exact bind_of_ok hp

/-- Where all loops are closed the pass comes to its end with the finished draft. -/
theorem program_eq_ok (hcells : options.cellCount.toNat < 2 ^ 63)
    (hsmall : 2 * scanner.commands.count .loopOpen < 2 ^ 32) {e : Draft}
    (hrun : (Draft.start options).run options.symbols (tapeLayout options) scanner.commands =
      some e) (hdone : e.nesting.stack = []) :
    ∃ p, Lower.program options scanner (.start options) = .ok () p ∧ p.builder = e.finished := by
  obtain ⟨p, htrack, hprog⟩ := program_of_run hcells hsmall hrun
  have hopened := Nesting.opened_run (Draft.nesting_run hrun)
  have hfits := (Draft.fits_start options).run hrun
  have hloops : Lower.finishLoops scanner.sourceLength p = .ok () p := by
    simp [Lower.finishLoops, LoopStack.finish, htrack.innermost?, hdone]
  have hepi := Lower.build_of_ok (p := p) (x := Lower.epilogue) (b := e.finished)
    (by rw [htrack.builder]; exact epilogue_eq hfits (by simp [Draft.start] at hopened; omega))
  rw [bind_of_ok hloops, hepi] at hprog
  exact ⟨_, hprog, rfl⟩

/-- Lowering succeeds where all loops are closed, and gives the finished draft. -/
theorem lower_eq_ok (hcells : options.cellCount.toNat < 2 ^ 63)
    (hsmall : 2 * scanner.commands.count .loopOpen < 2 ^ 32) {e : Draft}
    (hrun : (Draft.start options).run options.symbols (tapeLayout options) scanner.commands =
      some e) (hdone : e.nesting.stack = []) :
    ∃ tally, (lower options scanner).1 = .ok (⟨options.moduleName, options.symbols.declarations,
      [e.finished.finish]⟩, tally) := by
  obtain ⟨p, hprog, hbuilder⟩ := program_eq_ok hcells hsmall hrun hdone
  refine ⟨p.tally, ?_⟩
  rw [lower, hprog, ← hbuilder]

/-- A loop that is left open is reported with the offset of its bracket. -/
theorem lower_eq_unterminated (hcells : options.cellCount.toNat < 2 ^ 63)
    (hsmall : 2 * scanner.commands.count .loopOpen < 2 ^ 32) {e : Draft}
    (hrun : (Draft.start options).run options.symbols (tapeLayout options) scanner.commands =
      some e) {loop : Nat} {rest : List Nat} (hopen : e.nesting.stack = loop :: rest) :
    (lower options scanner).1 = .error (.unterminatedLoop scanner.sourceLength
      ((openOffsets scanner.tokens).getD loop 0)) := by
  obtain ⟨p, htrack, hprog⟩ := program_of_run hcells hsmall hrun
  have hloops : Lower.finishLoops scanner.sourceLength p = .error (.unterminatedLoop
      scanner.sourceLength ((openOffsets scanner.tokens).getD loop 0)) p := by
    simp [Lower.finishLoops, LoopStack.finish, htrack.innermost?, hopen, loopFrame]
  rw [bind_of_error hloops] at hprog
  rw [lower, hprog]

/-- A bracket that closes nothing is reported with its offset. -/
theorem lower_eq_unexpected (hcells : options.cellCount.toNat < 2 ^ 63)
    (hsmall : 2 * scanner.commands.count .loopOpen < 2 ^ 32)
    (hrun : ({} : Nesting).run scanner.commands = none) :
    ∃ pre t post s, scanner.tokens = pre ++ t :: post ∧ t.command = .loopClose ∧
      ({} : Nesting).run (pre.map Token.command) = some s ∧ s.stack = [] ∧
      (lower options scanner).1 = .error (.unexpectedClose t.offset) := by
  have hpro := Lower.build_of_ok (p := .start options) (prologue_eq options hcells)
  obtain ⟨pre, t, post, s, q, hts, htc, hs, hstack, hq⟩ :=
    Lower.tokens_of_refused options.symbols (tapeLayout options) (Draft.fits_start options)
      (by simpa [Draft.start, Scanner.commands] using hsmall) (Pass.tracks_start options) hrun
  refine ⟨pre, t, post, s, hts, htc, hs, hstack, ?_⟩
  have hprog : Lower.program options scanner (.start options) =
      .error (.unexpectedClose t.offset) q := by
    rw [Lower.program, bind_of_ok hpro]
    exact bind_of_error hq
  rw [lower, hprog]

/-- A tape that is too long is reported whatever the program is. -/
theorem lower_eq_invalid (hcells : 2 ^ 63 ≤ options.cellCount.toNat) :
    (lower options scanner).1 = .error (.invalidOptions
      s!"cell_count {options.cellCount.toNat} does not fit in i64") := by
  obtain ⟨b, hb⟩ := prologue_refused options hcells
  have hprog : Lower.program options scanner (.start options) = .error (.invalidOptions
      s!"cell_count {options.cellCount.toNat} does not fit in i64")
      { Pass.start options with builder := b } :=
    bind_of_error (Lower.build_of_error hb)
  rw [lower, hprog]

theorem cellCount_lt_of_lower {lowered : Module × Tally}
    (h : (lower options scanner).1 = .ok lowered) : options.cellCount.toNat < 2 ^ 63 := by
  refine Nat.lt_of_not_le fun hcells => ?_
  cases (lower_eq_invalid hcells).symm.trans h

end Outcomes

/-! ## Programs whose brackets match -/

/-- The draft has read the whole of a program whose brackets match, and which is
small enough for its blocks and registers to have numbers of their own. -/
structure Draft.Completes (e : Draft) (options : Options) (cs : List Command) : Prop where
  /-- The brackets match. -/
  balanced : Balanced cs
  /-- The program is small enough. -/
  small : cs.length < 2 ^ 29
  /-- The draft has read it. -/
  run : (Draft.start options).run options.symbols (tapeLayout options) cs = some e

namespace Draft.Completes

variable {e : Draft} {options : Options} {cs : List Command}

theorem fits (h : e.Completes options cs) : e.Fits := (fits_start options).run h.run

theorem opened (h : e.Completes options cs) : e.nesting.opened = cs.count .loopOpen := by
  rw [Nesting.opened_run (nesting_run h.run)]
  exact Nat.zero_add _

theorem stack (h : e.Completes options cs) : e.nesting.stack = [] := by
  have hlen := Nesting.length_stack_run (nesting_run h.run)
  have hclosed := h.balanced.closed
  refine List.length_eq_zero_iff.1 ?_
  simp only [start, List.length_nil] at hlen
  omega

theorem size (h : e.Completes options cs) :
    e.finished.blocks.size = 1 + 2 * cs.count .loopOpen := by
  rw [size_finished, h.fits.size, h.opened]

theorem count_lt (h : e.Completes options cs) : 2 * cs.count .loopOpen < 2 ^ 32 := by
  have := h.small
  have := List.count_le_length (a := Command.loopOpen) (l := cs)
  omega

end Draft.Completes

theorem Draft.exists_completes (options : Options) {cs : List Command} (hbal : Balanced cs)
    (hsmall : cs.length < 2 ^ 29) : ∃ e : Draft, e.Completes options cs := by
  obtain ⟨s, hs⟩ := Nesting.exists_run (s := (Draft.start options).nesting) hbal.nested
  obtain ⟨e, he, -⟩ := exists_run options.symbols (tapeLayout options) hs
  exact ⟨e, hbal, hsmall, he⟩

/-- A program whose brackets match is lowered to its finished draft. -/
theorem lower_eq_finished {options : Options} (hcells : options.cellCount.toNat < 2 ^ 63)
    {source : Source} (hbal : Balanced source.commands) (hsmall : source.commands.length < 2 ^ 29) :
    ∃ (e : Draft) (tally : Tally), e.Completes options source.commands ∧
      (lower options (.ofSource source)).1 =
      .ok (⟨options.moduleName, options.symbols.declarations, [e.finished.finish]⟩, tally) := by
  obtain ⟨e, he⟩ := Draft.exists_completes options hbal hsmall
  have hcommands := Scanner.commands_ofSource source
  obtain ⟨tally, h⟩ := lower_eq_ok hcells (by rw [hcommands]; exact he.count_lt)
    (by rw [hcommands]; exact he.run) he.stack
  exact ⟨e, tally, he, h⟩

end TapeFlow
