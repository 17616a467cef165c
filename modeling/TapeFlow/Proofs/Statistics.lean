import Mathlib.Order.Bounds.Defs
import TapeFlow.Proofs.Outcome

/-!
# What is counted

Three things are counted of a program.  The pass counts the commands, the loops and
how deep they go while it reads; the size of the function is read off its blocks; and
the checker counts again, block by block.  All three are matters of how often each
command comes in the source.

* `Command.counts` — what one command adds to the counts of a function;
  `Draft.counts_step`, `Draft.counts_run` — and nothing else is added.
* `Counts.ofProgram` — the counts of the whole function.
* `Lower.token_cases` — what one command does to the counters of the pass.
* `LoopStack.Traces` — what a program does to them; `Lower.traces_tokens`.
* `Compiled.Counted`, `compile_counted` — all counts of a compiled source.
-/

namespace TapeFlow

/-! ## Counts -/

namespace Counts

theorem append_eq (a b : Counts) :
    a ++ b = ⟨a.instructions + b.instructions, a.blocks + b.blocks, a.branches + b.branches,
      a.calls + b.calls, a.arithmetic + b.arithmetic⟩ := rfl

@[simp] theorem empty_append (a : Counts) : ({} : Counts) ++ a = a := by
  simp [append_eq]

theorem append_assoc (a b c : Counts) : a ++ b ++ c = a ++ (b ++ c) := by
  simp only [append_eq, Nat.add_assoc]

theorem append_right_comm (a b c : Counts) : a ++ b ++ c = a ++ c ++ b := by
  simp only [append_eq, Nat.add_right_comm]

/-- Counts taken together, as the checker does it. -/
def total (counts : List Counts) : Counts := counts.foldl (· ++ ·) {}

theorem foldl_append_eq (a : Counts) (counts : List Counts) :
    counts.foldl (· ++ ·) a = a ++ total counts := by
  unfold total
  induction counts generalizing a with
  | nil => rfl
  | cons b counts ih =>
    rw [List.foldl_cons, ih, List.foldl_cons, ih ({} ++ b), empty_append, append_assoc]

theorem total_cons (a : Counts) (counts : List Counts) :
    total (a :: counts) = a ++ total counts := by
  rw [total, List.foldl_cons, foldl_append_eq, empty_append]

theorem total_append (as bs : List Counts) : total (as ++ bs) = total as ++ total bs := by
  rw [total, List.foldl_append, foldl_append_eq]
  rfl

/-- The counts of straight-line code. -/
def ofCode (code : List Instruction) : Counts where
  instructions := code.length
  calls := code.countP Instruction.isCall
  arithmetic := code.countP Instruction.isArithmetic

end Counts

theorem Block.counts_extend (block : Block) (code : List Instruction) :
    (block.extend code).counts = block.counts ++ Counts.ofCode code := by
  unfold Block.counts Block.extend Counts.ofCode
  rw [Counts.append_eq]
  simp only [Array.size_append, Array.countP_append, List.size_toArray, List.countP_toArray,
    Nat.add_zero]

/-- A block without an end gets one. -/
theorem Block.counts_finish {block : Block} (h : block.terminator = none) (t : Terminator) :
    (block.finish t).counts = block.counts ++ { branches := if t.isBranch then 1 else 0 } := by
  unfold Block.counts Block.finish
  rw [Counts.append_eq, h]
  simp only [Option.any_some, Option.any_none, Bool.false_eq_true, if_false, Nat.zero_add,
    Nat.add_zero]

/-- The counts of a function. -/
def Function.counts (f : Function) : Counts := .total (f.blocks.toList.map Block.counts)

/-- The size of a function is what the checker counts as its instructions. -/
theorem Function.instructionCount_eq (f : Function) :
    f.instructionCount = f.counts.instructions := by
  have hlist : ∀ (blocks : List Block) (n : Nat),
      blocks.foldl (fun n b => n + b.instructions.size) n =
        n + (Counts.total (blocks.map Block.counts)).instructions := by
    intro blocks
    induction blocks with
    | nil => exact fun n => rfl
    | cons block blocks ih =>
      intro n
      rw [List.foldl_cons, ih, List.map_cons, Counts.total_cons, Nat.add_assoc]
      rfl
  unfold instructionCount
  rw [← Array.foldl_toList, hlist, Nat.zero_add]
  rfl

theorem Function.blocks_counts (f : Function) : f.counts.blocks = f.blocks.size := by
  have hlist : ∀ blocks : List Block,
      (Counts.total (blocks.map Block.counts)).blocks = blocks.length := by
    intro blocks
    induction blocks with
    | nil => rfl
    | cons block blocks ih =>
      rw [List.map_cons, Counts.total_cons, List.length_cons, ← ih, Nat.add_comm]
      rfl
  unfold counts
  rw [hlist, Array.length_toList]

/-- The checker counts what a module with one function counts. -/
theorem Module.counts_check {m : Module} {f : Function} (hm : m.functions = [f])
    (hentry : f.entryBlock?.isNone = false) : m.check.counts = f.counts := by
  unfold check checkFunction
  rw [hm, List.map_singleton, hentry]
  exact Counts.empty_append _

/-! ## What a command adds to a function -/

/-- What is added to one block is added to all of them. -/
theorem Counts.total_modify {blocks : List Block} {i : Nat} {block : Block}
    (hblock : blocks[i]? = some block) {change : Block → Block} {more : Counts}
    (h : (change block).counts = block.counts ++ more) :
    total ((blocks.modify i change).map Block.counts) =
      total (blocks.map Block.counts) ++ more := by
  induction blocks generalizing i with
  | nil => cases hblock
  | cons first blocks ih =>
    cases i with
    | zero =>
      cases hblock
      rw [List.modify_zero_cons, List.map_cons, List.map_cons, total_cons, total_cons, h,
        append_right_comm]
    | succ i =>
      rw [List.modify_succ_cons, List.map_cons, List.map_cons, total_cons, total_cons,
        ih hblock, append_assoc]

namespace Builder

variable {b : Builder} {i : Nat} {block : Block}

theorem counts_extend (hi : i < b.blocks.size) (code : List Instruction) (regs : Nat) :
    (b.extend i code regs).finish.counts = b.finish.counts ++ Counts.ofCode code := by
  have hblock : b.blocks.toList[i]? = some b.blocks[i] := by
    rw [Array.getElem?_toList, Array.getElem?_eq_getElem hi]
  unfold Function.counts finish extend
  simp only [Array.toList_modify]
  exact Counts.total_modify hblock (Block.counts_extend _ code)

theorem counts_leave (hblock : b.blocks[i]? = some block) (hopen : block.terminator = none)
    (t : Terminator) (next : Option BlockId) :
    (b.leave i t next).finish.counts =
      b.finish.counts ++ { branches := if t.isBranch then 1 else 0 } := by
  rw [← Array.getElem?_toList] at hblock
  unfold Function.counts finish leave
  simp only [Array.toList_modify]
  exact Counts.total_modify hblock (Block.counts_finish hopen t)

theorem counts_addBlock (b : Builder) (stem : String) :
    (b.addBlock stem).finish.counts = b.finish.counts ++ { blocks := 1 } := by
  unfold Function.counts finish addBlock
  simp only [Array.toList_push, List.map_append, Counts.total_append]
  rfl

theorem counts_addLoop (b : Builder) :
    b.addLoop.finish.counts = b.finish.counts ++ { blocks := 2 } := by
  unfold addLoop
  rw [counts_addBlock, counts_addBlock, Counts.append_assoc]
  rfl

end Builder

/-- What a command adds to the counts of a function. -/
def Command.counts : Command → Counts
  | right | left => { instructions := 4, arithmetic := 1 }
  | increment | decrement => { instructions := 6, arithmetic := 1 }
  | output | input => { instructions := 4, calls := 1 }
  | loopOpen => { instructions := 5, branches := 1, blocks := 2 }
  | loopClose => { instructions := 5, branches := 1 }

namespace Draft

variable {symbols : Symbols} {layout : TapeLayout} {d e : Draft}

/-- The current block has no end yet, whatever code is added to it. -/
theorem Fits.exists_extended (hd : d.Fits) (code : List Instruction) (regs : Nat) :
    ∃ block, (d.builder.extend d.nesting.current code regs).blocks[d.nesting.current]? =
      some block ∧ block.terminator = none := by
  have hblock := Array.getElem?_eq_getElem hd.current_lt
  have hopen := (hd.open_iff _ _ hblock).2 List.mem_cons_self
  refine ⟨Block.extend _ code, ?_, hopen⟩
  rw [Builder.getElem?_extend, if_pos rfl, hblock, Option.map_some]

/-- A command adds its counts. -/
theorem counts_step (hd : d.Fits) {c : Command} (h : d.step symbols layout c = some e) :
    e.builder.finish.counts = d.builder.finish.counts ++ c.counts := by
  have hcode : (d.afterCode symbols layout c).finish.counts =
      d.builder.finish.counts ++ Counts.ofCode (c.code layout symbols d.regs) :=
    Builder.counts_extend hd.current_lt _ _
  obtain ⟨block, hblock, hopen⟩ : ∃ block, (d.afterCode symbols layout c).blocks[d.nesting.current]? =
      some block ∧ block.terminator = none := hd.exists_extended _ _
  obtain ⟨hs, hb, -⟩ := step_eq_some h
  rw [hb]
  obtain ⟨hc, -⟩ | ⟨rfl, -⟩ | ⟨rfl, -⟩ := Nesting.step_cases hs
  · rw [afterCommand_straight d hc, hcode]
    cases c, hc using Command.straight_cases <;> rfl
  · have hlt := (Array.getElem?_eq_some_iff.1 hblock).1
    simp only [afterCommand]
    rw [Builder.counts_leave (by rw [Builder.getElem?_addLoop_of_lt hlt]; exact hblock) hopen,
      Builder.counts_addLoop, hcode, Counts.append_assoc, Counts.append_assoc]
    rfl
  · simp only [afterCommand]
    rw [Builder.counts_leave hblock hopen, hcode, Counts.append_assoc]
    rfl

theorem counts_run (hd : d.Fits) {cs : List Command} (h : d.run symbols layout cs = some e) :
    e.builder.finish.counts = d.builder.finish.counts ++ .total (cs.map Command.counts) := by
  induction cs generalizing d with
  | nil =>
    cases h
    rfl
  | cons c cs ih =>
    rw [run_cons] at h
    obtain ⟨d', hd', hr⟩ := Option.bind_eq_some_iff.1 h
    rw [ih (hd.step hd') hr, counts_step hd hd', List.map_cons, Counts.total_cons,
      Counts.append_assoc]

/-- The end of the program adds an instruction, and no branch. -/
theorem counts_finished (hd : d.Fits) :
    d.finished.finish.counts = d.builder.finish.counts ++ { instructions := 1 } := by
  obtain ⟨block, hblock, hopen⟩ := hd.exists_extended [.const (.ofNat d.regs) .i32 0] 1
  unfold finished
  rw [Builder.counts_leave hblock hopen, Builder.counts_extend hd.current_lt]
  rfl

end Draft

/-- The counts of the function of a program in which each command comes so many times. -/
def Counts.ofProgram (n : Command → Nat) : Counts where
  instructions := 8 + 4 * (n .right + n .left) + 6 * (n .increment + n .decrement) +
    4 * (n .output + n .input) + 5 * (n .loopOpen + n .loopClose)
  blocks := 1 + 2 * n .loopOpen
  branches := 2 * n .loopOpen
  calls := 1 + n .output + n .input
  arithmetic := n .increment + n .decrement + n .right + n .left

theorem Counts.total_commands (cs : List Command) :
    total (cs.map Command.counts) =
      { instructions := 4 * (cs.count .right + cs.count .left) +
          6 * (cs.count .increment + cs.count .decrement) +
          4 * (cs.count .output + cs.count .input) + 5 * (cs.count .loopOpen + cs.count .loopClose)
        blocks := 2 * cs.count .loopOpen
        branches := cs.count .loopOpen + cs.count .loopClose
        calls := cs.count .output + cs.count .input
        arithmetic := cs.count .increment + cs.count .decrement + cs.count .right +
          cs.count .left } := by
  induction cs with
  | nil => rfl
  | cons c cs ih =>
    rw [List.map_cons, total_cons, ih, append_eq, mk.injEq]
    cases c <;> simp [Command.counts] <;> omega

/-- The function of a program whose brackets match. -/
theorem Draft.Completes.counts {e : Draft} {options : Options} {cs : List Command}
    (h : e.Completes options cs) : e.finished.finish.counts = .ofProgram fun c => cs.count c := by
  have hclosed := h.balanced.closed
  have hstart : (Draft.start options).builder.finish.counts =
      { instructions := 7, blocks := 1, calls := 1 } := by
    exact Builder.counts_extend (Nat.lt_succ_self 0) _ _
  rw [counts_finished h.fits, counts_run (fits_start options) h.run, hstart,
    Counts.total_commands, Counts.append_eq, Counts.append_eq, Counts.ofProgram, Counts.mk.injEq]
  simp only
  omega

/-! ## The counters of the pass -/

theorem LoopStack.pop_eq_ok {s t : LoopStack} {offset : Nat} {frame : LoopFrame}
    (h : s.pop offset = .ok (frame, t)) : s.innermost? = some frame ∧ t = s.dropInnermost := by
  unfold pop at h
  split at h
  · rename_i innermost hsome
    cases h
    exact ⟨hsome, rfl⟩
  · cases h

namespace Lower

variable {symbols : Symbols} {layout : TapeLayout} {p q : Pass}

/-- Adding code leaves the counters alone. -/
theorem counters_build {x : Build α} {a : α} (h : build x p = .ok a q) :
    q.tokens = p.tokens ∧ q.loops = p.loops := by
  cases hx : x p.builder with
  | ok a' b =>
    rw [build_of_ok hx] at h
    cases h
    exact ⟨rfl, rfl⟩
  | error e b =>
    rw [build_of_error hx] at h
    cases h

theorem popLoop_eq_ok {offset : Nat} {frame : LoopFrame} (h : popLoop offset p = .ok frame q) :
    p.loops.depth ≠ 0 ∧ q = { p with loops := p.loops.dropInnermost } := by
  unfold popLoop at h
  split at h
  · rename_i popped loops hpop
    obtain ⟨hsome, rfl⟩ := LoopStack.pop_eq_ok hpop
    cases h
    refine ⟨fun hzero => ?_, rfl⟩
    have hempty : p.loops.frames = #[] := Array.size_eq_zero_iff.1 hzero
    simp [LoopStack.innermost?, hempty] at hsome
  · cases h

/-- What a command does to the counters, if it can be read. -/
theorem token_cases {t : Token} (h : token symbols layout t p = .ok () q) :
    q.tokens = p.tokens ∧
      ((t.command.isBracket = false ∧ q.loops = p.loops) ∨
        (t.command = .loopOpen ∧ ∃ frame, q.loops = p.loops.push frame) ∨
        (t.command = .loopClose ∧ p.loops.depth ≠ 0 ∧ q.loops = p.loops.dropInnermost)) := by
  unfold token at h
  cases hc : t.command <;> simp only [hc] at h
  case loopOpen =>
    obtain ⟨⟨body, after⟩, p₁, hbuild, hrest⟩ := exists_of_bind h
    obtain ⟨htokens, hloops⟩ := counters_build hbuild
    cases hrest
    rw [← hloops]
    exact ⟨htokens, .inr (.inl ⟨rfl, _, rfl⟩)⟩
  case loopClose =>
    obtain ⟨frame, p₁, hpop, hrest⟩ := exists_of_bind h
    obtain ⟨_, p₂, hbuild, hreport⟩ := exists_of_bind hrest
    obtain ⟨htokens, hloops⟩ := counters_build hbuild
    obtain ⟨hdepth, rfl⟩ := popLoop_eq_ok hpop
    cases hreport
    exact ⟨htokens, .inr (.inr ⟨rfl, hdepth, hloops⟩)⟩
  all_goals
    obtain ⟨htokens, hloops⟩ := counters_build h
    exact ⟨htokens, .inl ⟨rfl, hloops⟩⟩

end Lower

/-! ## How deep the loops go -/

namespace LoopStack

/-- Reading a program has taken one stack to another. -/
structure Traces (s t : LoopStack) (cs : List Command) : Prop where
  /-- Opening brackets are counted. -/
  opened : t.opened = s.opened + cs.count .loopOpen
  /-- The depth is what the brackets make of it. -/
  depth : t.depth + cs.count .loopClose = s.depth + cs.count .loopOpen
  /-- What was reached before is not forgotten. -/
  mono : s.maxDepth ≤ t.maxDepth
  /-- No part of the program goes deeper than the greatest depth. -/
  bound : ∀ pre, pre <+: cs →
    s.depth + pre.count .loopOpen ≤ t.maxDepth + pre.count .loopClose
  /-- The greatest depth was reached before, or some part of the program goes that deep. -/
  reached : t.maxDepth = s.maxDepth ∨ ∃ pre, pre <+: cs ∧
    s.depth + pre.count .loopOpen = t.maxDepth + pre.count .loopClose

variable {s t u : LoopStack}

theorem Traces.nil (h : s.depth ≤ s.maxDepth) : s.Traces s [] := by
  refine ⟨rfl, rfl, Nat.le_refl _, ?_, .inl rfl⟩
  intro pre hpre
  rw [List.prefix_nil.1 hpre]
  exact h

theorem Traces.depth_le {cs : List Command} (h : s.Traces t cs) : t.depth ≤ t.maxDepth := by
  have := h.bound cs List.prefix_rfl
  have := h.depth
  omega

/-- One command, and then a program. -/
theorem Traces.cons {c : Command} {cs : List Command} (hc : s.Traces t [c])
    (hcs : t.Traces u cs) : s.Traces u (c :: cs) := by
  have hopened := hc.opened
  have hdepth := hc.depth
  have hmono := hc.mono
  have hmono' := hcs.mono
  refine ⟨?_, ?_, by omega, ?_, ?_⟩
  · have := hcs.opened
    rw [count_cons_eq_add]
    omega
  · have := hcs.depth
    rw [count_cons_eq_add .loopOpen, count_cons_eq_add .loopClose]
    omega
  · intro pre hpre
    rcases List.prefix_cons_iff.1 hpre with rfl | ⟨rest, rfl, hrest⟩
    · have := hc.bound [] List.nil_prefix
      simp only [List.count_nil] at this ⊢
      omega
    · have := hcs.bound rest hrest
      rw [count_cons_eq_add .loopOpen, count_cons_eq_add .loopClose]
      omega
  · rcases hcs.reached with heq | ⟨pre, hpre, heq⟩
    · rw [heq]
      rcases hc.reached with heq' | ⟨pre, hpre, heq'⟩
      · exact .inl heq'
      · exact .inr ⟨pre, hpre.trans (List.prefix_append [c] cs), heq'⟩
    · refine .inr ⟨c :: pre, List.cons_prefix_cons.2 ⟨rfl, hpre⟩, ?_⟩
      rw [count_cons_eq_add .loopOpen, count_cons_eq_add .loopClose]
      omega

/-- A command whose new depth is compared with the greatest so far. -/
theorem Traces.single {c : Command} (h : s.depth ≤ s.maxDepth)
    (hopened : t.opened = s.opened + [c].count .loopOpen)
    (hdepth : t.depth + [c].count .loopClose = s.depth + [c].count .loopOpen)
    (hmax : t.maxDepth = max s.maxDepth t.depth) : s.Traces t [c] := by
  refine ⟨hopened, hdepth, by omega, ?_, ?_⟩
  · intro pre hpre
    rcases List.prefix_cons_iff.1 hpre with rfl | ⟨rest, rfl, hrest⟩
    · simp only [List.count_nil]
      omega
    · rw [List.prefix_nil.1 hrest]
      omega
  · by_cases hle : t.depth ≤ s.maxDepth
    · exact .inl (by omega)
    · exact .inr ⟨[c], List.prefix_rfl, by omega⟩

end LoopStack

namespace Lower

variable {symbols : Symbols} {layout : TapeLayout} {p q : Pass}

/-- What one command does to the counters. -/
theorem traces_token {t : Token} (hp : p.loops.depth ≤ p.loops.maxDepth)
    (h : token symbols layout t p = .ok () q) :
    q.tokens = p.tokens ∧ p.loops.Traces q.loops [t.command] := by
  obtain ⟨htokens, hcases⟩ := token_cases h
  refine ⟨htokens, ?_⟩
  obtain ⟨hc, hq⟩ | ⟨hc, frame, hq⟩ | ⟨hc, hdepth, hq⟩ := hcases
  · obtain ⟨hopen, hclose⟩ := Command.count_brackets hc
    rw [hq]
    apply LoopStack.Traces.single hp
    · omega
    · omega
    · omega
  · rw [hc, hq]
    apply LoopStack.Traces.single hp
    · rfl
    · simp [LoopStack.push, LoopStack.depth]
    · simp [LoopStack.push, LoopStack.depth]
  · rw [hc, hq]
    apply LoopStack.Traces.single hp
    · rfl
    · unfold LoopStack.depth at hdepth ⊢
      simp only [LoopStack.dropInnermost, Array.size_pop, List.count_singleton_self]
      show p.loops.frames.size - 1 + 1 = p.loops.frames.size + 0
      omega
    · unfold LoopStack.depth at hp ⊢
      simp only [LoopStack.dropInnermost, Array.size_pop]
      omega

/-- Tokens are counted, and the loops are those of the brackets. -/
theorem traces_tokens {ts : List Token} (hp : p.loops.depth ≤ p.loops.maxDepth)
    (h : tokens symbols layout ts p = .ok () q) :
    q.tokens = p.tokens + ts.length ∧ p.loops.Traces q.loops (ts.map Token.command) := by
  induction ts generalizing p with
  | nil =>
    cases h
    exact ⟨rfl, .nil hp⟩
  | cons t ts ih =>
    obtain ⟨_, p₁, htoken, hrest⟩ := exists_of_bind h
    obtain ⟨_, p₂, hcount, hts⟩ := exists_of_bind hrest
    obtain ⟨htokens, htraces⟩ := traces_token hp htoken
    cases hcount
    obtain ⟨htokens', htraces'⟩ :=
      ih (p := { p₁ with tokens := p₁.tokens + 1 }) htraces.depth_le hts
    refine ⟨?_, htraces.cons htraces'⟩
    rw [List.length_cons]
    simp only at htokens'
    omega

theorem finishLoops_eq_ok {endOffset : Nat} (h : finishLoops endOffset p = .ok () q) : q = p := by
  unfold finishLoops at h
  split at h
  · cases h
    rfl
  · cases h

/-- The counters after the whole pass. -/
theorem traces_program {options : Options} {scanner : Scanner}
    (h : program options scanner (.start options) = .ok () q) :
    q.tokens = scanner.commands.length ∧ ({} : LoopStack).Traces q.loops scanner.commands := by
  obtain ⟨layout, p₁, hprologue, hrest⟩ := exists_of_bind h
  obtain ⟨_, p₂, htokens, hrest⟩ := exists_of_bind hrest
  obtain ⟨_, p₃, hfinish, hepilogue⟩ := exists_of_bind hrest
  obtain ⟨hstart, hempty⟩ := counters_build hprologue
  obtain ⟨hend, hloops⟩ := counters_build hepilogue
  cases finishLoops_eq_ok hfinish
  obtain ⟨hcount, htraces⟩ := traces_tokens (by rw [hempty]; exact Nat.le_refl 0) htokens
  rw [hempty] at htraces
  rw [hend, hloops]
  refine ⟨?_, htraces⟩
  rw [hcount, hstart]
  unfold Scanner.commands
  rw [List.length_map]
  exact Nat.zero_add _

end Lower

/-- What lowering counts is what its pass has counted. -/
theorem tally_of_lower {options : Options} {scanner : Scanner} {result : Module} {tally : Tally}
    (h : (lower options scanner).1 = .ok (result, tally)) :
    ∃ p : Pass, Lower.program options scanner (.start options) = .ok () p ∧ tally = p.tally ∧
      result.functions = [p.builder.finish] := by
  unfold lower at h
  split at h
  · rename_i p hp
    cases h
    exact ⟨p, hp, rfl, rfl⟩
  · cases h

/-- The report that comes with a module is the checker's report on it. -/
theorem report_of_compile {options : Options} {source : Source} (hverify : options.verify = true)
    {compiled : Compiled} (h : (compile options source).1 = .ok compiled) :
    compiled.report = some compiled.result.check := by
  obtain ⟨hlower, hvalid⟩ := lower_of_compile h
  have hok := (compile_of_ok hlower).trans
    (verify_of_valid hverify (hvalid hverify) compiled.tally)
  exact congrArg Compiled.report (Except.ok.inj (h.symm.trans hok))

/-! ## The counts of a source -/

/-- How many more loops a source opens than it closes. -/
def Source.depth (source : Source) : Int :=
  source.count (Command.toByte .loopOpen) - source.count (Command.toByte .loopClose)

/-- The greatest depth of a program that starts outside of all loops is the greatest depth of
its beginnings. -/
theorem LoopStack.Traces.isGreatest {t : LoopStack} {source : Source}
    (h : ({} : LoopStack).Traces t source.commands) :
    IsGreatest {d : Int | ∃ pre : Source, pre <+: source ∧ pre.depth = d} t.maxDepth := by
  have hcounts : ∀ pre : Source,
      pre.depth = pre.commands.count .loopOpen - pre.commands.count .loopClose := by
    intro pre
    rw [Source.count_commands, Source.count_commands]
    rfl
  have hstart : ({} : LoopStack).depth = 0 := rfl
  constructor
  · rcases h.reached with hzero | ⟨cs, hcs, heq⟩
    · refine ⟨[], List.nil_prefix, ?_⟩
      rw [hzero]
      rfl
    · -- the commands of the program so far are those of some beginning of the source
      obtain ⟨pre, hpre, rfl⟩ := List.prefix_filterMap_iff.1 hcs
      refine ⟨pre, hpre, ?_⟩
      rw [hcounts]
      unfold Source.commands
      omega
  · rintro d ⟨pre, hpre, rfl⟩
    have hbound : _ ≤ t.maxDepth + pre.commands.count .loopClose :=
      h.bound pre.commands (hpre.filterMap _)
    rw [hcounts]
    omega

/-- The counts of a compiled source are those of its bytes. -/
structure Compiled.Counted (compiled : Compiled) (source : Source) : Prop where
  /-- The tokens are the bytes that are commands. -/
  tokens : compiled.tally.tokens = source.countP fun b => (Command.ofByte? b).isSome
  /-- The loops are the opening brackets. -/
  loops : compiled.tally.loops = source.count (Command.toByte .loopOpen)
  /-- The greatest depth is the one that some beginning of the source has. -/
  maxDepth : IsGreatest {d : Int | ∃ pre : Source, pre <+: source ∧ pre.depth = d}
    compiled.tally.maxDepth
  /-- The blocks of the pass. -/
  blocks : compiled.tally.blocks = (Counts.ofProgram fun c => source.count c.toByte).blocks
  /-- The instructions of the pass. -/
  instructions : compiled.tally.instructions =
    (Counts.ofProgram fun c => source.count c.toByte).instructions
  /-- The checker counts the same. -/
  report : compiled.report.map Report.counts =
    some (.ofProgram fun c => source.count c.toByte)

/-- If a source is compiled and checked, what the pass counts and what the checker counts are
both what the bytes of the source say. -/
theorem compile_counted {options : Options} {source : Source}
    (hsmall : source.commands.length < 2 ^ 29) (hverify : options.verify = true)
    {compiled : Compiled} (h : (compile options source).1 = .ok compiled) :
    compiled.Counted source := by
  have hlower := (lower_of_compile h).1
  obtain ⟨e, he, hresult⟩ := exists_completes_of_lower hsmall hlower
  obtain ⟨p, hp, htally, hfunctions⟩ := tally_of_lower hlower
  obtain ⟨htokens, htraces⟩ := Lower.traces_program hp
  rw [Scanner.commands_ofSource] at htokens htraces
  have hf : p.builder.finish = e.finished.finish := by
    rw [hresult] at hfunctions
    exact (List.singleton_inj.1 hfunctions).symm
  have hcounts : p.builder.finish.counts = .ofProgram fun c => source.count c.toByte := by
    rw [hf, he.counts]
    simp only [Source.count_commands]
  have hentry : p.builder.finish.entryBlock?.isNone = false := by
    have hpos : 0 < e.finished.blocks.size := by
      rw [he.size]
      omega
    rw [hf, Option.isNone_eq_false_iff]
    exact he.isSome_block? hpos
  constructor
  case tokens =>
    rw [htally, ← List.length_filterMap_eq_countP]
    exact htokens
  case loops =>
    rw [htally, ← Source.count_commands]
    exact htraces.opened.trans (Nat.zero_add _)
  case maxDepth =>
    rw [htally]
    exact htraces.isGreatest
  case blocks =>
    rw [htally, ← hcounts, Function.blocks_counts]
    rfl
  case instructions =>
    rw [htally, ← hcounts, ← Function.instructionCount_eq]
    rfl
  case report =>
    rw [report_of_compile hverify h, Option.map_some, Module.counts_check hfunctions hentry, hcounts]

/-- The counts of the program `+[>[-]<].` with a comment at its end. -/
theorem compile_counted_nested :
    let source : Source := [43, 91, 62, 91, 45, 93, 60, 93, 46, 33]
    source.commands.length < 2 ^ 29 ∧ ({} : Options).verify = true ∧
      ∃ compiled, (compile {} source).1 = .ok compiled ∧ compiled.Counted source ∧
        compiled.tally.tokens = 9 ∧ compiled.tally.instructions = 52 ∧
        compiled.report.map Report.counts = some ⟨52, 5, 4, 2, 4⟩ := by
  intro source
  have hsmall : source.commands.length < 2 ^ 29 := by decide
  have hcells : ({} : Options).cellCount.toNat < 2 ^ 63 := by decide
  obtain ⟨result, tally, hcompile, hvalid⟩ := compile_of_balanced hcells hsmall (by decide)
  have hok := hcompile.trans (verify_of_valid rfl (hvalid (by decide)) tally)
  have hcounted := compile_counted hsmall rfl hok
  exact ⟨hsmall, rfl, _, hok, hcounted, hcounted.tokens, hcounted.instructions, hcounted.report⟩

end TapeFlow
