import TapeFlow.Proofs.Emission
import TapeFlow.Proofs.Nesting

/-!
# A pass, command by command

What the pass over a program does to the function under construction, as a
function of the commands alone.

* `Draft` — a builder, the loops read so far and the number of registers used.
  `Draft.step` reads one command: it adds the code of the command to the current
  block, and a bracket also ends that block with a branch.
* `Draft.Fits` — the invariant: blocks carry their own numbers, the cursor is on
  the current block, and the blocks without an end are exactly the unfinished
  ones, of which only the current one has code in it.
* `Draft.getElem?_run_of_finished` — a block that has its end is never changed.
* `Draft.getElem?_finished_current` — what becomes of the current block: the code of
  the commands up to the next bracket, and the branch of that bracket.
-/

namespace TapeFlow

open Nesting (bodyBlock afterBlock)

namespace Builder

/-- End the block at a position and put the cursor elsewhere. -/
def leave (b : Builder) (i : Nat) (t : Terminator) (next : Option BlockId) : Builder :=
  { b with
    blocks := b.blocks.modify i fun block => block.finish t
    cursor := next }

/-- Make a block whose label is a stem and a number. -/
def addBlock (b : Builder) (stem : String) : Builder :=
  { b with
    blocks := b.blocks.push (.empty (.ofNat b.blocks.size) s!"{stem}_{b.nextLabel.toNat}")
    nextLabel := b.nextLabel + 1 }

/-- Make the two blocks of a loop. -/
def addLoop (b : Builder) : Builder := (b.addBlock "loop_body").addBlock "loop_end"

theorem getElem?_extend (b : Builder) (i j : Nat) (code : List Instruction) (regs : Nat) :
    (b.extend i code regs).blocks[j]? =
      if i = j then b.blocks[j]?.map fun block => block.extend code else b.blocks[j]? := by
  rw [extend, Array.getElem?_modify]

theorem getElem?_leave (b : Builder) (i j : Nat) (t : Terminator) (next : Option BlockId) :
    (b.leave i t next).blocks[j]? =
      if i = j then b.blocks[j]?.map fun block => block.finish t else b.blocks[j]? := by
  rw [leave, Array.getElem?_modify]

@[simp] theorem size_addBlock (b : Builder) (stem : String) :
    (b.addBlock stem).blocks.size = b.blocks.size + 1 := by
  rw [addBlock, Array.size_push]

@[simp] theorem size_addLoop (b : Builder) : b.addLoop.blocks.size = b.blocks.size + 2 := by
  rw [addLoop, size_addBlock, size_addBlock]

theorem getElem?_addBlock_of_lt {b : Builder} {j : Nat} (h : j < b.blocks.size) (stem : String) :
    (b.addBlock stem).blocks[j]? = b.blocks[j]? := by
  rw [addBlock, Array.getElem?_push, if_neg (by omega)]

theorem getElem?_addLoop_of_lt {b : Builder} {j : Nat} (h : j < b.blocks.size) :
    b.addLoop.blocks[j]? = b.blocks[j]? := by
  rw [addLoop, getElem?_addBlock_of_lt (by rw [size_addBlock]; omega), getElem?_addBlock_of_lt h]

/-- A block that was not there before is one of the two. -/
theorem empty_of_getElem?_addLoop {b : Builder} {j : Nat} {block : Block}
    (h : b.blocks.size ≤ j) (hblock : b.addLoop.blocks[j]? = some block) :
    (j = b.blocks.size ∨ j = b.blocks.size + 1) ∧ ∃ label, block = .empty (.ofNat j) label := by
  have hj := (Array.getElem?_eq_some_iff.1 hblock).1
  rw [size_addLoop] at hj
  rw [addLoop, addBlock, Array.getElem?_push, size_addBlock] at hblock
  by_cases hafter : j = b.blocks.size + 1
  · rw [if_pos hafter] at hblock
    subst hafter
    exact ⟨.inr rfl, _, (Option.some.inj hblock).symm⟩
  · have hbody : j = b.blocks.size := by omega
    rw [if_neg hafter, addBlock, Array.getElem?_push, if_pos hbody] at hblock
    subst hbody
    exact ⟨.inl rfl, _, (Option.some.inj hblock).symm⟩

@[simp] theorem size_extend (b : Builder) (i : Nat) (code : List Instruction) (regs : Nat) :
    (b.extend i code regs).blocks.size = b.blocks.size := by
  rw [extend, Array.size_modify]

@[simp] theorem size_leave (b : Builder) (i : Nat) (t : Terminator) (next : Option BlockId) :
    (b.leave i t next).blocks.size = b.blocks.size := by
  rw [leave, Array.size_modify]

end Builder

/-- The branch in front of a loop and at its end. -/
def loopBranch (cond : Reg) (loop : Nat) : Terminator :=
  .condBr cond (.ofNat (bodyBlock loop)) (.ofNat (afterBlock loop))

/-- The loop that a bracket opens or closes. -/
def Nesting.loopOf (s : Nesting) : Command → Nat
  | .loopClose => s.stack.headD 0
  | _ => s.opened

theorem Command.regs_le (c : Command) : c.regs ≤ 5 := by cases c <;> decide

/-- A function under construction, with what has been read so far. -/
structure Draft where
  /-- The function under construction. -/
  builder : Builder
  /-- The loops read so far. -/
  nesting : Nesting
  /-- The number of registers used. -/
  regs : Nat

namespace Draft

variable (symbols : Symbols) (layout : TapeLayout)

/-- The builder after the code of a command. -/
def afterCode (d : Draft) (c : Command) : Builder :=
  d.builder.extend d.nesting.current (c.code layout symbols d.regs) c.regs

/-- The builder after a command that leads to the block `next`. -/
def afterCommand (d : Draft) (c : Command) (next : Nat) : Builder :=
  let branch := loopBranch (.ofNat (d.regs + 4)) (d.nesting.loopOf c)
  match c with
  | .loopOpen =>
    (d.afterCode symbols layout c).addLoop.leave d.nesting.current branch (some (.ofNat next))
  | .loopClose =>
    (d.afterCode symbols layout c).leave d.nesting.current branch (some (.ofNat next))
  | _ => d.afterCode symbols layout c

/-- Read one command. -/
def step (d : Draft) (c : Command) : Option Draft :=
  (d.nesting.step c).map fun s =>
    ⟨d.afterCommand symbols layout c s.current, s, d.regs + c.regs⟩

/-- Read a program. -/
def run (d : Draft) : List Command → Option Draft
  | [] => some d
  | c :: cs => (d.step symbols layout c).bind fun e => e.run cs

/-- What holds of a draft after every command. -/
structure Fits (d : Draft) : Prop where
  /-- The unfinished blocks are different blocks that have been made. -/
  valid : d.nesting.Valid
  /-- There is the first block and two for each loop. -/
  size : d.builder.blocks.size = 1 + 2 * d.nesting.opened
  /-- Code goes to the current block. -/
  cursor : d.builder.cursor = some (.ofNat d.nesting.current)
  /-- The next register is the number of registers used. -/
  nextReg : d.builder.nextReg = UInt32.ofNat d.regs
  /-- A block carries the number of its position. -/
  numbered : ∀ (i : Nat) (block : Block), d.builder.blocks[i]? = some block → block.id = .ofNat i
  /-- Exactly the unfinished blocks lack their end. -/
  open_iff : ∀ (i : Nat) (block : Block), d.builder.blocks[i]? = some block →
    (block.terminator = none ↔ i ∈ d.nesting.unfinished)
  /-- The blocks after open loops have no code yet. -/
  empty : ∀ i ∈ d.nesting.pending, ∀ block : Block, d.builder.blocks[i]? = some block →
    block.instructions = #[]

variable {symbols layout}

theorem run_cons (d : Draft) (c : Command) (cs : List Command) :
    d.run symbols layout (c :: cs) =
      (d.step symbols layout c).bind fun e => e.run symbols layout cs := rfl

/-- A step is a step of the nesting; the rest follows from that. -/
theorem step_eq_some {d e : Draft} {c : Command} (h : d.step symbols layout c = some e) :
    d.nesting.step c = some e.nesting ∧
      e.builder = d.afterCommand symbols layout c e.nesting.current ∧
      e.regs = d.regs + c.regs := by
  obtain ⟨s, hs, rfl⟩ := Option.map_eq_some_iff.1 h
  exact ⟨hs, rfl, rfl⟩

theorem step_of_nesting {d : Draft} {c : Command} {s : Nesting} (h : d.nesting.step c = some s) :
    d.step symbols layout c =
      some ⟨d.afterCommand symbols layout c s.current, s, d.regs + c.regs⟩ := by
  rw [step, h, Option.map_some]

/-- A command that is no bracket adds its code and does nothing else. -/
theorem afterCommand_straight (d : Draft) {c : Command} (hc : c.isBracket = false) (next : Nat) :
    d.afterCommand symbols layout c next = d.afterCode symbols layout c := by
  cases c, hc using Command.straight_cases <;> rfl

/-- A draft reads a program exactly if its nesting does. -/
theorem nesting_run {d e : Draft} {cs : List Command} (h : d.run symbols layout cs = some e) :
    d.nesting.run cs = some e.nesting := by
  induction cs generalizing d with
  | nil => cases h; rfl
  | cons c cs ih =>
    rw [run_cons] at h
    obtain ⟨d', hd', hr⟩ := Option.bind_eq_some_iff.1 h
    rw [Nesting.run_cons, (step_eq_some hd').1, Option.bind_some, ih hr]

variable (symbols layout) in
theorem exists_run {d : Draft} {cs : List Command} {s : Nesting}
    (h : d.nesting.run cs = some s) : ∃ e, d.run symbols layout cs = some e ∧ e.nesting = s := by
  induction cs generalizing d with
  | nil => cases h; exact ⟨d, rfl, rfl⟩
  | cons c cs ih =>
    rw [Nesting.run_cons] at h
    obtain ⟨t, ht, hr⟩ := Option.bind_eq_some_iff.1 h
    rw [run_cons, step_of_nesting ht, Option.bind_some]
    exact ih hr

theorem run_append_of_eq {d e : Draft} {as : List Command} (h : d.run symbols layout as = some e)
    (bs : List Command) : d.run symbols layout (as ++ bs) = e.run symbols layout bs := by
  induction as generalizing d with
  | nil => cases h; rfl
  | cons c as ih =>
    rw [run_cons] at h
    obtain ⟨d', hd', hr⟩ := Option.bind_eq_some_iff.1 h
    rw [List.cons_append, run_cons, hd', Option.bind_some, ih hr]

theorem regs_run {d e : Draft} {cs : List Command} (h : d.run symbols layout cs = some e) :
    d.regs ≤ e.regs ∧ e.regs ≤ d.regs + 5 * cs.length := by
  induction cs generalizing d with
  | nil => cases h; simp
  | cons c cs ih =>
    rw [run_cons] at h
    obtain ⟨d', hd', hr⟩ := Option.bind_eq_some_iff.1 h
    have hregs := (step_eq_some hd').2.2
    have hc := c.regs_le
    have := ih hr
    rw [List.length_cons]
    omega

/-! ## What one command does to the blocks -/

theorem Fits.current_lt {d : Draft} (h : d.Fits) :
    d.nesting.current < d.builder.blocks.size := by
  have := h.valid.le _ List.mem_cons_self
  rw [h.size]
  omega

/-- Reading a command leaves all blocks alone that were there, but the current. -/
theorem getElem?_step_of_ne {d e : Draft} {c : Command} (h : d.step symbols layout c = some e)
    {j : Nat} (hne : d.nesting.current ≠ j) (hj : j < d.builder.blocks.size) :
    e.builder.blocks[j]? = d.builder.blocks[j]? := by
  have hcode : (d.afterCode symbols layout c).blocks[j]? = d.builder.blocks[j]? := by
    rw [afterCode, Builder.getElem?_extend, if_neg hne]
  have hsize : (d.afterCode symbols layout c).blocks.size = d.builder.blocks.size :=
    Builder.size_extend ..
  obtain ⟨hs, hb, -⟩ := step_eq_some h
  rw [hb]
  obtain ⟨hc, -⟩ | ⟨rfl, -⟩ | ⟨rfl, -⟩ := Nesting.step_cases hs
  · rw [afterCommand_straight d hc, hcode]
  · simp only [afterCommand]
    rw [Builder.getElem?_leave, if_neg hne, Builder.getElem?_addLoop_of_lt (by omega), hcode]
  · simp only [afterCommand]
    rw [Builder.getElem?_leave, if_neg hne, hcode]

/-- What a command makes of the current block. -/
theorem getElem?_step_current {d e : Draft} {c : Command} (h : d.step symbols layout c = some e)
    {block : Block} (hblock : d.builder.blocks[d.nesting.current]? = some block) :
    e.builder.blocks[d.nesting.current]? = some (if c.isBracket then
      (block.extend (c.code layout symbols d.regs)).finish
        (loopBranch (.ofNat (d.regs + 4)) (d.nesting.loopOf c))
      else block.extend (c.code layout symbols d.regs)) := by
  have hcode : (d.afterCode symbols layout c).blocks[d.nesting.current]? =
      some (block.extend (c.code layout symbols d.regs)) := by
    rw [afterCode, Builder.getElem?_extend, if_pos rfl, hblock, Option.map_some]
  have hlt : d.nesting.current < (d.afterCode symbols layout c).blocks.size := by
    exact (Array.getElem?_eq_some_iff.1 hcode).1
  obtain ⟨hs, hb, -⟩ := step_eq_some h
  rw [hb]
  obtain ⟨hc, -⟩ | ⟨rfl, -⟩ | ⟨rfl, -⟩ := Nesting.step_cases hs
  · rw [afterCommand_straight d hc, hcode, hc]
    rfl
  · simp only [afterCommand]
    rw [Builder.getElem?_leave, if_pos rfl, Builder.getElem?_addLoop_of_lt hlt, hcode]
    rfl
  · simp only [afterCommand]
    rw [Builder.getElem?_leave, if_pos rfl, hcode]
    rfl

/-- The blocks that an opening bracket makes are empty and carry their numbers. -/
theorem getElem?_step_new {d e : Draft} (hd : d.Fits)
    (h : d.step symbols layout .loopOpen = some e) {j : Nat} {block : Block}
    (hj : d.builder.blocks.size ≤ j) (hblock : e.builder.blocks[j]? = some block) :
    (j = bodyBlock d.nesting.opened ∨ j = afterBlock d.nesting.opened) ∧
      ∃ label, block = .empty (.ofNat j) label := by
  obtain ⟨-, hb, -⟩ := step_eq_some h
  have hlt := hd.current_lt
  have hsize : (d.afterCode symbols layout .loopOpen).blocks.size = d.builder.blocks.size :=
    Builder.size_extend ..
  rw [hb] at hblock
  simp only [afterCommand] at hblock
  rw [Builder.getElem?_leave, if_neg (by omega)] at hblock
  obtain ⟨hj', hempty⟩ := Builder.empty_of_getElem?_addLoop (by omega) hblock
  have hs := hd.size
  rw [bodyBlock, afterBlock]
  exact ⟨by omega, hempty⟩

theorem size_step {d e : Draft} {c : Command} (h : d.step symbols layout c = some e) :
    e.builder.blocks.size = d.builder.blocks.size + 2 * [c].count .loopOpen := by
  obtain ⟨hs, hb, -⟩ := step_eq_some h
  rw [hb]
  obtain ⟨hc, -⟩ | ⟨rfl, -⟩ | ⟨rfl, -⟩ := Nesting.step_cases hs
  · rw [afterCommand_straight d hc, afterCode, Builder.size_extend, (Command.count_brackets hc).1]
    rfl
  · simp only [afterCommand, afterCode, Builder.size_leave, Builder.size_addLoop,
      Builder.size_extend]
    rfl
  · simp only [afterCommand, afterCode, Builder.size_leave, Builder.size_extend]
    rfl

/-- Where a block after a command comes from: it is the current one with more in
it, or an old one, or one that an opening bracket made. -/
theorem block_step_cases {d e : Draft} {c : Command} (hd : d.Fits)
    (h : d.step symbols layout c = some e) {j : Nat} {block : Block}
    (hblock : e.builder.blocks[j]? = some block) :
    (j = d.nesting.current ∧ ∃ old, d.builder.blocks[j]? = some old ∧ block = if c.isBracket then
        (old.extend (c.code layout symbols d.regs)).finish
          (loopBranch (.ofNat (d.regs + 4)) (d.nesting.loopOf c))
        else old.extend (c.code layout symbols d.regs)) ∨
      (j ≠ d.nesting.current ∧ j < d.builder.blocks.size ∧ d.builder.blocks[j]? = some block) ∨
      (c = .loopOpen ∧ (j = bodyBlock d.nesting.opened ∨ j = afterBlock d.nesting.opened) ∧
        ∃ label, block = .empty (.ofNat j) label) := by
  by_cases hj : j < d.builder.blocks.size
  · by_cases hcur : j = d.nesting.current
    · subst hcur
      have hold := Array.getElem?_eq_getElem hj
      rw [getElem?_step_current h hold] at hblock
      exact .inl ⟨rfl, _, hold, (Option.some.inj hblock).symm⟩
    · rw [getElem?_step_of_ne h (Ne.symm hcur) hj] at hblock
      exact .inr (.inl ⟨hcur, hj, hblock⟩)
  · have hlt := (Array.getElem?_eq_some_iff.1 hblock).1
    have hsize := size_step h
    have hc : c = .loopOpen := by
      cases c <;> first | rfl | (simp at hsize; omega)
    subst hc
    exact .inr (.inr ⟨rfl, getElem?_step_new hd h (by omega) hblock⟩)

/-- Apart from the current block, the old blocks that are unfinished stay so. -/
theorem mem_unfinished_step {d : Draft} {s : Nesting} {c : Command} (hd : d.Fits)
    (h : d.nesting.step c = some s) {j : Nat} (hne : j ≠ d.nesting.current)
    (hj : j < d.builder.blocks.size) : j ∈ d.nesting.unfinished ↔ j ∈ s.unfinished := by
  have hsize := hd.size
  obtain ⟨-, rfl⟩ | ⟨rfl, rfl⟩ | ⟨rfl, loop, rest, hs, rfl⟩ := Nesting.step_cases h
  · rfl
  · rw [Nesting.unfinished_open, Nesting.unfinished, List.mem_cons, List.mem_cons, List.mem_cons]
    simp only [bodyBlock, afterBlock]
    constructor
    · rintro (he | hp)
      · exact absurd he hne
      · exact .inr (.inr hp)
    · rintro (he | he | hp)
      · omega
      · omega
      · exact .inr hp
  · rw [Nesting.unfinished_close hs, List.mem_cons]
    exact ⟨fun hm => hm.resolve_left hne, .inr⟩

theorem cursor_step {d e : Draft} {c : Command} (hd : d.Fits)
    (h : d.step symbols layout c = some e) :
    e.builder.cursor = some (.ofNat e.nesting.current) := by
  obtain ⟨hs, hb, -⟩ := step_eq_some h
  rw [hb]
  obtain ⟨hc, he⟩ | ⟨rfl, -⟩ | ⟨rfl, -⟩ := Nesting.step_cases hs
  · rw [afterCommand_straight d hc, he]
    exact hd.cursor
  · rfl
  · rfl

theorem nextReg_step {d e : Draft} {c : Command} (hd : d.Fits)
    (h : d.step symbols layout c = some e) : e.builder.nextReg = UInt32.ofNat e.regs := by
  obtain ⟨hs, hb, hr⟩ := step_eq_some h
  have hcode : (d.afterCode symbols layout c).nextReg = UInt32.ofNat (d.regs + c.regs) :=
    Builder.nextReg_extend hd.nextReg ..
  rw [hb, hr, ← hcode]
  obtain ⟨hc, -⟩ | ⟨rfl, -⟩ | ⟨rfl, -⟩ := Nesting.step_cases hs
  · rw [afterCommand_straight d hc]
  · rfl
  · rfl

/-- Reading a command keeps the invariant. -/
theorem Fits.step {d e : Draft} {c : Command} (hd : d.Fits)
    (h : d.step symbols layout c = some e) : e.Fits := by
  obtain ⟨hs, -, -⟩ := step_eq_some h
  refine ⟨hd.valid.step hs, ?_, cursor_step hd h, nextReg_step hd h, ?_, ?_, ?_⟩
  · rw [size_step h, hd.size, Nesting.opened_step hs]
    omega
  · intro j block hblock
    rcases block_step_cases hd h hblock with ⟨rfl, old, hold, rfl⟩ | ⟨-, -, hold⟩ | ⟨-, -, l, rfl⟩
    · have hid := hd.numbered _ old hold
      cases c.isBracket <;> exact hid
    · exact hd.numbered j block hold
    · rfl
  · intro j block hblock
    rcases block_step_cases hd h hblock with
      ⟨rfl, old, hold, rfl⟩ | ⟨hne, hj, hold⟩ | ⟨rfl, hj, l, rfl⟩
    · cases hc : c.isBracket with
      | true =>
        have hfin := Nesting.finished_of_bracket hd.valid hc hs
        exact ⟨fun ht => (Option.some_ne_none _ ht).elim, fun hm => absurd hm hfin.2⟩
      | false =>
        rw [Nesting.step_straight _ hc] at hs
        rw [← Option.some.inj hs]
        exact hd.open_iff _ old hold
    · rw [hd.open_iff j block hold]
      exact mem_unfinished_step hd hs hne hj
    · refine ⟨fun _ => ?_, fun _ => rfl⟩
      rw [Nesting.step_open] at hs
      rw [← Option.some.inj hs, Nesting.unfinished_open]
      rcases hj with rfl | rfl
      · exact List.mem_cons_self
      · exact List.mem_cons_of_mem _ List.mem_cons_self
  · intro j hj block hblock
    -- a pending block is new, or it was pending before
    have hold : (c = .loopOpen ∧ j = afterBlock d.nesting.opened) ∨ j ∈ d.nesting.pending := by
      obtain ⟨-, he⟩ | ⟨rfl, he⟩ | ⟨rfl, loop, rest, hst, he⟩ := Nesting.step_cases hs
      · exact .inr (he ▸ hj)
      · rw [he] at hj
        rcases List.mem_cons.1 hj with rfl | hj
        · exact .inl ⟨rfl, rfl⟩
        · exact .inr hj
      · rw [he] at hj
        refine .inr ?_
        rw [Nesting.pending, hst]
        exact List.mem_cons_of_mem _ hj
    rcases hold with ⟨rfl, rfl⟩ | hp
    · have hsize := hd.size
      obtain ⟨-, l, rfl⟩ := getElem?_step_new hd h (by rw [afterBlock]; omega) hblock
      rfl
    · have hne : j ≠ d.nesting.current := fun he =>
        (List.nodup_cons.1 hd.valid.nodup).1 (he ▸ hp)
      have hlt : j < d.builder.blocks.size := by
        have := hd.valid.pending_le j hp
        rw [hd.size]
        omega
      rw [getElem?_step_of_ne h (Ne.symm hne) hlt] at hblock
      exact hd.empty j hp block hblock

theorem Fits.run {d e : Draft} {cs : List Command} (hd : d.Fits)
    (h : d.run symbols layout cs = some e) : e.Fits :=
  kept_by_run (fun _ => rfl) run_cons Fits.step hd h

/-- A block that has its end is never changed again. -/
theorem getElem?_run_of_finished {d e : Draft} {cs : List Command} (hd : d.Fits)
    (h : d.run symbols layout cs = some e) {j : Nat} (hj : d.nesting.Finished j) :
    e.builder.blocks[j]? = d.builder.blocks[j]? := by
  induction cs generalizing d with
  | nil => cases h; rfl
  | cons c cs ih =>
    rw [run_cons] at h
    obtain ⟨d', hd', hr⟩ := Option.bind_eq_some_iff.1 h
    have hne : d.nesting.current ≠ j := fun he => hj.2 (he ▸ List.mem_cons_self)
    have hlt : j < d.builder.blocks.size := by
      have := hj.1
      rw [hd.size]
      omega
    rw [ih (hd.step hd') hr (hj.step (step_eq_some hd').1), getElem?_step_of_ne hd' hne hlt]

/-! ## What becomes of a block -/

variable (symbols layout) in
/-- The code from a command on to the end of its block, when it starts at
register `r`.  At the end of the program the result is put in a register. -/
def segment (r : Nat) : List Command → List Instruction
  | [] => [.const (.ofNat r) .i32 0]
  | c :: cs =>
    c.code layout symbols r ++ if c.isBracket then [] else segment (r + c.regs) cs

/-- The end of the block that a command stands in. -/
def ending (s : Nesting) (r : Nat) : List Command → Terminator
  | [] => .ret (some (.ofNat r))
  | c :: cs =>
    if c.isBracket then loopBranch (.ofNat (r + 4)) (s.loopOf c) else ending s (r + c.regs) cs

/-- The builder after the end of the program. -/
def finished (d : Draft) : Builder :=
  (d.builder.extend d.nesting.current [.const (.ofNat d.regs) .i32 0] 1).leave d.nesting.current
    (.ret (some (.ofNat d.regs))) none

@[simp] theorem size_finished (d : Draft) :
    d.finished.blocks.size = d.builder.blocks.size := by
  rw [finished, Builder.size_leave, Builder.size_extend]

theorem getElem?_finished (d : Draft) (j : Nat) :
    d.finished.blocks[j]? = if d.nesting.current = j then
      d.builder.blocks[j]?.map fun block =>
        (block.extend [.const (.ofNat d.regs) .i32 0]).finish (.ret (some (.ofNat d.regs)))
      else d.builder.blocks[j]? := by
  rw [finished, Builder.getElem?_leave, Builder.getElem?_extend]
  split
  · rw [Option.map_map]
    rfl
  · rfl

theorem Fits.id_finished {d : Draft} (h : d.Fits) {j : Nat} {block : Block}
    (hblock : d.finished.blocks[j]? = some block) : block.id = .ofNat j := by
  rw [getElem?_finished] at hblock
  split at hblock
  · obtain ⟨old, hold, rfl⟩ := Option.map_eq_some_iff.1 hblock
    exact h.numbered j old hold
  · exact h.numbered j block hblock

theorem getElem?_finished_of_finished {d e : Draft} {cs : List Command} (hd : d.Fits)
    (h : d.run symbols layout cs = some e) {j : Nat} (hj : d.nesting.Finished j) :
    e.finished.blocks[j]? = d.builder.blocks[j]? := by
  have hfin := hj.run (nesting_run h)
  have hne : e.nesting.current ≠ j := fun he => hfin.2 (he ▸ List.mem_cons_self)
  rw [getElem?_finished, if_neg hne, getElem?_run_of_finished hd h hj]

/-- In the end the current block holds what it holds now, the code of the
commands up to the next bracket, and the branch of that bracket. -/
theorem getElem?_finished_current {d e : Draft} {cs : List Command} (hd : d.Fits)
    (h : d.run symbols layout cs = some e) {block : Block}
    (hblock : d.builder.blocks[d.nesting.current]? = some block) :
    e.finished.blocks[d.nesting.current]? = some ((block.extend
      (segment symbols layout d.regs cs)).finish (ending d.nesting d.regs cs)) := by
  induction cs generalizing d block with
  | nil =>
    cases h
    rw [getElem?_finished, if_pos rfl, hblock]
    rfl
  | cons c cs ih =>
    rw [run_cons] at h
    obtain ⟨d', hd', hr⟩ := Option.bind_eq_some_iff.1 h
    have hcur := getElem?_step_current hd' hblock
    obtain ⟨hs, -, hregs⟩ := step_eq_some hd'
    rw [segment, ending]
    cases hc : c.isBracket with
    | true =>
      -- the block is finished here, and nothing later touches it
      have hfin := Nesting.finished_of_bracket hd.valid hc hs
      rw [getElem?_finished_of_finished (hd.step hd') hr hfin, hcur, hc]
      simp
    | false =>
      have hsame : d'.nesting = d.nesting := by
        rw [Nesting.step_straight _ hc] at hs
        exact (Option.some.inj hs).symm
      rw [hc, if_neg (by decide)] at hcur
      rw [← hsame] at hcur
      have := ih (hd.step hd') hr hcur
      rw [hsame, hregs] at this
      rw [this]
      simp [Block.extend, Block.finish]

/-- A bracket leads to a block with nothing in it. -/
theorem exists_empty_of_bracket {d e : Draft} {c : Command} (hd : d.Fits)
    (h : d.step symbols layout c = some e) (hc : c.isBracket = true) :
    ∃ block, e.builder.blocks[e.nesting.current]? = some block ∧ block.instructions = #[] := by
  have hblock := Array.getElem?_eq_getElem (hd.step h).current_lt
  refine ⟨_, hblock, ?_⟩
  obtain ⟨hs, -, -⟩ := step_eq_some h
  have hsize := hd.size
  obtain ⟨hc', -⟩ | ⟨rfl, he⟩ | ⟨rfl, loop, rest, hst, he⟩ := Nesting.step_cases hs
  · rw [hc] at hc'; cases hc'
  · have hj : d.builder.blocks.size ≤ e.nesting.current := by
      rw [he, bodyBlock]
      simp only
      omega
    obtain ⟨-, l, hl⟩ := getElem?_step_new hd h hj hblock
    rw [hl]
    rfl
  · have hp : e.nesting.current ∈ d.nesting.pending := by
      rw [he, Nesting.pending, hst]
      exact List.mem_cons_self
    have hne : d.nesting.current ≠ e.nesting.current := fun heq =>
      (List.nodup_cons.1 hd.valid.nodup).1 (heq ▸ hp)
    have hlt : e.nesting.current < d.builder.blocks.size := by
      have := hd.valid.pending_le _ hp
      omega
    exact hd.empty _ hp _ (getElem?_step_of_ne h hne hlt ▸ hblock)

end Draft

end TapeFlow
