import TapeFlow.Proofs.ControlFlow
import TapeFlow.Proofs.Registers

/-!
# Definitions in front of uses

The checker only asks that a register be defined somewhere in a function.  The
functions that lowering makes obey more: each register is defined once, and on
every path from the start its definition comes before each read of it.

* `Scoped` — code that reads what is known beforehand and what it has defined
  itself; the code of every command is of this kind, once the tape is set up.
* `Draft.InScope` — the blocks of a draft are, which is kept by reading a command,
  although the blocks are not filled in the order in which they were made.
* `Function.SingleAssignment` — the form of a lowered function.
* `Function.SingleAssignment.mem_of_path` — in a function of this form every read on a
  path comes after the definition.
* `lower_single_assignment` — lowering gives such a function.
-/

namespace TapeFlow

/-! ## Code in scope -/

/-- The registers that code defines, in order. -/
def definedBy (code : List Instruction) : List Reg := code.filterMap Instruction.defined?

/-- Code in which every register that is read is known beforehand or defined
earlier in the code. -/
def Scoped (known : List Reg) : List Instruction → Prop
  | [] => True
  | i :: code => (∀ u ∈ i.used, u ∈ known) ∧ Scoped (known ++ i.defined?.toList) code

theorem definedBy_append (code code' : List Instruction) :
    definedBy (code ++ code') = definedBy code ++ definedBy code' :=
  List.filterMap_append

theorem definedBy_cons (i : Instruction) (code : List Instruction) :
    definedBy (i :: code) = i.defined?.toList ++ definedBy code := by
  unfold definedBy
  cases h : i.defined? <;> simp [h]

theorem Scoped.mono {known known' : List Reg} {code : List Instruction} (h : Scoped known code)
    (hsub : known ⊆ known') : Scoped known' code := by
  induction code generalizing known known' with
  | nil => trivial
  | cons i code ih =>
    refine ⟨fun u hu => hsub (h.1 u hu), ih h.2 ?_⟩
    intro u hu
    rcases List.mem_append.1 hu with hu | hu
    · exact List.mem_append_left _ (hsub hu)
    · exact List.mem_append_right _ hu

theorem scoped_append {known : List Reg} {code code' : List Instruction} :
    Scoped known (code ++ code') ↔
      Scoped known code ∧ Scoped (known ++ definedBy code) code' := by
  induction code generalizing known with
  | nil => simp [Scoped, definedBy]
  | cons i code ih =>
    rw [List.cons_append, Scoped, ih, Scoped, definedBy_cons, List.append_assoc, and_assoc]

/-- What an instruction in the middle of code in scope reads. -/
theorem Scoped.mem_of_used {known : List Reg} {code : List Instruction} (h : Scoped known code)
    {k : Nat} {i : Instruction} (hi : code[k]? = some i) {u : Reg} (hu : u ∈ i.used) :
    u ∈ known ++ definedBy (code.take k) := by
  obtain ⟨hlt, rfl⟩ := List.getElem?_eq_some_iff.1 hi
  rw [← List.take_append_drop k code, scoped_append, List.drop_eq_getElem_cons hlt] at h
  exact h.2.1 u hu

section Codes

variable (symbols : Symbols) (layout : TapeLayout) (r : Nat)

/-- The code of a command takes the tape and the pointer as known, and nothing else. -/
theorem Command.scoped_code (c : Command) :
    Scoped [layout.tape, layout.slot] (c.code layout symbols r) := by
  cases c <;> simp [Scoped, Command.code, TapeLayout.moveCode, TapeLayout.testCode,
    TapeLayout.changeCode, TapeLayout.writeCode, TapeLayout.readCode, TapeLayout.cellCode,
    TapeLayout.addressCode, Instruction.used, Instruction.defined?]

/-- The code in front of a branch defines the register that the branch reads. -/
theorem Command.mem_definedBy_code {c : Command} (hc : c.isBracket = true) :
    Reg.ofNat (r + 4) ∈ definedBy (c.code layout symbols r) := by
  have htest : Reg.ofNat (r + 4) ∈ definedBy (layout.testCode r) := by
    rw [TapeLayout.testCode, definedBy_append]
    exact List.mem_append_right _ (List.mem_cons_of_mem _ List.mem_cons_self)
  obtain rfl | rfl := Command.eq_of_isBracket hc
  · exact htest
  · exact htest

/-- The code that sets up the tape takes nothing as known. -/
theorem TapeLayout.scoped_setUpCode (cellCount : UInt64) :
    Scoped [] (setUpCode symbols cellCount) := by
  simp [Scoped, setUpCode, Instruction.used, Instruction.defined?]

end Codes

/-! ## Blocks in scope -/

namespace Block

/-- The block reads a register at a place in its code, or at the end of it. -/
def ReadsAt (block : Block) (k : Nat) (u : Reg) : Prop :=
  (∃ i, block.instructions[k]? = some i ∧ u ∈ i.used) ∨
    (k = block.instructions.size ∧ ∃ t, block.terminator = some t ∧ u ∈ t.used)

/-- The registers that the block defines in front of a place. -/
def definedBefore (block : Block) (k : Nat) : List Reg :=
  definedBy (block.instructions.toList.take k)

/-- A block that reads what is known beforehand and what it has defined itself. -/
structure InScope (known : List Reg) (block : Block) : Prop where
  /-- So does its code. -/
  code : Scoped known block.instructions.toList
  /-- So does its end. -/
  ending : ∀ t, block.terminator = some t → ∀ u ∈ t.used,
    u ∈ known ++ definedBy block.instructions.toList

variable {known : List Reg} {block : Block}

theorem InScope.empty (id : BlockId) (label : String) : (Block.empty id label).InScope known :=
  ⟨trivial, nofun⟩

/-- More code that is in scope keeps an open block in scope. -/
theorem InScope.extend (h : block.InScope known) (hopen : block.terminator = none)
    {code : List Instruction} (hcode : Scoped known code) : (block.extend code).InScope known := by
  refine ⟨?_, fun t ht => ?_⟩
  · rw [Block.extend, Array.toList_append, scoped_append]
    exact ⟨h.code, hcode.mono (List.subset_append_left _ _)⟩
  · rw [Block.extend, hopen] at ht
    cases ht

/-- So does an end after it, if the end reads only what that code defines. -/
theorem InScope.close (h : block.InScope known) (hopen : block.terminator = none)
    {code : List Instruction} (hcode : Scoped known code) {t : Terminator}
    (ht : ∀ u ∈ t.used, u ∈ definedBy code) : ((block.extend code).finish t).InScope known := by
  refine ⟨(h.extend hopen hcode).code, fun t' ht' u hu => ?_⟩
  cases ht'
  rw [Block.finish, Block.extend, Array.toList_append, definedBy_append]
  exact List.mem_append_right _ (List.mem_append_right _ (ht u hu))

/-- What a block in scope reads is known, or defined in front of the read. -/
theorem InScope.mem_of_readsAt (h : block.InScope known) {k : Nat} {u : Reg}
    (hread : block.ReadsAt k u) : u ∈ known ++ block.definedBefore k := by
  rcases hread with ⟨i, hi, hu⟩ | ⟨rfl, t, ht, hu⟩
  · exact h.code.mem_of_used (by simpa using hi) hu
  · rw [definedBefore, ← Array.length_toList, List.take_length]
    exact h.ending t ht u hu

end Block

namespace Draft

variable {symbols : Symbols} {layout : TapeLayout} {d e : Draft}

/-- All blocks so far are in scope, the tape and the pointer being known. -/
def InScope (layout : TapeLayout) (d : Draft) : Prop :=
  ∀ (j : Nat) (block : Block), d.builder.blocks[j]? = some block →
    block.InScope [layout.tape, layout.slot]

/-- Reading a command keeps the blocks in scope. -/
theorem InScope.step (h : d.InScope layout) (hd : d.Fits) {c : Command}
    (hstep : d.step symbols layout c = some e) : e.InScope layout := by
  intro j block hblock
  rcases block_step_cases hd hstep hblock with
    ⟨rfl, old, hold, rfl⟩ | ⟨-, -, hold⟩ | ⟨-, -, label, rfl⟩
  · have hopen := (hd.open_iff _ old hold).2 List.mem_cons_self
    have hcode := c.scoped_code symbols layout d.regs
    by_cases hc : c.isBracket = true
    · rw [if_pos hc]
      refine (h _ old hold).close hopen hcode fun u hu => ?_
      -- the branch reads the outcome of the test, which the code ends with
      have hcond : u = .ofNat (d.regs + 4) := List.mem_singleton.1 hu
      rw [hcond]
      exact c.mem_definedBy_code symbols layout d.regs hc
    · rw [if_neg hc]
      exact (h _ old hold).extend hopen hcode
  · exact h j block hold
  · exact .empty _ _

theorem InScope.run (h : d.InScope layout) (hd : d.Fits) {cs : List Command}
    (hrun : d.run symbols layout cs = some e) : e.InScope layout := by
  have hstep : ∀ {s t : Draft} {c}, s.InScope layout ∧ s.Fits →
      s.step symbols layout c = some t → t.InScope layout ∧ t.Fits :=
    fun hs ht => ⟨hs.1.step hs.2 ht, hs.2.step ht⟩
  exact (kept_by_run (fun _ => rfl) run_cons hstep ⟨h, hd⟩ hrun).1

/-- The block that a draft starts with. -/
theorem getElem?_start (options : Options) :
    (start options).builder.blocks[0]? = some ((Block.empty ⟨0⟩ "entry").extend
      (TapeLayout.setUpCode options.symbols options.cellCount)) := rfl

theorem inScope_start (options : Options) : (start options).InScope (tapeLayout options) := by
  intro j block hblock
  have hj : j = 0 := by
    have hlt := (Array.getElem?_eq_some_iff.1 hblock).1
    have hsize := (fits_start options).size
    simp only [start] at hlt hsize
    omega
  subst hj
  rw [getElem?_start] at hblock
  cases hblock
  exact (Block.InScope.empty _ _).extend rfl
    ((TapeLayout.scoped_setUpCode _ _).mono (List.nil_subset _))

/-- The end of the program keeps the blocks in scope. -/
theorem InScope.finished (h : d.InScope layout) (hd : d.Fits) {j : Nat} {block : Block}
    (hblock : d.finished.blocks[j]? = some block) : block.InScope [layout.tape, layout.slot] := by
  rw [getElem?_finished] at hblock
  by_cases hj : d.nesting.current = j
  · rw [if_pos hj] at hblock
    obtain ⟨old, hold, rfl⟩ := Option.map_eq_some_iff.1 hblock
    have hopen := (hd.open_iff _ old hold).2 (hj ▸ List.mem_cons_self)
    have hcode : Scoped [layout.tape, layout.slot] [.const (.ofNat d.regs) .i32 0] :=
      ⟨nofun, trivial⟩
    refine (h j old hold).close hopen hcode fun u hu => ?_
    have hresult : u = .ofNat d.regs := by simpa [Terminator.used] using hu
    rw [hresult]
    exact List.mem_cons_self
  · rw [if_neg hj] at hblock
    exact h j block hblock

end Draft

/-! ## Functions -/

namespace Function

/-- A path of branches from the start of a function: the blocks it has gone
through, and the block it has come to. -/
inductive Path (f : Function) : List Block → Block → Prop where
  /-- The path that has gone nowhere. -/
  | entry {block : Block} (found : f.entryBlock? = some block) : Path f [] block
  /-- One more branch, whichever of them. -/
  | branch {passed : List Block} {block next : Block} {target : BlockId}
    (before : Path f passed block) (edge : target ∈ block.successors)
    (found : f.block? target = some next) : Path f (passed ++ [block]) next

/-- The form of a lowered function. -/
structure SingleAssignment (f : Function) (layout : TapeLayout) : Prop where
  /-- No register is defined twice. -/
  once : f.definitions.Nodup
  /-- The first block allocates the tape and the pointer before anything else. -/
  setUp : ∃ block code, f.entryBlock? = some block ∧ block.instructions.toList =
    .alloca layout.tape .i8 layout.cellCount :: .alloca layout.slot .i64 1 :: code
  /-- Every other register is read in the block that defines it, later. -/
  inScope : ∀ block ∈ f.blocks, ∀ k u, block.ReadsAt k u →
    u = layout.tape ∨ u = layout.slot ∨ u ∈ block.definedBefore k
  /-- No branch leads to the first block. -/
  start : f.predecessors f.entry = []

variable {f : Function} {layout : TapeLayout}

theorem mem_of_block? {id : BlockId} {block : Block} (h : f.block? id = some block) :
    block ∈ f.blocks := by
  obtain ⟨hlt, rfl⟩ := Array.getElem?_eq_some_iff.1 h
  exact Array.getElem_mem hlt

namespace Path

variable {passed : List Block} {block : Block}

theorem mem (h : f.Path passed block) : block ∈ f.blocks := by
  cases h with
  | entry found => exact mem_of_block? found
  | branch _ _ found => exact mem_of_block? found

/-- A path that has left its first block has gone through it. -/
theorem entry_mem (h : f.Path passed block) {first : Block} (hfirst : f.entryBlock? = some first) :
    first ∈ passed ++ [block] := by
  induction h with
  | entry found =>
    rw [hfirst] at found
    cases found
    exact List.mem_singleton_self _
  | branch _ _ _ ih => exact List.mem_append_left _ ih

end Path

namespace SingleAssignment

variable {passed : List Block} {block : Block} {k : Nat} {u : Reg}

theorem mem_definedBy_allocas (hu : u = layout.tape ∨ u = layout.slot) (code : List Instruction) :
    u ∈ definedBy
      (.alloca layout.tape .i8 layout.cellCount :: .alloca layout.slot .i64 1 :: code) := by
  rcases hu with rfl | rfl
  · exact List.mem_cons_self
  · exact List.mem_cons_of_mem _ List.mem_cons_self

/-- In the first block nothing is read in front of the two allocations. -/
theorem mem_of_first (h : f.SingleAssignment layout) (hfirst : f.entryBlock? = some block)
    (hread : block.ReadsAt k u) (hu : u = layout.tape ∨ u = layout.slot) :
    u ∈ block.definedBefore k := by
  obtain ⟨first, code, hfirst', hcode⟩ := h.setUp
  rw [hfirst] at hfirst'
  cases hfirst'
  match k with
  | 0 | 1 =>
    rcases hread with ⟨i, hi, hused⟩ | ⟨hk, -⟩
    · rw [← Array.getElem?_toList, hcode] at hi
      cases hi
      cases hused
    · rw [← Array.length_toList, hcode] at hk
      simp at hk
  | k + 2 =>
    rw [Block.definedBefore, hcode]
    exact mem_definedBy_allocas hu (code.take k)

/-- On every path each read comes after the definition. -/
theorem mem_of_path (h : f.SingleAssignment layout) (hpath : f.Path passed block)
    (hread : block.ReadsAt k u) :
    u ∈ passed.flatMap (fun b => definedBy b.instructions.toList) ++ block.definedBefore k := by
  have hscope := h.inScope block hpath.mem k u hread
  rw [← or_assoc] at hscope
  rcases hscope with hu | hu
  · -- the tape and the pointer: the path has been through the first block, or is in it
    cases hpath with
    | entry found => exact List.mem_append_right _ (h.mem_of_first found hread hu)
    | branch before _ _ =>
      obtain ⟨first, code, hfirst, hcode⟩ := h.setUp
      refine List.mem_append_left _ (List.mem_flatMap.2 ⟨first, before.entry_mem hfirst, ?_⟩)
      rw [hcode]
      exact mem_definedBy_allocas hu code
  · exact List.mem_append_right _ hu

end SingleAssignment

end Function

/-- A finished draft is in single-assignment form. -/
theorem Draft.Completes.singleAssignment {e : Draft} {options : Options} {source : Source}
    (h : e.Completes options source.commands) :
    e.finished.finish.SingleAssignment (tapeLayout options) where
  once := h.nodup_definitions
  setUp := by
    have hfirst := getElem?_finished_current (fits_start options) h.run (getElem?_start options)
    refine ⟨_, (TapeLayout.setUpCode options.symbols options.cellCount).drop 2 ++
      segment options.symbols (tapeLayout options) 5 source.commands, hfirst, ?_⟩
    simp only [Block.finish, Block.extend, Array.toList_append]
    rfl
  inScope := by
    intro block hmem k u hread
    obtain ⟨j, hj, rfl⟩ := Array.mem_iff_getElem.1 hmem
    have hscope := ((inScope_start options).run (fits_start options) h.run).finished h.fits
      (Array.getElem?_eq_getElem hj)
    have := hscope.mem_of_readsAt hread
    simpa [or_assoc] using this
  start := h.follows.predecessors_entry h.balanced

/-- Lowering a source whose brackets match gives one function, in which each
register is defined once and every read on a path comes after the definition. -/
theorem lower_single_assignment {options : Options} {source : Source}
    (hbal : Balanced source.commands) (hsmall : source.commands.length < 2 ^ 29)
    (hcells : options.cellCount.toNat < 2 ^ 63) :
    ∃ (m : Module) (f : Function) (tally : Tally),
      (lower options (.ofSource source)).1 = .ok (m, tally) ∧ m.functions = [f] ∧
        f.SingleAssignment (tapeLayout options) ∧
        ∀ (passed : List Block) (block : Block), f.Path passed block → ∀ k u, block.ReadsAt k u →
          u ∈ passed.flatMap (fun b => definedBy b.instructions.toList) ++
            block.definedBefore k := by
  obtain ⟨e, tally, he, h⟩ := lower_eq_finished hcells hbal hsmall
  refine ⟨_, e.finished.finish, tally, h, rfl, he.singleAssignment, ?_⟩
  intro passed block hpath k u hread
  exact he.singleAssignment.mem_of_path hpath hread

/-- The copying program `,[.,]`: the second time around, the body reads what it has defined
this time or what the first block has. -/
theorem lower_single_assignment_copy :
    Balanced (Source.commands [44, 91, 46, 44, 93]) ∧
      (Source.commands [44, 91, 46, 44, 93]).length < 2 ^ 29 ∧
      ({} : Options).cellCount.toNat < 2 ^ 63 ∧
      ∃ (m : Module) (f : Function) (tally : Tally) (first body : Block),
        (lower {} (.ofSource [44, 91, 46, 44, 93])).1 = .ok (m, tally) ∧ m.functions = [f] ∧
        f.SingleAssignment (tapeLayout {}) ∧ f.Path [first, body] body ∧
        ∀ k u, body.ReadsAt k u → u ∈ [first, body].flatMap (fun b =>
          definedBy b.instructions.toList) ++ body.definedBefore k := by
  have hbal : Balanced (Source.commands [44, 91, 46, 44, 93]) := by decide
  have hsmall : (Source.commands [44, 91, 46, 44, 93]).length < 2 ^ 29 := by decide
  have hcells : ({} : Options).cellCount.toNat < 2 ^ 63 := by decide
  obtain ⟨m, f, tally, hlower, hf, hsingle, hreads⟩ := lower_single_assignment hbal hsmall hcells
  obtain ⟨e, tally', he, hlower'⟩ := lower_eq_finished hcells hbal hsmall
  rw [hlower] at hlower'
  cases hlower'
  cases hf
  have hloop : Source.Matches [44, 91, 46, 44, 93] 1 4 := ⟨by decide, rfl, rfl, by decide⟩
  have hopen : Source.Home [44, 91, 46, 44, 93] 1 0 := by
    refine .start fun q hq => ?_
    obtain rfl : q = 0 := by omega
    decide
  have hclose : Source.Home [44, 91, 46, 44, 93] 4 1 := by
    refine .body (q := 1) ⟨by decide, .inl rfl, fun r hr hlt => ?_⟩ rfl
    obtain rfl | rfl : r = 2 ∨ r = 3 := by omega
    all_goals decide
  obtain ⟨first, _, hfirst, hend⟩ := he.follows.branches 1 4 1 0 hloop (.inl rfl) hopen
  obtain ⟨body, _, hbody, hend'⟩ := he.follows.branches 1 4 4 1 hloop (.inr rfl) hclose
  have hedge : BlockId.ofNat 1 ∈ first.successors := by
    rw [Block.successors, hend]
    exact List.mem_cons_self
  have hedge' : BlockId.ofNat 1 ∈ body.successors := by
    rw [Block.successors, hend']
    exact List.mem_cons_self
  have hpath : e.finished.finish.Path [first, body] body :=
    ((Function.Path.entry hfirst).branch hedge hbody).branch hedge' hbody
  exact ⟨hbal, hsmall, hcells, _, _, tally, first, body, hlower, rfl, hsingle, hpath,
    hreads _ _ hpath⟩

end TapeFlow
