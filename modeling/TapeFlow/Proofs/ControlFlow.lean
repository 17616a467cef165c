import TapeFlow.Check.Report
import TapeFlow.Proofs.Brackets
import TapeFlow.Proofs.Lowering
import TapeFlow.Proofs.Reachability

/-!
# The shape of the control-flow graph

Blocks and brackets belong together one to one: every block ends at the one
bracket, or the end of the source, whose home it is.  The brackets of a loop end
their blocks with the same branch, so the branches can be read off the source.

* `Draft.Completes.exists_branch_of_matches`, `Draft.Completes.exists_return` — how
  the home of a bracket ends, and that of the end.
* `Function.Follows` — the blocks of a function end as the brackets of a source say.
* `Function.Follows.predecessors_eq`, `Function.Follows.reachable` — where the blocks
  of such a function are entered from, and that each is.
* `lower_mirrors` — lowering gives a function whose graph is that of the brackets.
-/

namespace TapeFlow

/-! ## The blocks of a finished draft -/

namespace Draft.Completes

variable {e : Draft} {options : Options} {source : Source} {p b i j : Nat}

/-- What the home of an offset holds in the end. -/
theorem exists_block (h : e.Completes options source.commands) (hb : source.Home p b) :
    ∃ (d : Draft) (block : Block),
      ({} : Nesting).run (Source.commands (source.take p)) = some d.nesting ∧
      d.run options.symbols (tapeLayout options) (Source.commands (source.drop p)) = some e ∧
      e.finished.blocks[b]? = some ((block.extend (segment options.symbols (tapeLayout options)
        d.regs (Source.commands (source.drop p)))).finish
          (ending d.nesting d.regs (Source.commands (source.drop p)))) := by
  obtain ⟨s, hs⟩ := Source.exists_run_take h.balanced p
  obtain ⟨d, hd, rfl⟩ := exists_run (d := Draft.start options) options.symbols (tapeLayout options) hs
  have hrun := h.run
  rw [← List.take_append_drop p source, Source.commands_append, run_append_of_eq hd] at hrun
  have hfits := (fits_start options).run hd
  obtain ⟨block, hblock⟩ : ∃ block, d.builder.blocks[d.nesting.current]? = some block :=
    ⟨_, Array.getElem?_eq_getElem hfits.current_lt⟩
  refine ⟨d, block, hs, hrun, ?_⟩
  rw [(Source.home_iff hs).1 hb]
  exact getElem?_finished_current hfits hrun hblock

/-- The home of a bracket ends with a branch of the loop that the bracket opens
or closes. -/
theorem exists_branch (h : e.Completes options source.commands) {c : Command}
    (hc : c.isBracket = true) (hp : source[p]? = some c.toByte) (hb : source.Home p b) :
    ∃ (s : Nesting) (block : Block) (r : Nat), r < e.regs ∧
      ({} : Nesting).run (Source.commands (source.take p)) = some s ∧
      e.finished.blocks[b]? = some block ∧
      block.terminator = some (loopBranch (.ofNat r) (s.loopOf c)) := by
  obtain ⟨d, block, hs, hrun, hblock⟩ := h.exists_block hb
  obtain ⟨hlt, hbyte⟩ := List.getElem?_eq_some_iff.1 hp
  have hdrop : Source.commands (source.drop p) = c :: Source.commands (source.drop (p + 1)) := by
    rw [List.drop_eq_getElem_cons hlt, hbyte, Source.commands_cons_toByte]
  rw [hdrop] at hrun hblock
  refine ⟨d.nesting, _, d.regs + 4, ?_, hs, hblock, ?_⟩
  · rw [run_cons] at hrun
    obtain ⟨d', hd', hr⟩ := Option.bind_eq_some_iff.1 hrun
    have hregs := (step_eq_some hd').2.2
    have hfive : c.regs = 5 := by
      obtain rfl | rfl := Command.eq_of_isBracket hc <;> rfl
    have := (regs_run hr).1
    omega
  · rw [ending, if_pos hc]
    rfl

/-- Both brackets of a loop end their homes with the branch of that loop. -/
theorem exists_branch_of_matches (h : e.Completes options source.commands)
    (hmatch : source.Matches i j) (hp : p = i ∨ p = j) (hb : source.Home p b) :
    ∃ (block : Block) (r : Nat), r < e.regs ∧ e.finished.blocks[b]? = some block ∧
      block.terminator = some (.condBr (.ofNat r) (.ofNat (2 * source.loopNumber i - 1))
        (.ofNat (2 * source.loopNumber i))) := by
  have hbranch : ∀ {r k}, k + 1 = source.loopNumber i →
      loopBranch (.ofNat r) k = .condBr (.ofNat r) (.ofNat (2 * source.loopNumber i - 1))
        (.ofNat (2 * source.loopNumber i)) := by
    intro r k hk
    rw [loopBranch, ← hk]
    rfl
  rcases hp with rfl | rfl
  · obtain ⟨s, block, r, hr, hs, hblock, hend⟩ := h.exists_branch rfl hmatch.opens hb
    refine ⟨block, r, hr, hblock, ?_⟩
    rw [hend]
    exact congrArg some (hbranch (Source.opened_of_run hs))
  · obtain ⟨s, block, r, hr, hs, hblock, hend⟩ := h.exists_branch rfl hmatch.closes hb
    obtain ⟨t, ht, hstack, -⟩ := hmatch.run hs
    refine ⟨block, r, hr, hblock, ?_⟩
    rw [hend, Nesting.loopOf, hstack]
    exact congrArg some (hbranch (Source.opened_of_run ht))

/-- The home of the end returns zero. -/
theorem exists_return (h : e.Completes options source.commands)
    (hb : source.Home source.length b) :
    ∃ block : Block, e.finished.blocks[b]? = some block ∧
      block.terminator = some (.ret (some (.ofNat e.regs))) ∧
      block.instructions.back? = some (.const (.ofNat e.regs) .i32 0) := by
  obtain ⟨d, block, -, hrun, hblock⟩ := h.exists_block hb
  rw [List.drop_length] at hrun hblock
  cases hrun
  refine ⟨_, hblock, rfl, ?_⟩
  simp [segment, Block.finish, Block.extend, Source.commands]

end Draft.Completes

/-! ## The shape of a function -/

/-- The blocks of a function follow the brackets of a source. -/
structure Function.Follows (f : Function) (source : Source) : Prop where
  /-- There is the first block and two for each loop. -/
  size : f.blocks.size = 1 + 2 * source.count (Command.toByte .loopOpen)
  /-- The function starts at the first. -/
  entry : f.entry.toNat = 0
  /-- A block carries the number of its position. -/
  numbered : ∀ (b : Nat) (block : Block), f.blocks[b]? = some block → block.id.toNat = b
  /-- Both brackets of a loop end their homes with a branch to the loop's two blocks. -/
  branches : ∀ (i j p b : Nat), source.Matches i j → p = i ∨ p = j → source.Home p b →
    ∃ (block : Block) (cond : Reg), f.blocks[b]? = some block ∧
      block.terminator = some (.condBr cond (.ofNat (2 * source.loopNumber i - 1))
        (.ofNat (2 * source.loopNumber i)))
  /-- The home of the end defines a register as zero and returns it. -/
  ends : ∀ b, source.Home source.length b → ∃ (block : Block) (result : Reg),
    f.blocks[b]? = some block ∧ block.terminator = some (.ret (some result)) ∧
      block.instructions.back? = some (.const result .i32 0)

/-- A finished draft follows the source it was made from. -/
theorem Draft.Completes.follows {e : Draft} {options : Options} {source : Source}
    (h : e.Completes options source.commands) : e.finished.finish.Follows source where
  size := by rw [← Source.count_commands]; exact h.size
  entry := rfl
  numbered := by
    intro b block hblock
    have hlt := (Array.getElem?_eq_some_iff.1 hblock).1
    have hsize := h.size
    have hcount := h.count_lt
    rw [h.fits.id_finished hblock]
    exact BlockId.toNat_ofNat (by simp only [Builder.finish] at hlt; omega)
  branches := by
    intro i j p b hmatch hp hb
    obtain ⟨block, r, -, hblock, hend⟩ := h.exists_branch_of_matches hmatch hp hb
    exact ⟨block, .ofNat r, hblock, hend⟩
  ends := by
    intro b hb
    obtain ⟨block, hblock, hend, hlast⟩ := h.exists_return hb
    exact ⟨block, .ofNat e.regs, hblock, hend, hlast⟩

/-- Everything in front of its first member is filtered out. -/
theorem filter_eq_cons_of_first {α : Type} {P : α → Bool} {l : List α} {k : Nat} {x : α}
    (hx : l[k]? = some x) (hP : P x = true) (hfirst : ∀ i < k, ∀ z, l[i]? = some z → P z = false) :
    l.filter P = x :: (l.drop (k + 1)).filter P := by
  have hsplit : l = l.take k ++ x :: l.drop (k + 1) := by
    obtain ⟨hlt, rfl⟩ := List.getElem?_eq_some_iff.1 hx
    rw [← List.drop_eq_getElem_cons hlt, List.take_append_drop]
  refine List.filter_eq_cons_iff.2 ⟨_, _, hsplit, fun z hz => ?_, hP, rfl⟩
  obtain ⟨i, hi⟩ := List.mem_iff_getElem?.1 hz
  have hlt : i < k := by
    have := (List.getElem?_eq_some_iff.1 hi).1
    simp at this
    omega
  rw [List.getElem?_take_of_lt hlt] at hi
  rw [hfirst i hlt z hi]
  exact Bool.false_ne_true

/-- What holds at two positions only. -/
theorem filter_eq_pair {α : Type} {P : α → Bool} {l : List α} {a b : Nat} {x y : α} (hab : a < b)
    (hx : l[a]? = some x) (hy : l[b]? = some y)
    (hP : ∀ i z, l[i]? = some z → (P z = true ↔ i = a ∨ i = b)) : l.filter P = [x, y] := by
  have hfalse : ∀ i z, l[i]? = some z → i ≠ a → i ≠ b → P z = false := by
    intro i z hz ha hb
    rw [← Bool.not_eq_true, hP i z hz, not_or]
    exact ⟨ha, hb⟩
  have hy' : (l.drop (a + 1))[b - (a + 1)]? = some y := by
    rw [List.getElem?_drop, show a + 1 + (b - (a + 1)) = b by omega, hy]
  rw [filter_eq_cons_of_first hx ((hP a x hx).2 (.inl rfl))
    fun i hi z hz => hfalse i z hz (by omega) (by omega)]
  rw [filter_eq_cons_of_first hy' ((hP b y hy).2 (.inr rfl)) fun i hi z hz =>
    hfalse _ z (List.getElem?_drop.symm.trans hz) (by omega) (by omega)]
  rw [List.filter_eq_nil_iff.2]
  intro z hz
  obtain ⟨i, hi⟩ := List.mem_iff_getElem?.1 hz
  rw [List.getElem?_drop, List.getElem?_drop] at hi
  rw [hfalse _ z hi (by omega) (by omega)]
  exact Bool.false_ne_true

namespace Function.Follows

variable {f : Function} {source : Source} {a b c i j n : Nat} {block : Block}

theorem lt_of_block (h : f.Follows source) (hc : c < f.blocks.size) : c < 2 ^ 32 := by
  have hid := h.numbered c _ (Array.getElem?_eq_getElem hc)
  rw [← hid]
  exact UInt32.toNat_lt _

theorem loopNumber_lt (h : f.Follows source) (hi : source[i]? = some (Command.toByte .loopOpen)) :
    2 * source.loopNumber i < f.blocks.size := by
  have hlt := (List.getElem?_eq_some_iff.1 hi).1
  have hnumber := Source.loopNumber_lt hi hlt
  rw [h.size]
  simp only [Source.loopNumber, List.take_length] at hnumber ⊢
  omega

/-- Where control goes from a block: to the two blocks of the loop whose bracket
stands there, or nowhere. -/
theorem successors_cases (h : f.Follows source) (hbal : Balanced source.commands)
    (hblock : f.blocks[c]? = some block) :
    (∃ i j p, source.Matches i j ∧ (p = i ∨ p = j) ∧ source.Home p c ∧ block.successors =
      [.ofNat (2 * source.loopNumber i - 1), .ofNat (2 * source.loopNumber i)]) ∨
    block.successors = [] := by
  have hlt := (Array.getElem?_eq_some_iff.1 hblock).1
  rw [h.size, ← Source.count_commands] at hlt
  obtain ⟨p, hp, hc⟩ := Source.exists_place hbal (b := c) (by omega)
  rcases hp with hp | rfl
  · obtain ⟨i, j, hmatch, hp⟩ := hp.exists_matches hbal
    obtain ⟨block', cond, hblock', hend⟩ := h.branches i j p c hmatch hp hc
    cases hblock.symm.trans hblock'
    refine .inl ⟨i, j, p, hmatch, hp, hc, ?_⟩
    rw [Block.successors, hend]
    rfl
  · obtain ⟨block', result, hblock', hend, -⟩ := h.ends c hc
    cases hblock.symm.trans hblock'
    refine .inr ?_
    rw [Block.successors, hend]
    rfl

/-- Only the homes of its own brackets lead to the blocks of a loop. -/
theorem mem_successors_iff (h : f.Follows source) (hbal : Balanced source.commands)
    (hmatch : source.Matches i j) (ha : source.Home i a) (hb : source.Home j b)
    (hn : n = 2 * source.loopNumber i - 1 ∨ n = 2 * source.loopNumber i)
    (hblock : f.blocks[c]? = some block) :
    BlockId.ofNat n ∈ block.successors ↔ c = a ∨ c = b := by
  constructor
  · intro hmem
    rcases h.successors_cases hbal hblock with ⟨i', j', p, hmatch', hp, hc, hsucc⟩ | hsucc
    · rw [hsucc, List.mem_cons, List.mem_singleton] at hmem
      -- numbers are small, so equal block numbers are equal loop numbers
      have hk := h.loopNumber_lt hmatch.opens
      have hk' := h.loopNumber_lt hmatch'.opens
      have hk32 := h.lt_of_block hk
      have hk32' := h.lt_of_block hk'
      have hpos : 1 ≤ source.loopNumber i := Nat.le_add_left ..
      have hpos' : 1 ≤ source.loopNumber i' := Nat.le_add_left ..
      rw [BlockId.ofNat_inj (by omega) (by omega), BlockId.ofNat_inj (by omega) (by omega)] at hmem
      have hi : i' = i := Source.loopNumber_injective hmatch'.opens hmatch.opens (by omega)
      subst hi
      have hj := hmatch.closing_unique hmatch'
      subst hj
      rcases hp with rfl | rfl
      · exact .inl (Source.home_unique hbal ha hc)
      · exact .inr (Source.home_unique hbal hb hc)
    · rw [hsucc] at hmem
      cases hmem
  · intro hc
    have hbranch : ∃ (block : Block) (cond : Reg), f.blocks[c]? = some block ∧
        block.terminator = some (.condBr cond (.ofNat (2 * source.loopNumber i - 1))
          (.ofNat (2 * source.loopNumber i))) := by
      rcases hc with rfl | rfl
      · exact h.branches i j i c hmatch (.inl rfl) ha
      · exact h.branches i j j c hmatch (.inr rfl) hb
    obtain ⟨block', cond, hblock', hend⟩ := hbranch
    cases hblock.symm.trans hblock'
    rw [Block.successors, hend]
    rcases hn with rfl | rfl
    · exact List.mem_cons_self
    · exact List.mem_cons_of_mem _ List.mem_cons_self

theorem id_eq (h : f.Follows source) (hblock : f.blocks[c]? = some block) :
    block.id = .ofNat c := by
  rw [← h.numbered c block hblock]
  simp [BlockId.ofNat, BlockId.toNat]

/-- The blocks of a loop are entered from the homes of its two brackets. -/
theorem predecessors_eq (h : f.Follows source) (hbal : Balanced source.commands)
    (hmatch : source.Matches i j) (ha : source.Home i a) (hb : source.Home j b)
    (hn : n = 2 * source.loopNumber i - 1 ∨ n = 2 * source.loopNumber i) :
    f.predecessors (.ofNat n) = [.ofNat a, .ofNat b] := by
  obtain ⟨x, -, hx, -⟩ := h.branches i j i a hmatch (.inl rfl) ha
  obtain ⟨y, -, hy, -⟩ := h.branches i j j b hmatch (.inr rfl) hb
  have hfilter : f.blocks.toList.filter (fun block => block.successors.contains (.ofNat n)) =
      [x, y] := by
    refine filter_eq_pair (hmatch.home_lt hbal ha hb) (by simpa using hx) (by simpa using hy) ?_
    intro c block hc
    rw [List.contains_iff_mem]
    exact h.mem_successors_iff hbal hmatch ha hb hn (by simpa using hc)
  rw [predecessors, hfilter, List.map_cons, List.map_cons, h.id_eq hx, h.id_eq hy]
  rfl

/-- Nothing leads back to the start. -/
theorem predecessors_entry (h : f.Follows source) (hbal : Balanced source.commands) :
    f.predecessors f.entry = [] := by
  rw [predecessors, List.filter_eq_nil_iff.2, List.map_nil]
  intro block hmem hcontains
  obtain ⟨c, hc⟩ := List.mem_iff_getElem?.1 hmem
  rw [List.contains_iff_mem] at hcontains
  rcases h.successors_cases hbal (by simpa using hc) with ⟨i, j, p, hmatch, -, -, hsucc⟩ | hsucc
  · have hk := h.loopNumber_lt hmatch.opens
    have hk32 := h.lt_of_block hk
    have hpos : 1 ≤ source.loopNumber i := Nat.le_add_left ..
    rw [hsucc, List.mem_cons, List.mem_singleton] at hcontains
    have hentry := h.entry
    rcases hcontains with he | he
    · rw [he, BlockId.toNat_ofNat (by omega)] at hentry
      omega
    · rw [he, BlockId.toNat_ofNat (by omega)] at hentry
      omega
  · rw [hsucc] at hcontains
    cases hcontains

/-- Every block can be reached: the bracket that opens a loop stands in an earlier
block and leads to both blocks of the loop. -/
theorem reachable (h : f.Follows source) (hbal : Balanced source.commands)
    (hc : c < f.blocks.size) : f.Reachable (.ofNat c) := by
  induction c using Nat.strongRecOn with
  | ind c ih =>
    rcases Nat.eq_zero_or_pos c with rfl | hpos
    · have hentry : f.entry = .ofNat 0 := by
        rw [← h.entry]
        simp [BlockId.ofNat, BlockId.toNat]
      exact hentry ▸ .entry
    · have hsize := h.size
      rw [← Source.count_commands] at hsize
      obtain ⟨i, j, hmatch, hn⟩ := Source.exists_loop hbal (b := c) (by omega) hpos
      obtain ⟨a, ha⟩ := Source.exists_home hbal i
      obtain ⟨b, hb⟩ := Source.exists_home hbal j
      obtain ⟨block, -, hblock, -⟩ := h.branches i j i a hmatch (.inl rfl) ha
      have hlt := Source.home_lt_body hbal ha
      have hasize := (Array.getElem?_eq_some_iff.1 hblock).1
      refine .branch (ih a (by omega) hasize) (b := block) ?_
        ((h.mem_successors_iff hbal hmatch ha hb hn hblock).2 (.inl rfl))
      rw [block?, BlockId.toNat_ofNat (h.lt_of_block hasize), hblock]

end Function.Follows

/-- The graph of a function is that of the brackets of a source. -/
structure Function.Mirrors (f : Function) (source : Source) : Prop extends f.Follows source where
  /-- Every block is the home of one bracket or of the end. -/
  housed : source.Housed f.blocks.size
  /-- The brackets belong together two by two. -/
  paired : source.Paired
  /-- The two blocks of a loop are entered from the homes of its brackets only. -/
  entered : ∀ i j a b, source.Matches i j → source.Home i a → source.Home j b →
    a ≠ b ∧ f.predecessors (.ofNat (2 * source.loopNumber i - 1)) = [.ofNat a, .ofNat b] ∧
      f.predecessors (.ofNat (2 * source.loopNumber i)) = [.ofNat a, .ofNat b]
  /-- The first block is entered from nowhere. -/
  start : f.predecessors f.entry = []
  /-- A path of branches leads from the first block to every other. -/
  reachable : ∀ block ∈ f.blocks, f.Reachable block.id

namespace Function.Follows

variable {f : Function} {source : Source}

theorem reachable_id (h : f.Follows source) (hbal : Balanced source.commands) {block : Block}
    (hmem : block ∈ f.blocks) : f.Reachable block.id := by
  obtain ⟨c, hc, rfl⟩ := Array.mem_iff_getElem.1 hmem
  rw [h.id_eq (Array.getElem?_eq_getElem hc)]
  exact h.reachable hbal hc

theorem mirrors (h : f.Follows source) (hbal : Balanced source.commands) : f.Mirrors source where
  toFollows := h
  housed := h.size ▸ Source.housed hbal
  paired := Source.paired hbal
  entered := fun _ _ _ _ hmatch ha hb => ⟨Nat.ne_of_lt (hmatch.home_lt hbal ha hb),
    h.predecessors_eq hbal hmatch ha hb (.inl rfl), h.predecessors_eq hbal hmatch ha hb (.inr rfl)⟩
  start := h.predecessors_entry hbal
  reachable := fun _ hmem => h.reachable_id hbal hmem

/-- Where all blocks can be reached there is nothing to warn about. -/
theorem warnings_eq_nil (h : f.Follows source) (hbal : Balanced source.commands) {m : Module}
    (hm : m.functions = [f]) : m.check.warnings = [] := by
  have hreach : f.unreachable = [] :=
    Function.unreachable_eq_nil fun _ hmem _ => h.reachable_id hbal hmem
  have hfunction : (m.checkFunction f).unreachable = [] := by
    rw [Module.checkFunction]
    split
    · rfl
    · exact hreach
  have hcheck : m.check.unreachable = [] ++ (m.checkFunction f).unreachable := by
    rw [Module.check, hm]
    rfl
  rw [Report.warnings, hcheck, hfunction]
  rfl

end Function.Follows

/-- Lowering a source whose brackets match gives one function, whose graph is that
of the brackets; the checker has nothing to warn about. -/
theorem lower_mirrors {options : Options} {source : Source} (hbal : Balanced source.commands)
    (hsmall : source.commands.length < 2 ^ 29) (hcells : options.cellCount.toNat < 2 ^ 63) :
    ∃ (m : Module) (f : Function) (tally : Tally),
      (lower options (.ofSource source)).1 = .ok (m, tally) ∧ m.functions = [f] ∧
        f.Mirrors source ∧ m.check.warnings = [] := by
  obtain ⟨e, tally, he, h⟩ := lower_eq_finished hcells hbal hsmall
  exact ⟨_, e.finished.finish, tally, h, rfl, he.follows.mirrors hbal,
    he.follows.warnings_eq_nil hbal rfl⟩

/-- One loop inside another, `[+[-]>]`: the outer body is entered from the first block
and from the block after the inner loop. -/
theorem lower_mirrors_nested :
    Balanced (Source.commands [91, 43, 91, 45, 93, 62, 93]) ∧
      (Source.commands [91, 43, 91, 45, 93, 62, 93]).length < 2 ^ 29 ∧
      ({} : Options).cellCount.toNat < 2 ^ 63 ∧
      ∃ (m : Module) (f : Function) (tally : Tally),
        (lower {} (.ofSource [91, 43, 91, 45, 93, 62, 93])).1 = .ok (m, tally) ∧
        m.functions = [f] ∧ f.Mirrors [91, 43, 91, 45, 93, 62, 93] ∧ m.check.warnings = [] ∧
        f.blocks.size = 5 ∧ f.predecessors (.ofNat 1) = [.ofNat 0, .ofNat 4] := by
  have hbal : Balanced (Source.commands [91, 43, 91, 45, 93, 62, 93]) := by decide
  have hsmall : (Source.commands [91, 43, 91, 45, 93, 62, 93]).length < 2 ^ 29 := by decide
  have hcells : ({} : Options).cellCount.toNat < 2 ^ 63 := by decide
  obtain ⟨m, f, tally, hlower, hf, hmirrors, hwarnings⟩ := lower_mirrors hbal hsmall hcells
  have hinner : Source.Matches [91, 43, 91, 45, 93, 62, 93] 2 4 :=
    ⟨by decide, rfl, rfl, by decide⟩
  have houter : Source.Matches [91, 43, 91, 45, 93, 62, 93] 0 6 :=
    ⟨by decide, rfl, rfl, by decide⟩
  have hlast : Source.LastBracket [91, 43, 91, 45, 93, 62, 93] 6 4 := by
    refine ⟨by decide, .inr rfl, fun r hr hlt => ?_⟩
    obtain rfl : r = 5 := by omega
    decide
  exact ⟨hbal, hsmall, hcells, m, f, tally, hlower, hf, hmirrors, hwarnings, hmirrors.size,
    (hmirrors.entered 0 6 0 4 houter (.start nofun) (.after hlast hinner)).2.1⟩

end TapeFlow
