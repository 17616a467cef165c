import TapeFlow.Compile
import TapeFlow.Proofs.ControlFlow
import TapeFlow.Proofs.Registers
import TapeFlow.Proofs.WellFormed

/-!
# What compiling a source comes to

Which of its errors a source gives, and where, is a matter of its brackets alone;
a source whose brackets match gives a module that the checker accepts.

* `Draft.Completes.wellFormed` — a finished draft is in order, as long as the names
  of the capabilities differ.
* `Source.FirstOverclosing`, `Source.LastUnmatched` — the brackets that are reported.
* `CompilesTo` — what the result of compiling a source with some options must be.
* `compile_outcome` — and it is.
-/

namespace TapeFlow

/-! ## A finished draft is in order -/

namespace Draft.Completes

variable {e : Draft} {options : Options} {source : Source} {m : Module}

theorem isSome_block? (h : e.Completes options source.commands) {c : Nat}
    (hc : c < e.finished.blocks.size) :
    (e.finished.finish.block? (.ofNat c)).isSome = true := by
  have hblock : e.finished.finish.block? (.ofNat c) = some e.finished.blocks[c] := by
    rw [Function.block?, BlockId.toNat_ofNat (h.follows.lt_of_block hc)]
    exact Array.getElem?_eq_getElem hc
  rw [hblock]
  rfl

/-- Every block ends in a terminator that leads to blocks there are and reads a
register there is. -/
theorem exists_terminator (h : e.Completes options source.commands) {c : Nat} {block : Block}
    (hblock : e.finished.blocks[c]? = some block) :
    ∃ t, block.terminator = some t ∧
      (∀ id ∈ t.successors, (e.finished.finish.block? id).isSome = true) ∧
      ∀ r ∈ t.used, r ∈ e.finished.finish.definitions := by
  have hlt := (Array.getElem?_eq_some_iff.1 hblock).1
  rw [h.size] at hlt
  obtain ⟨p, hp, hhome⟩ := Source.exists_place h.balanced (b := c) (by omega)
  rcases hp with hp | rfl
  · obtain ⟨i, j, hmatch, hp⟩ := hp.exists_matches h.balanced
    obtain ⟨block', r, hr, hblock', hend⟩ := h.exists_branch_of_matches hmatch hp hhome
    cases hblock.symm.trans hblock'
    have hk : 2 * source.loopNumber i < e.finished.blocks.size :=
      h.follows.loopNumber_lt hmatch.opens
    refine ⟨_, hend, ?_, ?_⟩
    · simp only [Terminator.successors, List.mem_cons, List.not_mem_nil, or_false]
      rintro id (rfl | rfl)
      · exact h.isSome_block? (by omega)
      · exact h.isSome_block? hk
    · simp only [Terminator.used, List.mem_singleton]
      rintro u rfl
      exact h.mem_definitions (Reg.below_ofNat (by omega))
  · obtain ⟨block', hblock', hend, -⟩ := h.exists_return hhome
    cases hblock.symm.trans hblock'
    refine ⟨_, hend, fun id hid => absurd hid List.not_mem_nil, ?_⟩
    simp only [Terminator.used, Option.toList_some, List.mem_singleton]
    rintro u rfl
    exact h.mem_definitions (Reg.below_ofNat (Nat.lt_succ_self _))

/-- A finished draft is in order in a module whose declarations fit its calls. -/
theorem wellFormed_of_calls (h : e.Completes options source.commands)
    (hcalls : ∀ dst symbol args, .call dst symbol args ∈ e.finished.finish.instructions →
      m.arity? symbol = some args.length) : e.finished.finish.WellFormed m where
  entry := by
    have hpos : 0 < e.finished.blocks.size := by rw [h.size]; omega
    exact h.isSome_block? hpos
  nodup := h.nodup_definitions
  blocks := by
    intro c block hblock
    have hmem : ∀ i ∈ block.instructions.toList, i ∈ e.finished.finish.instructions :=
      fun i hi => List.mem_flatMap.2
        ⟨block, Array.mem_toList_iff.2 (Array.mem_of_getElem? hblock), hi⟩
    refine ⟨h.follows.numbered c block hblock, ?_, ?_, h.exists_terminator hblock⟩
    · intro dst symbol args hcall
      exact hcalls dst symbol args (hmem _ hcall)
    · intro i hi r hr
      exact h.mem_definitions ((h.allocates.inOrder i (hmem i hi)).used r hr)

/-- A finished draft is in order in a module that declares the capabilities. -/
theorem wellFormed (h : e.Completes options source.commands)
    (hdistinct : options.symbols.Distinct)
    (hm : m.declarations = options.symbols.declarations) : e.finished.finish.WellFormed m := by
  refine h.wellFormed_of_calls fun dst symbol args hcall => ?_
  obtain ⟨d, rfl, hlen⟩ := (h.allocates.inOrder _ hcall).calls
  rw [hdistinct.arity?_nameOf hm, hlen]

end Draft.Completes

/-! ## The brackets that are reported -/

namespace Source

/-- The first `n` bytes close more loops than they open. -/
def Overclosed (source : Source) (n : Nat) : Prop :=
  (source.take n).count (Command.toByte .loopOpen) <
    (source.take n).count (Command.toByte .loopClose)

instance (source : Source) (n : Nat) : Decidable (source.Overclosed n) :=
  inferInstanceAs (Decidable (_ < _))

/-- The first closing bracket that has nothing to close. -/
structure FirstOverclosing (source : Source) (p : Nat) : Prop where
  /-- It is a closing bracket. -/
  closes : source[p]? = some (Command.toByte .loopClose)
  /-- With it, too much is closed. -/
  overclosed : source.Overclosed (p + 1)
  /-- Before it, nothing is. -/
  first : ∀ n ≤ p, ¬ source.Overclosed n

/-- An opening bracket that no bracket closes. -/
def Unmatched (source : Source) (i : Nat) : Prop :=
  source[i]? = some (Command.toByte .loopOpen) ∧ ∀ j, ¬ source.Matches i j

/-- The last opening bracket that no bracket closes. -/
structure LastUnmatched (source : Source) (i : Nat) : Prop where
  /-- No bracket closes it. -/
  unmatched : source.Unmatched i
  /-- No such bracket comes after it. -/
  last : ∀ j, source.Unmatched j → j ≤ i

variable {source : Source} {p i j n : Nat}

theorem not_overclosed_of_run {s : Nesting}
    (h : ({} : Nesting).run (Source.commands (source.take n)) = some s) :
    ¬ source.Overclosed n := by
  have hlen := Nesting.length_stack_run h
  rw [Overclosed, ← count_commands, ← count_commands]
  simp only [List.length_nil] at hlen
  omega

/-- If a source can be read that far, so can every shorter part. -/
theorem exists_run_of_le {s : Nesting}
    (h : ({} : Nesting).run (Source.commands (source.take p)) = some s) (hn : n ≤ p) :
    ∃ t, ({} : Nesting).run (Source.commands (source.take n)) = some t := by
  have hsplit : source.take p = source.take n ++ (source.take p).drop n := by
    have htake : (source.take p).take n = source.take n := by
      rw [List.take_take, Nat.min_eq_left hn]
    rw [← htake, List.take_append_drop]
  rw [hsplit, commands_append, Nesting.run_append] at h
  obtain ⟨t, ht, -⟩ := Option.bind_eq_some_iff.1 h
  exact ⟨t, ht⟩

/-- If a source can be read that far, no shorter part closes too much. -/
theorem not_overclosed_of_le {s : Nesting}
    (h : ({} : Nesting).run (Source.commands (source.take p)) = some s) (hn : n ≤ p) :
    ¬ source.Overclosed n := by
  obtain ⟨t, ht⟩ := exists_run_of_le h hn
  exact not_overclosed_of_run ht

/-- A source that cannot be read closes too much at the bracket it stops at. -/
theorem firstOverclosing_of_run {s : Nesting}
    (hs : ({} : Nesting).run (Source.commands (source.take p)) = some s) (hstack : s.stack = [])
    (hp : source[p]? = some (Command.toByte .loopClose)) : source.FirstOverclosing p := by
  refine ⟨hp, ?_, fun n hn => not_overclosed_of_le hs hn⟩
  have hlen := Nesting.length_stack_run hs
  rw [Overclosed, ← count_commands, ← count_commands, commands_take_succ hp]
  rw [hstack] at hlen
  simp at hlen ⊢
  omega

theorem exists_overclosed (h : ({} : Nesting).run source.commands = none) :
    ∃ n, source.Overclosed n := by
  obtain ⟨pre, post, t, hcs, ht, hstack⟩ := Nesting.exists_refused h
  obtain ⟨p, hp, rfl, -⟩ := exists_offset hcs
  exact ⟨p + 1, (firstOverclosing_of_run ht hstack hp).overclosed⟩

/-- A source that closes too much cannot be read. -/
theorem run_eq_none (h : source.Overclosed n) : ({} : Nesting).run source.commands = none := by
  cases hrun : ({} : Nesting).run source.commands with
  | none => rfl
  | some s =>
    rw [← List.take_append_drop n source, commands_append, Nesting.run_append] at hrun
    obtain ⟨t, ht, -⟩ := Option.bind_eq_some_iff.1 hrun
    exact absurd h (not_overclosed_of_run ht)

theorem balanced_of_run {s : Nesting} (h : ({} : Nesting).run source.commands = some s)
    (hstack : s.stack = []) : Balanced source.commands := by
  have hlen := Nesting.length_stack_run h
  have hnested : Nested ({} : Nesting).stack.length source.commands :=
    Nesting.run_isSome_iff.1 (by rw [h]; rfl)
  rw [hstack] at hlen
  exact ⟨by simpa using hlen, hnested⟩

/-- Brackets that belong together in a part of a source do so in the whole. -/
theorem Matches.of_drop (h : Source.Matches (source.drop n) i j) :
    source.Matches (n + i) (n + j) := by
  obtain ⟨hlt, hopens, hcloses, hbetween⟩ := h
  rw [List.getElem?_drop] at hopens hcloses
  refine ⟨by omega, hopens, hcloses, ?_⟩
  rw [List.drop_take] at hbetween ⊢
  rw [List.drop_drop] at hbetween
  rwa [show n + j - (n + i + 1) = j - (i + 1) by omega,
    show n + i + 1 = n + (i + 1) by omega]

/-- An opening bracket with balanced code after it is the last that nothing closes. -/
theorem lastUnmatched_of_balanced (hi : source[i]? = some (Command.toByte .loopOpen))
    (hbal : Balanced (Source.commands (source.drop (i + 1)))) : source.LastUnmatched i := by
  refine ⟨⟨hi, fun j hmatch => ?_⟩, fun j hj => ?_⟩
  · have hbetween := hmatch.between
    rw [List.drop_take] at hbetween
    have hnested := hbal.nested
    rw [commands_split (getElem?_drop_of_lt hmatch.closes hmatch.lt)] at hnested
    exact hbetween.not_nested_close hnested
  · -- a later bracket stands in the balanced code, and is closed there
    refine Nat.le_of_not_lt fun hlt => ?_
    obtain ⟨k, hk⟩ := exists_closing hbal (getElem?_drop_of_lt hj.1 hlt)
    have hmatch := hk.of_drop
    rw [show i + 1 + (j - (i + 1)) = j by omega] at hmatch
    exact hj.2 _ hmatch

end Source

/-! ## Tokens and their offsets -/

theorem Scanner.exists_of_tokens {offset : Nat} {rest : Source} {pre post : List Token} {t : Token}
    (h : (⟨offset, rest⟩ : Scanner).tokens = pre ++ t :: post) :
    ∃ k, t.offset = offset + k ∧ rest[k]? = some t.command.toByte ∧
      Source.commands (rest.take k) = pre.map Token.command := by
  induction rest generalizing offset pre with
  | nil => simp at h
  | cons b bs ih =>
    cases hb : Command.ofByte? b with
    | none =>
      rw [tokens_comment hb] at h
      obtain ⟨k, hk, hbyte, hpre⟩ := ih h
      refine ⟨k + 1, by omega, hbyte, ?_⟩
      rw [List.take_succ_cons, Source.commands, List.filterMap_cons_none hb]
      exact hpre
    | some c =>
      have hc := Command.toByte_of_ofByte? hb
      rw [tokens_command hb] at h
      cases pre with
      | nil =>
        obtain ⟨rfl, -⟩ := List.cons.inj h
        exact ⟨0, rfl, by rw [hc]; rfl, rfl⟩
      | cons u pre =>
        obtain ⟨rfl, hrest⟩ := List.cons.inj h
        obtain ⟨k, hk, hbyte, hpre⟩ := ih hrest
        refine ⟨k + 1, by omega, hbyte, ?_⟩
        rw [List.take_succ_cons, ← hc, Source.commands_cons_toByte, hpre]
        rfl

/-- A token stands where it says, and the tokens before it are the commands before
its byte. -/
theorem Scanner.getElem?_of_tokens {source : Source} {pre post : List Token} {t : Token}
    (h : (Scanner.ofSource source).tokens = pre ++ t :: post) :
    source[t.offset]? = some t.command.toByte ∧
      Source.commands (source.take t.offset) = pre.map Token.command := by
  obtain ⟨k, hk, hbyte, hpre⟩ := Scanner.exists_of_tokens h
  rw [hk, Nat.zero_add]
  exact ⟨hbyte, hpre⟩

/-- The offset of the loop with a number, counted from zero. -/
theorem getD_openOffsets {pre post : List Token} {t : Token} (ht : t.command = .loopOpen) :
    (openOffsets (pre ++ t :: post)).getD ((pre.map Token.command).count .loopOpen) 0 =
      t.offset := by
  have hlen : (pre.map Token.command).count .loopOpen = (openOffsets pre).length := by
    rw [openOffsets, List.length_map, List.count, List.countP_map, List.countP_eq_length_filter]
    rfl
  rw [openOffsets_append, hlen]
  simp [openOffsets, ht]

/-! ## The outcomes -/

section

variable {options : Options} {source : Source}

theorem two_mul_count_lt (hsmall : source.commands.length < 2 ^ 29) :
    2 * (Scanner.ofSource source).commands.count .loopOpen < 2 ^ 32 := by
  have := List.count_le_length (a := Command.loopOpen) (l := source.commands)
  rw [Scanner.commands_ofSource]
  omega

/-- Where too much is closed, the first bracket that does so is reported. -/
theorem lower_of_overclosed (hcells : options.cellCount.toNat < 2 ^ 63)
    (hsmall : source.commands.length < 2 ^ 29) {n : Nat} (h : source.Overclosed n) :
    ∃ p, source.FirstOverclosing p ∧
      (lower options (.ofSource source)).1 = .error (.unexpectedClose p) := by
  have hrun : ({} : Nesting).run (Scanner.ofSource source).commands = none := by
    rw [Scanner.commands_ofSource]
    exact Source.run_eq_none h
  obtain ⟨pre, t, post, s, htokens, ht, hs, hstack, hlower⟩ :=
    lower_eq_unexpected hcells (two_mul_count_lt hsmall) hrun
  obtain ⟨hbyte, hpre⟩ := Scanner.getElem?_of_tokens htokens
  rw [ht] at hbyte
  exact ⟨t.offset, Source.firstOverclosing_of_run (hpre ▸ hs) hstack hbyte, hlower⟩

/-- Where a loop is left open, the last one that is, is reported. -/
theorem lower_of_open (hcells : options.cellCount.toNat < 2 ^ 63)
    (hsmall : source.commands.length < 2 ^ 29) {s : Nesting} {loop : Nat} {rest : List Nat}
    (hrun : ({} : Nesting).run source.commands = some s) (hstack : s.stack = loop :: rest) :
    ∃ i, source.LastUnmatched i ∧
      (lower options (.ofSource source)).1 = .error (.unterminatedLoop source.length i) := by
  have hcommands := Scanner.commands_ofSource source
  obtain ⟨pre, mid, t, hsplit, hmid, ht, hopened, -⟩ := Nesting.exists_open_of_stack hrun hstack
  -- the token of the bracket that opened the loop
  rw [← hcommands, Scanner.commands] at hsplit
  obtain ⟨pre', tail, htokens, rfl, htail⟩ := List.map_eq_append_iff.1 hsplit
  obtain ⟨u, post, rfl, hu, rfl⟩ := List.map_eq_cons_iff.1 htail
  obtain ⟨hbyte, hpre⟩ := Scanner.getElem?_of_tokens htokens
  rw [hu] at hbyte
  have hafter : Source.commands (source.drop (u.offset + 1)) = post.map Token.command := by
    have hwhole := Source.commands_split hbyte
    rw [← hcommands, Scanner.commands, hsplit, hpre] at hwhole
    exact (List.cons.inj (List.append_cancel_left hwhole)).2.symm
  refine ⟨u.offset, Source.lastUnmatched_of_balanced hbyte (hafter ▸ hmid), ?_⟩
  obtain ⟨e, he, rfl⟩ := Draft.exists_run (d := Draft.start options) options.symbols
    (tapeLayout options) (hcommands ▸ hrun)
  have hloop : loop = (pre'.map Token.command).count .loopOpen := by
    rw [← hopened, Nesting.opened_run ht]
    exact Nat.zero_add _
  rw [lower_eq_unterminated hcells (two_mul_count_lt hsmall) he hstack, htokens, hloop,
    getD_openOffsets hu, Scanner.sourceLength, Scanner.ofSource, Nat.zero_add]

theorem compile_of_error {e : Error} (h : (lower options (.ofSource source)).1 = .error e) :
    (compile options source).1 = .error e := by
  rw [compile]
  split
  · rename_i e' events hlower
    rw [hlower] at h
    cases h
    rfl
  · rename_i result tally events hlower
    rw [hlower] at h
    cases h

theorem compile_of_ok {result : Module} {tally : Tally}
    (h : (lower options (.ofSource source)).1 = .ok (result, tally)) :
    (compile options source).1 = (verify options result tally).1 := by
  rw [compile]
  split
  · rename_i e events hlower
    rw [hlower] at h
    cases h
  · rename_i result' tally' events hlower
    rw [hlower] at h
    cases h
    rfl

/-- The brackets of a source match if nothing is closed too often and nothing is left
open. -/
theorem Source.balanced_of_matched (hover : ∀ n, ¬ source.Overclosed n)
    (hopen : ∀ i, ¬ source.Unmatched i) : Balanced source.commands := by
  cases hrun : ({} : Nesting).run source.commands with
  | none =>
    obtain ⟨n, hn⟩ := exists_overclosed hrun
    exact absurd hn (hover n)
  | some s =>
    cases hstack : s.stack with
    | nil => exact balanced_of_run hrun hstack
    | cons loop rest =>
      obtain ⟨pre, mid, t, hsplit, hmid, -⟩ := Nesting.exists_open_of_stack hrun hstack
      obtain ⟨i, hi, -, rfl⟩ := exists_offset hsplit
      exact absurd (lastUnmatched_of_balanced hi hmid).unmatched (hopen i)

/-- A source that can be read but has an open loop ends inside that loop. -/
theorem lower_of_unmatched (hcells : options.cellCount.toNat < 2 ^ 63)
    (hsmall : source.commands.length < 2 ^ 29) (hover : ∀ n, ¬ source.Overclosed n) {i : Nat}
    (hi : source.Unmatched i) : ∃ i, source.LastUnmatched i ∧
      (lower options (.ofSource source)).1 = .error (.unterminatedLoop source.length i) := by
  cases hrun : ({} : Nesting).run source.commands with
  | none =>
    obtain ⟨n, hn⟩ := Source.exists_overclosed hrun
    exact absurd hn (hover n)
  | some s =>
    cases hstack : s.stack with
    | nil =>
      obtain ⟨j, hj⟩ := Source.exists_closing (Source.balanced_of_run hrun hstack) hi.1
      exact absurd hj (hi.2 j)
    | cons loop rest => exact lower_of_open hcells hsmall hrun hstack

/-- A source that is lowered has been read to the end, and its module is the finished
draft. -/
theorem exists_completes_of_lower (hsmall : source.commands.length < 2 ^ 29) {result : Module}
    {tally : Tally} (h : (lower options (.ofSource source)).1 = .ok (result, tally)) :
    ∃ e : Draft, e.Completes options source.commands ∧ result =
      ⟨options.moduleName, options.symbols.declarations, [e.finished.finish]⟩ := by
  have hcells := cellCount_lt_of_lower h
  have hover : ∀ n, ¬ source.Overclosed n := by
    intro n hn
    obtain ⟨p, -, hlower⟩ := lower_of_overclosed hcells hsmall hn
    cases hlower.symm.trans h
  have hopen : ∀ i, ¬ source.Unmatched i := by
    intro i hi
    obtain ⟨j, -, hlower⟩ := lower_of_unmatched hcells hsmall hover hi
    cases hlower.symm.trans h
  obtain ⟨e, tally', he, hlower⟩ :=
    lower_eq_finished hcells (Source.balanced_of_matched hover hopen) hsmall
  cases hlower.symm.trans h
  exact ⟨e, he, rfl⟩

/-- What compiling a source whose brackets match comes to. -/
theorem compile_of_balanced (hcells : options.cellCount.toNat < 2 ^ 63)
    (hsmall : source.commands.length < 2 ^ 29) (hbal : Balanced source.commands) :
    ∃ (result : Module) (tally : Tally),
      (compile options source).1 = (verify options result tally).1 ∧
      (options.symbols.Distinct → result.check.valid = true) := by
  obtain ⟨e, tally, he, hlower⟩ := lower_eq_finished hcells hbal hsmall
  refine ⟨_, tally, compile_of_ok hlower, fun hdistinct => (Module.check_valid_iff _).2 ?_⟩
  simp only [List.mem_singleton]
  rintro f rfl
  exact he.wellFormed hdistinct rfl

theorem verify_off (h : options.verify = false) (result : Module) (tally : Tally) :
    (verify options result tally).1 = .ok ⟨result, tally, none⟩ := by
  rw [verify, if_neg (by rw [h]; exact Bool.false_ne_true)]

theorem verify_of_valid (h : options.verify = true) {result : Module}
    (hvalid : result.check.valid = true) (tally : Tally) :
    (verify options result tally).1 = .ok ⟨result, tally, some result.check⟩ := by
  rw [verify, if_pos h]
  exact congrArg Prod.fst (if_pos hvalid)

theorem verify_of_not_valid (h : options.verify = true) {result : Module}
    (hvalid : ¬ result.check.valid = true) (tally : Tally) :
    (verify options result tally).1 =
      .error (.rejected (result.check.violations.map Violation.message)) := by
  rw [verify, if_pos h]
  exact congrArg Prod.fst (if_neg hvalid)

theorem verify_eq_ok {result : Module} {tally : Tally} {compiled : Compiled}
    (h : (verify options result tally).1 = .ok compiled) :
    compiled.result = result ∧ compiled.tally = tally ∧
      (options.verify = true → result.check.valid = true) := by
  cases hverify : options.verify with
  | false =>
    cases (verify_off hverify result tally).symm.trans h
    exact ⟨rfl, rfl, nofun⟩
  | true =>
    by_cases hvalid : result.check.valid = true
    · cases (verify_of_valid hverify hvalid tally).symm.trans h
      exact ⟨rfl, rfl, fun _ => hvalid⟩
    · cases (verify_of_not_valid hverify hvalid tally).symm.trans h

/-- What is compiled has been lowered, and has been found valid if it was checked. -/
theorem lower_of_compile {compiled : Compiled} (h : (compile options source).1 = .ok compiled) :
    (lower options (.ofSource source)).1 = .ok (compiled.result, compiled.tally) ∧
      (options.verify = true → compiled.result.check.valid = true) := by
  cases hlower : (lower options (.ofSource source)).1 with
  | error e => cases (compile_of_error hlower).symm.trans h
  | ok lowered =>
    obtain ⟨hresult, htally, hvalid⟩ := verify_eq_ok ((compile_of_ok hlower).symm.trans h)
    rw [hresult, htally]
    exact ⟨rfl, hvalid⟩

end

/-- What the result of compiling a source must be, by its options and brackets. -/
structure CompilesTo (options : Options) (source : Source) (result : Except Error Compiled) :
    Prop where
  /-- A tape that is too long is refused, whatever the source is. -/
  invalid : 2 ^ 63 ≤ options.cellCount.toNat → result = .error (.invalidOptions
    s!"cell_count {options.cellCount.toNat} does not fit in i64")
  /-- Otherwise, if too much is closed, the first bracket to do so is reported. -/
  unexpected : options.cellCount.toNat < 2 ^ 63 → (∃ n, source.Overclosed n) →
    ∃ p, source.FirstOverclosing p ∧ result = .error (.unexpectedClose p)
  /-- Otherwise, if a loop is left open, the last such loop is reported. -/
  unterminated : options.cellCount.toNat < 2 ^ 63 → (∀ n, ¬ source.Overclosed n) →
    (∃ i, source.Unmatched i) →
    ∃ i, source.LastUnmatched i ∧ result = .error (.unterminatedLoop source.length i)
  /-- Otherwise there is a module, as it is if it is not to be checked. -/
  unchecked : options.cellCount.toNat < 2 ^ 63 → (∀ n, ¬ source.Overclosed n) →
    (∀ i, ¬ source.Unmatched i) → options.verify = false →
    ∃ compiled, result = .ok compiled ∧ compiled.report = none
  /-- If it is to be checked and the names differ, no rule is broken. -/
  checked : options.cellCount.toNat < 2 ^ 63 → (∀ n, ¬ source.Overclosed n) →
    (∀ i, ¬ source.Unmatched i) → options.verify = true → options.symbols.Distinct →
    ∃ compiled report, result = .ok compiled ∧ compiled.report = some report ∧
      report.violations = []
  /-- There is no other error, and the checker refuses a module only if names agree. -/
  errors : ∀ e, result = .error e → (∃ detail, e = .invalidOptions detail) ∨
    (∃ p, e = .unexpectedClose p) ∨ (∃ n i, e = .unterminatedLoop n i) ∨
    ∃ reasons, e = .rejected reasons ∧ options.verify = true ∧ ¬ options.symbols.Distinct

section

variable {options : Options} {source : Source}

/-- The errors that compiling can end in. -/
theorem error_cases (hsmall : source.commands.length < 2 ^ 29) {e : Error}
    (h : (compile options source).1 = .error e) : (∃ detail, e = .invalidOptions detail) ∨
    (∃ p, e = .unexpectedClose p) ∨ (∃ n i, e = .unterminatedLoop n i) ∨
    ∃ reasons, e = .rejected reasons ∧ options.verify = true ∧ ¬ options.symbols.Distinct := by
  rcases Nat.lt_or_ge options.cellCount.toNat (2 ^ 63) with hcells | hcells
  · by_cases hover : ∃ n, source.Overclosed n
    · obtain ⟨n, hn⟩ := hover
      obtain ⟨p, -, hlower⟩ := lower_of_overclosed hcells hsmall hn
      cases (compile_of_error hlower).symm.trans h
      exact .inr (.inl ⟨p, rfl⟩)
    have hover : ∀ n, ¬ source.Overclosed n := fun n hn => hover ⟨n, hn⟩
    by_cases hopen : ∃ i, source.Unmatched i
    · obtain ⟨i, hi⟩ := hopen
      obtain ⟨i, -, hlower⟩ := lower_of_unmatched hcells hsmall hover hi
      cases (compile_of_error hlower).symm.trans h
      exact .inr (.inr (.inl ⟨_, i, rfl⟩))
    have hbal := Source.balanced_of_matched hover fun i hi => hopen ⟨i, hi⟩
    obtain ⟨result, tally, hcompile, hvalid⟩ := compile_of_balanced hcells hsmall hbal
    rw [hcompile] at h
    cases hverify : options.verify with
    | false => cases (verify_off hverify result tally).symm.trans h
    | true =>
      by_cases hcheck : result.check.valid = true
      · cases (verify_of_valid hverify hcheck tally).symm.trans h
      · cases (verify_of_not_valid hverify hcheck tally).symm.trans h
        exact .inr (.inr (.inr ⟨_, rfl, rfl, fun hdistinct => hcheck (hvalid hdistinct)⟩))
  · cases (compile_of_error (lower_eq_invalid hcells)).symm.trans h
    exact .inl ⟨_, rfl⟩

/-- Compiling a source gives the outcome that its options and brackets call for. -/
theorem compile_outcome (options : Options) {source : Source}
    (hsmall : source.commands.length < 2 ^ 29) :
    CompilesTo options source (compile options source).1 where
  invalid := fun hcells => compile_of_error (lower_eq_invalid hcells)
  unexpected := by
    rintro hcells ⟨n, hn⟩
    obtain ⟨p, hp, hlower⟩ := lower_of_overclosed hcells hsmall hn
    exact ⟨p, hp, compile_of_error hlower⟩
  unterminated := by
    rintro hcells hover ⟨i, hi⟩
    obtain ⟨i, hi, hlower⟩ := lower_of_unmatched hcells hsmall hover hi
    exact ⟨i, hi, compile_of_error hlower⟩
  unchecked := by
    intro hcells hover hopen hverify
    obtain ⟨result, tally, hcompile, -⟩ :=
      compile_of_balanced hcells hsmall (Source.balanced_of_matched hover hopen)
    exact ⟨_, hcompile.trans (verify_off hverify result tally), rfl⟩
  checked := by
    intro hcells hover hopen hverify hdistinct
    obtain ⟨result, tally, hcompile, hvalid⟩ :=
      compile_of_balanced hcells hsmall (Source.balanced_of_matched hover hopen)
    exact ⟨_, _, hcompile.trans (verify_of_valid hverify (hvalid hdistinct) tally), rfl,
      List.isEmpty_iff.1 (hvalid hdistinct)⟩
  errors := fun _ h => error_cases hsmall h

/-- The second closing bracket of `[]]` has nothing to close. -/
theorem compile_outcome_stray :
    (Source.commands [91, 93, 93]).length < 2 ^ 29 ∧
      CompilesTo {} [91, 93, 93] (compile {} [91, 93, 93]).1 ∧
      (compile {} [91, 93, 93]).1 = .error (.unexpectedClose 2) := by
  have hsmall : (Source.commands [91, 93, 93]).length < 2 ^ 29 := by decide
  have houtcome := compile_outcome {} hsmall
  obtain ⟨p, hp, herror⟩ := houtcome.unexpected (by decide) ⟨3, by decide⟩
  have honly : ∀ q < 3, Source.Overclosed [91, 93, 93] (q + 1) → q = 2 := by decide
  obtain rfl := honly p (List.getElem?_eq_some_iff.1 hp.closes).1 hp.overclosed
  exact ⟨hsmall, houtcome, herror⟩

end

end TapeFlow
